import MessagePass.PeerMessages

/-!
# Sizes of received messages

A received message is built with the size that one frame announces, and its own size is what
`zmq_recv` returns for another frame. The two are compared nowhere: `zmq_recv` copies no more than
the buffer holds, but it returns the length of the whole frame.
-/
namespace MessagePass.PeerMessages
open DataMessages ReceiveQueues LittleEndian LabelledRuns ReceiveLoop

/-- `cap()`: the capacity a message was constructed with; filling its buffer and setting its size
do not change it. -/
class CappedMessage (T : Type) extends ReceivedMessage T where
  cap : T → UInt64
  cap_ofCapacity : ∀ c m, ofCapacity c = some m → cap m = c
  cap_copyIn : ∀ m bs, bs.length ≤ (constData m).length → cap (copyIn m bs) = cap m
  cap_setSize : ∀ m n, cap (setSize m n) = cap m

export CappedMessage (cap)

instance : CappedMessage ByteMessage where
  cap m := UInt64.ofNat m.buffer_.length
  cap_ofCapacity c m h := by
    simp only [ofCapacity, Option.ite_none_right_eq_some, Option.some.injEq] at h
    obtain ⟨-, rfl⟩ := h
    simp
  cap_copyIn m bs h := by
    have hlength : (bs ++ m.buffer_.drop bs.length).length = m.buffer_.length := by
      rw [List.length_append, List.length_drop]
      exact Nat.add_sub_cancel' h
    simp only [copyIn, hlength]
  cap_setSize m n := rfl

variable {T : Type} [CappedMessage T]

/-- A message claims no more bytes than it owns, and these are the first bytes of the payload
frame it was received from. -/
structure Contained (frame : Frame) (got : T) : Prop where
  within : size got ≤ cap got
  whole : (payload got).length = (size got).toNat
  leading : payload got <+: frame

def filled (capacity : UInt64) (buffer : T) (frame : Frame) : T :=
  setSize (copyIn buffer (frame.take capacity.toNat)) (received frame)

section Filled
variable {capacity : UInt64} {buffer : T} (hnew : ofCapacity capacity = some buffer)
include hnew

theorem length_buffer (frame : Frame) :
    (frame.take capacity.toNat).length ≤ (constData buffer).length := by
  rw [ReceivedMessage.length_ofCapacity _ _ hnew, List.length_take]
  exact Nat.min_le_left ..

theorem cap_filled (frame : Frame) : cap (filled capacity buffer frame) = capacity := by
  rw [filled, CappedMessage.cap_setSize, CappedMessage.cap_copyIn _ _ (length_buffer hnew frame),
    CappedMessage.cap_ofCapacity _ _ hnew]

omit hnew in
theorem size_filled (frame : Frame) : size (filled capacity buffer frame) = received frame :=
  ReceivedMessage.size_setSize _ _

theorem contained_filled {frame : Frame} (h : received frame ≤ capacity) :
    Contained frame (filled capacity buffer frame) := by
  have hcapacity := UInt64.le_iff_toNat_le.mp h
  have hreceived := toNat_received frame
  have hpayload : payload (filled capacity buffer frame) = frame.take (received frame).toNat := by
    rw [payload, size_filled, filled, ReceivedMessage.constData_setSize,
      ReceivedMessage.constData_copyIn _ _ (length_buffer hnew frame),
      List.take_append_of_le_length (by rw [List.length_take]; omega), List.take_take,
      Nat.min_eq_left hcapacity]
  refine ⟨by rwa [size_filled, cap_filled hnew], ?_, ?_⟩
  · rw [hpayload, size_filled, List.length_take]
    omega
  · rw [hpayload]
    exact List.take_prefix ..

end Filled

structure Constructed (s : Receiver T) : Prop where
  wired : s.table.Wired
  variable_size : VariableSize s.pc
  buffer : ∀ source capacity msg, stage s.pc = .recvPayload source capacity msg →
    ofCapacity capacity = some msg

omit [CappedMessage T] in
theorem variableSize_stage {pc : Pc T} : VariableSize (stage pc) ↔ VariableSize pc := by
  cases pc <;> rfl

namespace Constructed
variable {s : Receiver T}

theorem reception (h : Constructed s) {payload : Option Frame} {t : Receiver T}
    (ht : Reception s payload t) : Constructed t := by
  cases ht with
  | retry hstage =>
    refine ⟨h.wired, ?_, fun source capacity msg hpc => ?_⟩
    · exact variableSize_stage.mp (hstage ▸ variableSize_stage.mpr h.variable_size)
    · exact h.buffer source capacity msg (hstage.symm.trans hpc)
  | close _ => exact ⟨h.wired, trivial, by simp [stage]⟩
  | source indeterminate hpc hframes => exact ⟨h.wired, trivial, by simp [stage]⟩
  | size hpc hframes hnew =>
    refine ⟨h.wired, trivial, fun source capacity msg hstage => ?_⟩
    cases hstage
    exact hnew
  | terminate hpc hframes hnew => exact ⟨h.wired, trivial, by simp [stage]⟩
  | payload hpc hframes => exact ⟨h.wired, trivial, by simp [stage]⟩
  | @enqueue source msg hpc =>
    have hwired := h.wired.findOrInsert source
    obtain ⟨queue, hqueue⟩ := hwired.exists_queueOf (QueueTable.mem_findOrInsert source)
    simp only [Receiver.enqueueMsg, hqueue]
    exact ⟨hwired, trivial, by simp [stage]⟩

end Constructed

theorem constructed_reachable {sources : List UInt64} {s : Ingress T}
    (h : Reachable ingressNext (Ingress.prepared sources) s) : Constructed s.receiver := by
  have h0 : Constructed (Ingress.prepared sources : Ingress T).receiver :=
    ⟨QueueTable.wired_empty.prepareSources sources, trivial, by
      simp [Ingress.prepared, Receiver.prepared, stage]⟩
  apply h.invariant (I := fun s => Constructed s.receiver) h0
  intro u a v hu hv
  cases a with
  | deliver m =>
    cases hv
    exact ⟨hu.wired, hu.variable_size, hu.buffer⟩
  | thread ok indeterminate =>
    cases hv
    exact hu.reception (reception hu.variable_size ok indeterminate)
  | stop =>
    cases hv
    exact ⟨hu.wired, hu.variable_size, hu.buffer⟩

def announced : Pc T → UInt64
  | .recvPayload _ capacity _ => capacity
  | _ => 0

/-- A payload frame that is received is no longer than the size received before it. -/
def Fits (s : Ingress T) : IngressLabel → Prop
  | .thread ok _ =>
      ∀ frame ∈ payloadReceived s.receiver ok, received frame ≤ announced s.receiver.pc
  | _ => True

instance : ∀ (s : Ingress T) a, Decidable (Fits s a)
  | _, .deliver _ => .isTrue trivial
  | _, .thread _ _ => inferInstanceAs (Decidable (∀ frame ∈ _, _))
  | _, .stop => .isTrue trivial

/-- The frames received as payloads but not enqueued: at most the one being enqueued. -/
def Pending (pc : Pc T) (frames : List Frame) : Prop :=
  match pc with
  | .enqueue _ got => ∃ frame, frames = [frame] ∧ Contained frame got
  | _ => frames = []

def Contents (s : Ingress T) : Prop := ∃ taken pending,
  s.payloads = taken ++ pending ∧ Pending (stage s.receiver.pc) pending ∧
    List.Forall₂ (fun frame entry => Contained frame entry.2) taken s.receiver.enqueued

namespace Contents
variable {s : Ingress T}

theorem of_moved (h : Contents s) {pc : Pc T} {frames : List Frame}
    (hpc : ∀ pending, Pending (stage s.receiver.pc) pending → Pending (stage pc) pending) :
    Contents { s with
      receiver := { s.receiver with pc := pc, frames := frames }
      payloads := s.payloads ++ none.toList } := by
  obtain ⟨taken, pending, hpayloads, hpending, hcontained⟩ := h
  exact ⟨taken, pending, by simpa using hpayloads, hpc pending hpending, hcontained⟩

theorem thread (h : Contents s) (hc : Constructed s.receiver) {payload : Option Frame}
    {r : Receiver T} (hfits : ∀ frame ∈ payload, received frame ≤ announced s.receiver.pc)
    (hr : Reception s.receiver payload r) :
    Contents { s with receiver := r, payloads := s.payloads ++ payload.toList } := by
  cases hr with
  | retry hstage => exact h.of_moved fun pending hpending => hstage ▸ hpending
  | close hpc =>
    apply h.of_moved
    intro pending hpending
    -- the thread closes where it reads `running_`, and holds no message there
    cases hs : s.receiver.pc <;> rw [hs] at hpending hpc
    all_goals first | exact hpending | exact absurd rfl hpc
  | source indeterminate hpc hframes =>
    exact h.of_moved fun pending hpending => by rwa [hpc] at hpending
  | size hpc hframes hnew => exact h.of_moved fun pending hpending => by rwa [hpc] at hpending
  | terminate hpc hframes hnew =>
    exact h.of_moved fun pending hpending => by rwa [hpc] at hpending
  | @payload source capacity msg frame rest hpc hframes =>
    obtain ⟨taken, pending, hpayloads, hpending, hcontained⟩ := h
    rw [hpc] at hpending
    obtain rfl : pending = [] := hpending
    have hnew := hc.buffer source capacity msg (by rw [hpc]; rfl)
    have hfit : received frame ≤ capacity := by simpa [hpc, announced] using hfits frame rfl
    exact ⟨taken, [frame], by simp [hpayloads], ⟨frame, rfl, contained_filled hnew hfit⟩,
      hcontained⟩
  | @enqueue source msg hpc =>
    obtain ⟨taken, pending, hpayloads, hpending, hcontained⟩ := h
    rw [hpc] at hpending
    obtain ⟨frame, rfl, hframe⟩ := hpending
    obtain ⟨queue, hqueue⟩ := (hc.wired.findOrInsert source).exists_queueOf
      (QueueTable.mem_findOrInsert source)
    simp only [Receiver.enqueueMsg, hqueue]
    exact ⟨taken ++ [frame], [], by simp [hpayloads], rfl,
      List.rel_append hcontained (.cons hframe .nil)⟩

end Contents

theorem contents_reachable {sources : List UInt64} {s : Ingress T}
    (h : Reachable (guarded Fits ingressNext) (Ingress.prepared sources) s) : Contents s := by
  refine h.invariant_with (fun u hu => constructed_reachable hu.of_guarded)
    ⟨[], [], rfl, rfl, .nil⟩ fun u a v hc hu hv => ?_
  obtain ⟨hfits, hv⟩ := guarded_eq_some.mp hv
  cases a with
  | deliver m =>
    cases hv
    exact hu
  | thread ok indeterminate =>
    cases hv
    exact hu.thread hc hfits (reception hc.variable_size ok indeterminate)
  | stop =>
    cases hv
    exact hu

/-- Every message in a receive queue is contained in its payload frame; at most the last frame
received as a payload has not been enqueued yet. -/
def SizesHeld (s : Ingress T) : Prop := ∃ taken pending,
  s.payloads = taken ++ pending ∧ pending.length ≤ 1 ∧
    List.Forall₂ Contained taken (s.receiver.enqueued.map Prod.snd)

theorem Contents.sizesHeld {s : Ingress T} (h : Contents s) : SizesHeld s := by
  obtain ⟨taken, pending, hpayloads, hpending, hcontained⟩ := h
  refine ⟨taken, pending, hpayloads, ?_, List.forall₂_map_right_iff.mpr hcontained⟩
  unfold Pending at hpending
  split at hpending
  · obtain ⟨frame, rfl, -⟩ := hpending
    exact Nat.le_refl 1
  · rw [hpending]
    exact Nat.zero_le 1

/-- A payload frame that is too long makes a message that claims more than it owns. -/
theorem oversized_enqueued {s : Ingress T} (hc : Constructed s.receiver) {ok : Bool}
    {indeterminate : UInt64} (h : ¬ Fits s (.thread ok indeterminate)) :
    ∃ t, run ingressNext s [.thread ok indeterminate, .thread ok indeterminate] = some t ∧
      ∃ entry ∈ t.receiver.enqueued, cap entry.2 < size entry.2 := by
  simp only [Fits, not_forall, UInt64.not_le] at h
  obtain ⟨frame, hframe, hlong⟩ := h
  have hmove := reception hc.variable_size ok indeterminate
  rw [hframe] at hmove
  generalize hr : recvMessage none ok indeterminate s.receiver = r at hmove
  cases hmove with
  | @payload source capacity msg _ rest hpc hframes =>
    have hnew := hc.buffer source capacity msg (by rw [hpc]; rfl)
    obtain ⟨queue, hqueue⟩ := (hc.wired.findOrInsert source).exists_queueOf
      (QueueTable.mem_findOrInsert source)
    rw [hpc, announced] at hlong
    refine ⟨_, by simp only [run_cons, ingressNext, hr, Option.bind_some, run_nil]; rfl,
      (queue, filled capacity msg frame), ?_, by rwa [cap_filled hnew, size_filled]⟩
    simp [recvMessage, Receiver.enqueueMsg, hqueue, filled]

/-- While no payload frame is longer than the size announced for it, no message claims more bytes
than it owns; a longer one makes such a message. -/
theorem received_sizes_within_capacity (sources : List UInt64) :
    (∀ s : Ingress T, Reachable (guarded Fits ingressNext) (Ingress.prepared sources) s →
      SizesHeld s) ∧
    ∀ (s : Ingress T) ok indeterminate, Reachable ingressNext (Ingress.prepared sources) s →
      ¬ Fits s (.thread ok indeterminate) →
      ∃ t, run ingressNext s [.thread ok indeterminate, .thread ok indeterminate] = some t ∧
        ∃ entry ∈ t.receiver.enqueued, cap entry.2 < size entry.2 :=
  ⟨fun _ h => (contents_reachable h).sizesHeld,
    fun _ _ _ h => oversized_enqueued (constructed_reachable h)⟩

/-- A payload that is shorter than announced, with failed receives before it. -/
private def shortened : List IngressLabel :=
  [.deliver ⟨image 5, [image 4, [104, 105]]⟩, .thread true 0, .thread true 0, .thread true 0,
    .thread false 0, .thread true 0, .thread true 0, .thread true 0]

/-- A message of two bytes that is announced with one, up to the receive of its payload. -/
private def understated : List IngressLabel :=
  [.deliver ⟨image 5, [image 1, [104, 105]]⟩, .thread true 0, .thread true 0, .thread true 0]

theorem received_sizes_within_capacity_example :
    (∃ s : Ingress ByteMessage,
      run (guarded Fits ingressNext) (Ingress.prepared [5]) shortened = some s ∧
        s.receiver.enqueued = [(0, ⟨[104, 105, 0, 0], 2⟩)] ∧ SizesHeld s) ∧
    ∃ s t : Ingress ByteMessage,
      run ingressNext (Ingress.prepared [5]) understated = some s ∧
        run ingressNext s [.thread true 0, .thread true 0] = some t ∧
        ∃ entry ∈ t.receiver.enqueued, cap entry.2 < size entry.2 := by
  have htheorem := received_sizes_within_capacity (T := ByteMessage) [5]
  constructor
  · have hrun : (run (guarded Fits ingressNext)
        (Ingress.prepared [5] : Ingress ByteMessage) shortened).map
        (fun s => s.receiver.enqueued) = some [(0, ⟨[104, 105, 0, 0], 2⟩)] := by decide +kernel
    obtain ⟨s, hs, heq⟩ := Option.map_eq_some_iff.mp hrun
    exact ⟨s, hs, heq, htheorem.1 s ⟨_, hs⟩⟩
  · have hrun : (run ingressNext (Ingress.prepared [5] : Ingress ByteMessage) understated).map
        (fun s => decide (Fits s (.thread true 0))) = some false := by decide +kernel
    obtain ⟨s, hs, heq⟩ := Option.map_eq_some_iff.mp hrun
    obtain ⟨t, ht, hentry⟩ := htheorem.2 s true 0 ⟨_, hs⟩ (of_decide_eq_false heq)
    exact ⟨s, t, hs, ht, hentry⟩

/-- A size frame that announces fewer bytes than the payload has. -/
theorem oversized_payload_overstates_size :
    ∃ s : Ingress ByteMessage,
      run ingressNext (Ingress.prepared [5])
        (understated ++ [.thread true 0, .thread true 0]) = some s ∧
      s.receiver.enqueued = [(0, ⟨[104], 2⟩)] ∧ ¬ SizesHeld s := by
  have hrun : (run ingressNext (Ingress.prepared [5] : Ingress ByteMessage)
      (understated ++ [.thread true 0, .thread true 0])).map (fun s => s.receiver.enqueued) =
      some [(0, ⟨[104], 2⟩)] := by decide +kernel
  obtain ⟨s, hs, heq⟩ := Option.map_eq_some_iff.mp hrun
  refine ⟨s, hs, heq, fun ⟨taken, pending, _, _, hforall⟩ => ?_⟩
  rw [heq] at hforall
  obtain ⟨frame, _, hframe, -, -⟩ := List.forall₂_cons_right_iff.mp hforall
  exact absurd hframe.within (by decide)

end MessagePass.PeerMessages
