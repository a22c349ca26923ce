import MessagePass.ReceiveLoop
import MessagePass.RelatedLists

/-!
# The round trip of data messages

In variable-size mode the receive loop stays aligned with the messages that arrive, wherever
receives fail and whenever `stop()` comes: what it has enqueued is a prefix of the arrivals, each
message on the queue of its source and with the same bytes, size and key.
-/
namespace MessagePass.ReceiveLoop
open DataMessages ReceiveQueues LittleEndian LabelledRuns RelatedLists

variable {T : Type} [ReceivedMessage T]

/-- The received message carries what the sent one carried. -/
def SameMessage (sent got : T) : Prop :=
  payload got = payload sent ∧ size got = size sent ∧ key got = key sent

theorem overwrite_image (w v : UInt64) : overwrite w (image v) = v := word_image_append v _

theorem toNat_received (frame : Frame) :
    (received frame).toNat = min frame.length (2 ^ 31 - 1) :=
  Nat.mod_eq_of_lt (by omega)

theorem payload_copied {frame : Frame} {capacity : UInt64} {buffer : T}
    (hnew : ofCapacity capacity = some buffer)
    (hcapacity : capacity.toNat = frame.length) (hint : frame.length < 2 ^ 31) :
    size (setSize (copyIn buffer (frame.take capacity.toNat)) (received frame)) = capacity ∧
      payload (setSize (copyIn buffer (frame.take capacity.toNat)) (received frame)) = frame := by
  have hsize : received frame = capacity := by
    rw [received, Nat.min_eq_left (by omega), ← hcapacity, UInt64.ofNat_toNat]
  have hbuffer : (constData buffer).length = frame.length :=
    (ReceivedMessage.length_ofCapacity _ _ hnew).trans hcapacity
  have hdata : constData (copyIn buffer frame) = frame := by
    rw [ReceivedMessage.constData_copyIn _ _ hbuffer.ge, List.drop_eq_nil_of_le hbuffer.le,
      List.append_nil]
  rw [hsize, hcapacity, List.take_length]
  refine ⟨ReceivedMessage.size_setSize _ _, ?_⟩
  rw [payload, ReceivedMessage.constData_setSize, ReceivedMessage.size_setSize, hdata, hcapacity,
    List.take_length]

theorem sameMessage_copied {msg buffer : T} (h : Sendable msg)
    (hnew : ofCapacity (size msg) = some buffer) :
    SameMessage msg (setSize (copyIn buffer
      (((constData msg).take (size msg).toNat).take (size msg).toNat))
      (received ((constData msg).take (size msg).toNat))) := by
  have hlength : ((constData msg).take (size msg).toNat).length = (size msg).toNat := by
    simpa using h.1
  obtain ⟨hsize, hpayload⟩ := payload_copied hnew hlength.symm (hlength.trans_lt h.2)
  exact ⟨hpayload, hsize, key_eq_of_payload hpayload⟩

def untouched (rest : List (UInt64 × T)) : List Frame :=
  rest.flatMap fun arrival => routed none arrival.1 arrival.2

/-- The frames that are left belong to the arrivals that are left; in the middle of an iteration
the first of these is the one being received. -/
def Pc.Aligned (pc : Pc T) (frames : List Frame) (rest : List (UInt64 × T)) : Prop :=
  match pc with
  | .loop | .recvSource => frames = untouched rest
  | .recvSize source | .sizeFailed source => ∃ msg waiting, rest = (source, msg) :: waiting ∧
      frames = sendMsg none msg ++ untouched waiting
  | .recvPayload source capacity buffer | .payloadFailed source capacity buffer =>
      ∃ msg waiting, rest = (source, msg) :: waiting ∧ capacity = size msg ∧
        ofCapacity (size msg) = some buffer ∧
        frames = (constData msg).take (size msg).toNat :: untouched waiting
  | .enqueue source got => ∃ msg waiting, rest = (source, msg) :: waiting ∧ SameMessage msg got ∧
      frames = untouched waiting
  | .closed => True
  | _ => False

theorem Pc.Aligned.arrive {pc : Pc T} {frames : List Frame} {rest : List (UInt64 × T)}
    (h : pc.Aligned frames rest) (source : UInt64) (msg : T) :
    pc.Aligned (frames ++ routed none source msg) (rest ++ [(source, msg)]) := by
  have happend : ∀ waiting, untouched (waiting ++ [(source, msg)]) =
      untouched waiting ++ routed none source msg := by simp [untouched]
  cases pc with
  | loop => exact (congrArg (· ++ _) h).trans (happend rest).symm
  | recvSource => exact (congrArg (· ++ _) h).trans (happend rest).symm
  | recvSize src | sizeFailed src =>
    obtain ⟨m, waiting, rfl, rfl⟩ := h
    exact ⟨m, waiting ++ [(source, msg)], rfl, by simp [happend]⟩
  | recvPayload src capacity buffer | payloadFailed src capacity buffer =>
    obtain ⟨m, waiting, rfl, hcapacity, hbuffer, rfl⟩ := h
    exact ⟨m, waiting ++ [(source, msg)], rfl, hcapacity, hbuffer, by simp [happend]⟩
  | enqueue src got =>
    obtain ⟨m, waiting, rfl, hsame, rfl⟩ := h
    exact ⟨m, waiting ++ [(source, msg)], rfl, hsame, by simp [happend]⟩
  | closed => trivial
  | _ => exact h.elim

/-- Each message enqueued is the next arrival, on the queue its source is wired to. -/
def Enqueued (table : QueueTable) (taken : List (UInt64 × T)) (enqueued : List (ℕ × T)) : Prop :=
  List.Forall₂ (fun arrival entry =>
    table.queueOf arrival.1 = some entry.1 ∧ SameMessage arrival.2 entry.2) taken enqueued

/-- What was enqueued on the queue of a source is what that source sent. -/
theorem Enqueued.of_source {table : QueueTable} {taken : List (UInt64 × T)}
    {enqueued : List (ℕ × T)} (h : Enqueued table taken enqueued) (hw : table.Wired)
    {source : UInt64} {queue : ℕ} (hqueue : table.queueOf source = some queue) :
    List.Forall₂ SameMessage ((taken.filter fun arrival => arrival.1 = source).map Prod.snd)
      ((enqueued.filter fun entry => entry.1 = queue).map Prod.snd) := by
  rw [List.forall₂_map_left_iff, List.forall₂_map_right_iff]
  refine forall₂_filter h ?_ fun _ _ hentry _ => hentry.2
  -- an entry is on the queue of the source exactly when the source sent it
  rintro ⟨src, msg⟩ ⟨q, got⟩ ⟨hq, -⟩
  constructor
  · rintro rfl
    exact Option.some.inj (hq.symm.trans hqueue)
  · rintro rfl
    exact hw.distinct _ _ _ hq hqueue

/-- The invariant of a receive thread that was started on the queues of prepared sources. -/
structure Aligned (sources : List UInt64) (s : Receiver T) : Prop where
  wired : s.table.Wired
  kept : ∀ source queue, (QueueTable.prepareSources {} sources).queueOf source = some queue →
    s.table.queueOf source = some queue
  sendable : ∀ arrival ∈ s.arrived, Sendable arrival.2
  split : ∃ taken rest, s.arrived = taken ++ rest ∧ s.pc.Aligned s.frames rest ∧
    Enqueued s.table taken s.enqueued

theorem aligned_prepared (sources : List UInt64) :
    Aligned sources (Receiver.prepared sources : Receiver T) where
  wired := QueueTable.wired_empty.prepareSources sources
  kept _ _ h := h
  sendable := by simp [Receiver.prepared]
  split := ⟨[], [], rfl, rfl, .nil⟩

omit [ReceivedMessage T] in
theorem recv_eq_some {s : Receiver T} {ok : Bool} {frame : Frame} {rest : List Frame} :
    s.recv ok = some (frame, rest) ↔ ok = true ∧ s.frames = frame :: rest := by
  unfold Receiver.recv
  split <;> simp_all

namespace Aligned
variable {sources : List UInt64} {s : Receiver T}

theorem of_moved (h : Aligned sources s) {pc : Pc T} {frames : List Frame}
    (hpc : ∀ rest, (∀ arrival ∈ rest, Sendable arrival.2) → s.pc.Aligned s.frames rest →
      pc.Aligned frames rest) : Aligned sources { s with pc := pc, frames := frames } where
  wired := h.wired
  kept := h.kept
  sendable := h.sendable
  split := by
    obtain ⟨taken, rest, harrived, haligned, henqueued⟩ := h.split
    refine ⟨taken, rest, harrived, hpc rest ?_ haligned, henqueued⟩
    exact fun arrival hmem => h.sendable arrival (harrived ▸ List.mem_append_right _ hmem)

theorem of_retried (h : Aligned sources s) {pc pc' : Pc T} (hpc : s.pc = pc)
    (hsame : ∀ rest, pc.Aligned s.frames rest → pc'.Aligned s.frames rest) :
    Aligned sources { s with pc := pc' } :=
  h.of_moved fun rest _ ha => hsame rest (hpc ▸ ha)

theorem variable_size (h : Aligned sources s) : (s.pc ≠ .undefined ∧ s.pc ≠ .terminated) ∧
    (∀ source size buffer, s.pc ≠ .recvFixed source size buffer) ∧
    (∀ source size buffer, s.pc ≠ .fixedFailed source size buffer) ∧
    ∀ source buffer, s.pc ≠ .enqueueFixed source buffer := by
  obtain ⟨taken, rest, -, ha, -⟩ := h.split
  refine ⟨⟨?_, ?_⟩, ?_, ?_, ?_⟩ <;> intros <;> intro hpc <;> rw [hpc] at ha <;> exact ha

theorem enqueue (h : Aligned sources s) {source : UInt64} {got : T}
    (hpc : s.pc = .enqueue source got) :
    Aligned sources ({ s with table := s.table.findOrInsert source }.enqueueMsg source got) := by
  have hwired := h.wired.findOrInsert source
  obtain ⟨queue, hqueue⟩ := hwired.exists_queueOf (QueueTable.mem_findOrInsert source)
  obtain ⟨taken, rest, harrived, haligned, henqueued⟩ := h.split
  rw [hpc] at haligned
  obtain ⟨msg, waiting, rfl, hsame, hframes⟩ := haligned
  simp only [Receiver.enqueueMsg, hqueue]
  refine
    { wired := hwired
      kept := fun src q hq => QueueTable.queueOf_findOrInsert (h.kept src q hq)
      sendable := h.sendable
      split := ⟨taken ++ [(source, msg)], waiting, by simp [harrived], hframes, ?_⟩ }
  have hold : Enqueued (s.table.findOrInsert source) taken s.enqueued :=
    henqueued.imp fun _ _ hentry => ⟨QueueTable.queueOf_findOrInsert hentry.1, hentry.2⟩
  exact List.rel_append hold (.cons ⟨hqueue, hsame⟩ .nil)

theorem thread (h : Aligned sources s) (ok : Bool) (indeterminate : UInt64) :
    Aligned sources (recvMessage none ok indeterminate s) := by
  unfold recvMessage
  split <;> rename_i hpc
  · split
    · exact h.of_retried hpc fun _ ha => ha
    · exact h.of_retried hpc fun _ _ => trivial
  · split <;> rename_i hr
    · exact h.of_retried hpc fun _ ha => ha
    · rename_i frame frames
      obtain ⟨-, hframes⟩ := recv_eq_some.mp hr
      apply h.of_moved
      intro rest _ ha
      rw [hpc, hframes] at ha
      -- the first frame is the routing id of the first arrival that is left
      cases rest with
      | nil => cases ha
      | cons arrival waiting =>
        obtain ⟨src, msg⟩ := arrival
        simp only [Pc.Aligned, untouched, List.flatMap_cons, routed, List.cons_append,
          List.cons.injEq] at ha
        rw [ha.1, overwrite_image]
        exact ⟨msg, waiting, rfl, ha.2⟩
  · rename_i source
    split <;> rename_i hr
    · exact h.of_retried hpc fun _ ha => ha
    · rename_i frame frames
      obtain ⟨-, hframes⟩ := recv_eq_some.mp hr
      have hsize : ∀ rest, (∀ arrival ∈ rest, Sendable arrival.2) → s.pc.Aligned s.frames rest →
          ∃ msg waiting, rest = (source, msg) :: waiting ∧ overwrite 0 frame = size msg ∧
            (ofCapacity (size msg) : Option T).isSome = true ∧
            frames = (constData msg).take (size msg).toNat :: untouched waiting := by
        intro rest hsendable ha
        rw [hpc, hframes] at ha
        obtain ⟨msg, waiting, rfl, hsend⟩ := ha
        simp only [sendMsg, List.cons_append, List.nil_append, List.cons.injEq] at hsend
        exact ⟨msg, waiting, rfl, by rw [hsend.1, overwrite_image],
          ReceivedMessage.ofCapacity_isSome _ (hsendable _ List.mem_cons_self).2, hsend.2⟩
      dsimp only
      split <;> rename_i hnew <;> apply h.of_moved <;> intro rest hsendable ha <;>
        obtain ⟨msg, waiting, rfl, hmsg, halloc, hrest⟩ := hsize rest hsendable ha <;>
        rw [hmsg] at hnew
      · exact ⟨msg, waiting, rfl, hmsg, hnew, hrest⟩
      · simp [hnew] at halloc
  · split
    · exact h.of_retried hpc fun _ ha => ha
    · exact h.of_retried hpc fun _ _ => trivial
  · rename_i source capacity buffer
    split <;> rename_i hr
    · exact h.of_retried hpc fun _ ha => ha
    · rename_i frame frames
      obtain ⟨-, hframes⟩ := recv_eq_some.mp hr
      apply h.of_moved
      intro rest hsendable ha
      rw [hpc, hframes] at ha
      obtain ⟨msg, waiting, rfl, rfl, hnew, hpayload⟩ := ha
      simp only [List.cons.injEq] at hpayload
      rw [hpayload.1]
      exact ⟨msg, waiting, rfl, sameMessage_copied (hsendable (source, msg) (by simp)) hnew,
        hpayload.2⟩
  · split
    · exact h.of_retried hpc fun _ ha => ha
    · exact h.of_retried hpc fun _ _ => trivial
  · exact h.enqueue hpc
  · exact absurd hpc (h.variable_size.2.1 _ _ _)
  · exact absurd hpc (h.variable_size.2.2.1 _ _ _)
  · exact absurd hpc (h.variable_size.2.2.2 _ _)
  · exact h
  · exact h
  · exact h

theorem step (h : Aligned sources s) {a : Label T} {t : Receiver T}
    (hs : receiverNext none s a = some t) : Aligned sources t := by
  cases a with
  | arrive source msg =>
    simp only [receiverNext, Option.ite_none_right_eq_some, Option.some.injEq] at hs
    obtain ⟨hsendable, rfl⟩ := hs
    obtain ⟨taken, rest, harrived, haligned, henqueued⟩ := h.split
    refine
      { wired := h.wired
        kept := h.kept
        sendable := forall_mem_concat h.sendable hsendable
        split := ⟨taken, rest ++ [(source, msg)], by simp [harrived], haligned.arrive source msg,
          henqueued⟩ }
  | thread ok indeterminate =>
    cases hs
    exact h.thread ok indeterminate
  | stop =>
    cases hs
    exact ⟨h.wired, h.kept, h.sendable, h.split⟩

end Aligned

theorem aligned_reachable {sources : List UInt64} {s : Receiver T}
    (h : Reachable (receiverNext none) (Receiver.prepared sources) s) : Aligned sources s :=
  h.invariant (aligned_prepared sources) fun _ _ _ hu hv => hu.step hv

/-- The law of the wire: a prefix of the arrivals has been enqueued, on each queue the messages of
its source in order and as they were sent; a prepared source still has the queue it was given. -/
structure RoundTrip (sources : List UInt64) (s : Receiver T) : Prop where
  defined : s.pc ≠ .undefined ∧ s.pc ≠ .terminated
  prepared : ∀ source ∈ sources, ∃ queue,
    (QueueTable.prepareSources {} sources).queueOf source = some queue ∧
      s.table.queueOf source = some queue
  separate : ∀ a b queue, s.table.queueOf a = some queue → s.table.queueOf b = some queue → a = b
  taken : ∃ taken rest, s.arrived = taken ++ rest ∧
    (s.pc = .loop → s.frames = untouched rest) ∧
    ∀ source queue, s.table.queueOf source = some queue →
      List.Forall₂ SameMessage ((taken.filter fun arrival => arrival.1 = source).map Prod.snd)
        ((s.enqueued.filter fun entry => entry.1 = queue).map Prod.snd)

theorem wire_round_trip {sources : List UInt64} {s : Receiver T}
    (h : Reachable (receiverNext none) (Receiver.prepared sources) s) : RoundTrip sources s := by
  have ha := aligned_reachable h
  obtain ⟨taken, rest, harrived, haligned, henqueued⟩ := ha.split
  refine ⟨ha.variable_size.1, ?_, ha.wired.distinct, taken, rest, harrived, ?_, ?_⟩
  · intro source hmem
    obtain ⟨queue, hqueue⟩ := (QueueTable.wired_empty.prepareSources sources).exists_queueOf
      (QueueTable.mem_prepareSources (.inl hmem))
    exact ⟨queue, hqueue, ha.kept source queue hqueue⟩
  · intro hpc
    rwa [hpc] at haligned
  · exact fun source queue => henqueued.of_source ha.wired

/-- Two messages of a prepared source, the second of which is cut off by `stop()`, and one of an
unknown source in between; receives fail before and within a message. -/
private def interrupted : List (Label ByteMessage) :=
  [.thread true 0, .thread false 0, .arrive 5 (.ofBytes [1, 0, 0, 0, 0, 0, 0, 0, 104]),
    .arrive 6 (.ofBytes [2, 0, 0, 0, 0, 0, 0, 0]), .arrive 5 (.ofBytes [3, 0, 0, 0, 0, 0, 0, 0]),
    .thread true 9, .thread true 9, .thread false 9] ++ List.replicate 11 (.thread true 9) ++
    [.stop, .thread false 9, .thread true 9]

theorem wire_round_trip_example :
    ∃ s, run (receiverNext none) (Receiver.prepared [5]) interrupted = some s ∧
      s.enqueued = [(0, .ofBytes [1, 0, 0, 0, 0, 0, 0, 0, 104]),
        (1, .ofBytes [2, 0, 0, 0, 0, 0, 0, 0])] ∧ RoundTrip [5] s := by
  have hrun : (run (receiverNext none) (Receiver.prepared [5]) interrupted).map
      (fun s => s.enqueued) = some [(0, .ofBytes [1, 0, 0, 0, 0, 0, 0, 0, 104]),
        (1, .ofBytes [2, 0, 0, 0, 0, 0, 0, 0])] := by decide +kernel
  obtain ⟨s, hs, heq⟩ := Option.map_eq_some_iff.mp hrun
  exact ⟨s, hs, heq, wire_round_trip ⟨_, hs⟩⟩

end MessagePass.ReceiveLoop
