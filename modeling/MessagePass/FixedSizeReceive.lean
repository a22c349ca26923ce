import MessagePass.WireRoundTrip

/-!
# Receiving in fixed-size mode

The loop for a fixed size is a second receive loop of its own. It never sets the size of a message,
so a message keeps the size 0 that its constructor gave it, and it looks a source up with
`operator[]`, so a source without a queue makes it follow a null pointer.
-/
namespace MessagePass.ReceiveLoop
open DataMessages ReceiveQueues LittleEndian LabelledRuns RelatedLists

/-- The capacity constructor starts with size 0, and copying bytes to `data()` leaves the size. -/
class SizedMessage (T : Type) extends ReceivedMessage T where
  size_ofCapacity : ∀ c m, ofCapacity c = some m → size m = 0
  size_copyIn : ∀ m bs, size (copyIn m bs) = size m

instance : SizedMessage ByteMessage where
  size_ofCapacity c m h := by
    simp only [ofCapacity, Option.ite_none_right_eq_some, Option.some.injEq] at h
    obtain ⟨-, rfl⟩ := h
    rfl
  size_copyIn _ _ := rfl

variable {T : Type}

section Machine
variable [ReceivedMessage T]

def transmitNext (fixed : Option UInt64) (s : Receiver T) : Label T → Option (Receiver T)
  | .arrive source msg => some { s with
      frames := s.frames ++ routed fixed source msg
      arrived := s.arrived ++ [(source, msg)] }
  | a => receiverNext fixed s a

def Finished (s : Receiver T) : Prop := s.pc = .loop ∧ s.frames = []

instance [DecidableEq T] (s : Receiver T) : Decidable (Finished s) :=
  inferInstanceAs (Decidable (_ ∧ _))

def Receiver.contentsOf (s : Receiver T) (source : UInt64) : List T :=
  match s.table.queueOf source with
  | some queue => (s.enqueued.filter fun entry => entry.1 = queue).map Prod.snd
  | none => []

/-- Fixed mode fails on no part of the arrivals, and when both modes are through with them the
same messages are on the queue of every source. -/
structure Agrees (fixedSize : UInt64) (sources : List UInt64) (arrivals : List (UInt64 × T)) :
    Prop where
  defined : ∀ s : Receiver T,
    Reachable (transmitNext (some fixedSize)) (Receiver.prepared sources) s →
      s.arrived <+: arrivals → s.pc ≠ .undefined ∧ s.pc ≠ .terminated
  same : ∀ s t : Receiver T,
    Reachable (transmitNext (some fixedSize)) (Receiver.prepared sources) s →
    Reachable (transmitNext none) (Receiver.prepared sources) t →
    s.arrived = arrivals → t.arrived = arrivals → Finished s → Finished t →
      ∀ source, List.Forall₂ SameMessage (t.contentsOf source) (s.contentsOf source)

def routedFrames (fixed : Option UInt64) (rest : List (UInt64 × T)) : List Frame :=
  rest.flatMap fun arrival => routed fixed arrival.1 arrival.2

theorem eq_nil_of_routedFrames {fixed : Option UInt64} {rest : List (UInt64 × T)}
    (h : routedFrames fixed rest = []) : rest = [] := by
  cases rest with
  | nil => rfl
  | cons arrival rest => simp [routedFrames, routed] at h

theorem arrived_recvMessage (fixed : Option UInt64) (ok : Bool) (indeterminate : UInt64)
    (s : Receiver T) : (recvMessage fixed ok indeterminate s).arrived = s.arrived := by
  have henqueue : ∀ (u : Receiver T) source msg, (u.enqueueMsg source msg).arrived = u.arrived := by
    intro u source msg
    unfold Receiver.enqueueMsg
    split <;> rfl
  unfold recvMessage
  repeat' split
  all_goals first | rfl | exact henqueue .. | (dsimp only; split <;> rfl)

theorem reachable_of_sendable {fixed : Option UInt64} {s t : Receiver T}
    (h : Reachable (transmitNext fixed) s t)
    (hsendable : ∀ arrival ∈ t.arrived, Sendable arrival.2) :
    Reachable (receiverNext fixed) s t := by
  refine h.invariant (I := fun t => (∀ arrival ∈ t.arrived, Sendable arrival.2) →
    Reachable (receiverNext fixed) s t) (fun _ => .refl s) ?_ hsendable
  intro u a v hu hv hmem
  cases a with
  | arrive source msg =>
    cases hv
    have hmsg : Sendable msg := hmem (source, msg) (by simp)
    refine (hu fun arrival h => hmem arrival (List.mem_append_left _ h)).tail
      (a := .arrive source msg) ?_
    rw [receiverNext, if_pos hmsg]
  | thread ok indeterminate =>
    cases hv
    rw [arrived_recvMessage] at hmem
    exact (hu hmem).tail (a := .thread ok indeterminate) rfl
  | stop =>
    cases hv
    exact (hu hmem).tail (a := .stop) rfl

theorem arrive_all (fixed : Option UInt64) (arrivals : List (UInt64 × T)) (s : Receiver T) :
    Reachable (transmitNext fixed) s { s with
      frames := s.frames ++ routedFrames fixed arrivals
      arrived := s.arrived ++ arrivals } := by
  induction arrivals generalizing s with
  | nil => simpa [routedFrames] using Reachable.refl s
  | cons arrival arrivals ih =>
    obtain ⟨source, msg⟩ := arrival
    have hfirst : Reachable (transmitNext fixed) s { s with
        frames := s.frames ++ routed fixed source msg
        arrived := s.arrived ++ [(source, msg)] } :=
      (Reachable.refl s).tail (a := .arrive source msg) rfl
    simpa [routedFrames, List.append_assoc] using hfirst.trans (ih _)

theorem variable_iteration {s : Receiver T} (hpc : s.pc = .loop) (hrunning : s.running = true)
    {source : UInt64} {msg : T} {rest : List Frame}
    (hframes : s.frames = routed none source msg ++ rest) {queue : ℕ}
    (hqueue : (s.table.findOrInsert source).queueOf source = some queue)
    (halloc : (ofCapacity (size msg) : Option T).isSome = true) :
    ∃ got, size got = received ((constData msg).take (size msg).toNat) ∧
      Reachable (transmitNext none) s { s with
        frames := rest
        table := s.table.findOrInsert source
        enqueued := s.enqueued ++ [(queue, got)] } := by
  obtain ⟨buffer, hnew⟩ := Option.isSome_iff_exists.mp halloc
  refine ⟨_, ReceivedMessage.size_setSize (copyIn buffer
    (((constData msg).take (size msg).toNat).take (size msg).toNat)) _, ?_⟩
  refine ⟨List.replicate 5 (.thread true 0), ?_⟩
  simp [List.replicate, transmitNext, receiverNext, recvMessage, hpc, hrunning, Receiver.recv,
    hframes, routed, sendMsg, overwrite_image, Receiver.enqueueMsg, hqueue, hnew]

theorem fixed_iteration {fixedSize : UInt64} {s : Receiver T} (hpc : s.pc = .loop)
    (hrunning : s.running = true) {source : UInt64} {msg buffer : T} {rest : List Frame}
    (hframes : s.frames = routed (some fixedSize) source msg ++ rest)
    (hnew : ofCapacity fixedSize = some buffer) :
    Reachable (transmitNext (some fixedSize)) s ({ s with frames := rest }.enqueueMsg source
      (copyIn buffer (((constData msg).take fixedSize.toNat).take fixedSize.toNat))) := by
  refine ⟨List.replicate 4 (.thread true 0), ?_⟩
  simp [List.replicate, transmitNext, receiverNext, recvMessage, hpc, hrunning, Receiver.recv,
    hframes, routed, sendMsg, overwrite_image, Receiver.enqueueMsg, hnew]

theorem fixed_terminates {fixedSize : UInt64} {s : Receiver T} (hpc : s.pc = .loop)
    (hrunning : s.running = true) {source : UInt64} {msg : T} {rest : List Frame}
    (hframes : s.frames = routed (some fixedSize) source msg ++ rest)
    (hnew : (ofCapacity fixedSize : Option T) = none) :
    ∃ t, Reachable (transmitNext (some fixedSize)) s t ∧ t.arrived = s.arrived ∧
      t.pc = .terminated := by
  refine ⟨{ s with frames := (constData msg).take fixedSize.toNat :: rest, pc := .terminated },
    ⟨List.replicate 2 (.thread true 0), ?_⟩, rfl, rfl⟩
  simp [List.replicate, transmitNext, receiverNext, recvMessage, hpc, hrunning, Receiver.recv,
    hframes, routed, sendMsg, hnew]

theorem variable_drains (rest : List (UInt64 × T)) {s : Receiver T} (hw : s.table.Wired)
    (hpc : s.pc = .loop) (hrunning : s.running = true)
    (hframes : s.frames = routedFrames none rest)
    (halloc : ∀ arrival ∈ rest, (ofCapacity (size arrival.2) : Option T).isSome = true) :
    ∃ t, Reachable (transmitNext none) s t ∧ t.arrived = s.arrived ∧ Finished t ∧
      (∀ source queue, s.table.queueOf source = some queue →
        t.table.queueOf source = some queue) ∧
      (∀ entry ∈ s.enqueued, entry ∈ t.enqueued) ∧
      ∀ arrival ∈ rest, ∃ got ∈ t.contentsOf arrival.1,
        size got = received ((constData arrival.2).take (size arrival.2).toNat) := by
  induction rest generalizing s with
  | nil =>
    exact ⟨s, .refl s, rfl, ⟨hpc, hframes⟩, fun _ _ h => h, fun _ h => h, by simp⟩
  | cons arrival rest ih =>
    obtain ⟨source, msg⟩ := arrival
    obtain ⟨queue, hqueue⟩ := (hw.findOrInsert source).exists_queueOf
      (QueueTable.mem_findOrInsert source)
    have hnext : s.frames = routed none source msg ++ routedFrames none rest := hframes
    obtain ⟨got, hsize, hfirst⟩ := variable_iteration hpc hrunning hnext hqueue
      (halloc _ List.mem_cons_self)
    obtain ⟨t, ht, harrived, hfinished, hkept, henqueued, hrest⟩ := ih (s := { s with
        frames := routedFrames none rest
        table := s.table.findOrInsert source
        enqueued := s.enqueued ++ [(queue, got)] }) (hw.findOrInsert source) hpc hrunning rfl
      fun arrival hmem => halloc arrival (List.mem_cons_of_mem _ hmem)
    refine ⟨t, hfirst.trans ht, harrived, hfinished, ?_, ?_, ?_⟩
    · exact fun src q hq => hkept src q (QueueTable.queueOf_findOrInsert hq)
    · exact fun entry hmem => henqueued entry (List.mem_append_left _ hmem)
    · intro arrival hmem
      rcases List.mem_cons.mp hmem with rfl | hmem
      · refine ⟨got, ?_, hsize⟩
        have hmem := henqueued (queue, got) (by simp)
        simp only [Receiver.contentsOf, hkept source queue hqueue]
        exact List.mem_map.mpr ⟨_, List.mem_filter.mpr ⟨hmem, by simp⟩, rfl⟩
      · exact hrest arrival hmem

/-- In fixed-size mode the thread can get through with what has arrived, or it follows a null
pointer because a source has no queue, or the process ends. -/
theorem fixed_drains {fixedSize : UInt64} (rest : List (UInt64 × T)) {s : Receiver T}
    (hpc : s.pc = .loop) (hrunning : s.running = true)
    (hframes : s.frames = routedFrames (some fixedSize) rest) :
    ∃ t, Reachable (transmitNext (some fixedSize)) s t ∧ t.arrived = s.arrived ∧
      ((t.pc = .undefined ∨ t.pc = .terminated) ∨
        Finished t ∧ ∀ arrival ∈ rest, s.table.queueOf arrival.1 ≠ none ∧
          (ofCapacity fixedSize : Option T).isSome = true) := by
  induction rest generalizing s with
  | nil => exact ⟨s, .refl s, rfl, .inr ⟨⟨hpc, hframes⟩, by simp⟩⟩
  | cons arrival rest ih =>
    obtain ⟨source, msg⟩ := arrival
    have hnext : s.frames =
      routed (some fixedSize) source msg ++ routedFrames (some fixedSize) rest := hframes
    cases hnew : (ofCapacity fixedSize : Option T) with
    | none =>
      obtain ⟨t, ht, harrived, hend⟩ := fixed_terminates hpc hrunning hnext hnew
      exact ⟨t, ht, harrived, .inl (.inr hend)⟩
    | some buffer =>
      have hfirst := fixed_iteration hpc hrunning hnext hnew
      cases hqueue : s.table.queueOf source with
      | none =>
        simp only [Receiver.enqueueMsg, hqueue] at hfirst
        exact ⟨_, hfirst, rfl, .inl (.inl rfl)⟩
      | some queue =>
        simp only [Receiver.enqueueMsg, hqueue] at hfirst
        obtain ⟨t, ht, harrived, hend⟩ := ih (s := { s with
            pc := .loop
            frames := routedFrames (some fixedSize) rest
            enqueued := s.enqueued ++ [(queue, copyIn buffer
              (((constData msg).take fixedSize.toNat).take fixedSize.toNat))] }) rfl hrunning rfl
        refine ⟨t, hfirst.trans ht, harrived, hend.imp_right ?_⟩
        rintro ⟨hfinished, hqueues⟩
        refine ⟨hfinished, fun arrival hmem => ?_⟩
        rcases List.mem_cons.mp hmem with rfl | hmem
        · simp [hqueue]
        · exact ⟨(hqueues arrival hmem).1, rfl⟩

end Machine

section FixedSize
variable [SizedMessage T]

/-- The loop for a fixed size in step with the arrivals: no message has got a size. -/
def Pc.InStep (fixedSize : UInt64) (pc : Pc T) (frames : List Frame)
    (rest : List (UInt64 × T)) : Prop :=
  match pc with
  | .loop | .recvSource => frames = routedFrames (some fixedSize) rest
  | .recvFixed source _ buffer | .fixedFailed source _ buffer => ∃ msg waiting,
      rest = (source, msg) :: waiting ∧ size buffer = 0 ∧
        frames = (constData msg).take fixedSize.toNat :: routedFrames (some fixedSize) waiting
  | .enqueueFixed source got => ∃ msg waiting, rest = (source, msg) :: waiting ∧ size got = 0 ∧
      frames = routedFrames (some fixedSize) waiting
  | .closed => True
  | _ => False

structure FixedAligned (fixedSize : UInt64) (sources : List UInt64) (s : Receiver T) : Prop where
  table : s.table = QueueTable.prepareSources {} sources
  split : ∃ taken rest, s.arrived = taken ++ rest ∧ s.pc.InStep fixedSize s.frames rest ∧
    List.Forall₂ (fun arrival entry => s.table.queueOf arrival.1 = some entry.1 ∧
      size entry.2 = 0) taken s.enqueued

namespace FixedAligned
variable {fixedSize : UInt64} {sources : List UInt64} {s : Receiver T}

theorem of_moved (h : FixedAligned fixedSize sources s) {pc : Pc T} {frames : List Frame}
    (hpc : ∀ rest, s.pc.InStep fixedSize s.frames rest → pc.InStep fixedSize frames rest) :
    FixedAligned fixedSize sources { s with pc := pc, frames := frames } := by
  obtain ⟨taken, rest, harrived, hpcs, henqueued⟩ := h.split
  exact ⟨h.table, taken, rest, harrived, hpc rest hpcs, henqueued⟩

theorem of_retried (h : FixedAligned fixedSize sources s) {pc pc' : Pc T} (hpc : s.pc = pc)
    (hsame : ∀ rest, pc.InStep fixedSize s.frames rest → pc'.InStep fixedSize s.frames rest) :
    FixedAligned fixedSize sources { s with pc := pc' } :=
  h.of_moved fun rest ha => hsame rest (hpc ▸ ha)

theorem fixed_size (h : FixedAligned fixedSize sources s) :
    (s.pc ≠ .undefined ∧ s.pc ≠ .terminated) ∧
    (∀ source, s.pc ≠ .recvSize source) ∧ (∀ source, s.pc ≠ .sizeFailed source) ∧
    (∀ source size buffer, s.pc ≠ .recvPayload source size buffer) ∧
    (∀ source size buffer, s.pc ≠ .payloadFailed source size buffer) ∧
    ∀ source buffer, s.pc ≠ .enqueue source buffer := by
  obtain ⟨taken, rest, -, ha, -⟩ := h.split
  refine ⟨⟨?_, ?_⟩, ?_, ?_, ?_, ?_, ?_⟩ <;> intros <;> intro hpc <;> rw [hpc] at ha <;> exact ha

theorem enqueue (h : FixedAligned fixedSize sources s)
    (hprepared : ∀ arrival ∈ s.arrived, arrival.1 ∈ sources) {source : UInt64} {got : T}
    (hpc : s.pc = .enqueueFixed source got) :
    FixedAligned fixedSize sources (s.enqueueMsg source got) := by
  obtain ⟨taken, rest, harrived, hpcs, henqueued⟩ := h.split
  rw [hpc] at hpcs
  obtain ⟨msg, waiting, rfl, hsize, hframes⟩ := hpcs
  have hmem : source ∈ sources := hprepared (source, msg) (by simp [harrived])
  obtain ⟨queue, -, hqueue⟩ := QueueTable.queueOf_prepareSources_of_mem (t := {}) hmem
  rw [← h.table] at hqueue
  simp only [Receiver.enqueueMsg, hqueue]
  exact ⟨h.table, taken ++ [(source, msg)], waiting, by simp [harrived], hframes,
    List.rel_append henqueued (.cons ⟨hqueue, hsize⟩ .nil)⟩

theorem thread (h : FixedAligned fixedSize sources s)
    (hprepared : ∀ arrival ∈ s.arrived, arrival.1 ∈ sources)
    (halloc : s.arrived ≠ [] → (ofCapacity fixedSize : Option T).isSome = true) (ok : Bool)
    (indeterminate : UInt64) :
    FixedAligned fixedSize sources (recvMessage (some fixedSize) ok indeterminate s) := by
  unfold recvMessage
  split <;> rename_i hpc
  · split
    · exact h.of_retried hpc fun _ ha => ha
    · exact h.of_retried hpc fun _ _ => trivial
  · split <;> rename_i hr
    · exact h.of_retried hpc fun _ ha => ha
    · rename_i frame frames
      obtain ⟨-, hframes⟩ := recv_eq_some.mp hr
      -- the first frame is the routing id of the first arrival that is left
      have hsource : ∀ rest, s.pc.InStep fixedSize s.frames rest → ∃ src msg waiting,
          rest = (src, msg) :: waiting ∧ overwrite indeterminate frame = src ∧
            frames = (constData msg).take fixedSize.toNat ::
              routedFrames (some fixedSize) waiting := by
        intro rest ha
        rw [hpc, hframes] at ha
        cases rest with
        | nil => cases ha
        | cons arrival waiting =>
          obtain ⟨src, msg⟩ := arrival
          simp only [Pc.InStep, routedFrames, List.flatMap_cons, routed, sendMsg,
            List.cons_append, List.nil_append, List.cons.injEq] at ha
          exact ⟨src, msg, waiting, rfl, by rw [ha.1, overwrite_image], ha.2⟩
      dsimp only
      split <;> rename_i hnew
      · apply h.of_moved
        intro rest ha
        obtain ⟨src, msg, waiting, rfl, rfl, hrest⟩ := hsource rest ha
        exact ⟨msg, waiting, rfl, SizedMessage.size_ofCapacity _ _ hnew, hrest⟩
      · obtain ⟨taken, rest, harrived, ha, -⟩ := h.split
        obtain ⟨src, msg, waiting, rfl, -, -⟩ := hsource rest ha
        have hsome := halloc (by simp [harrived])
        simp [hnew] at hsome
  · exact absurd hpc (h.fixed_size.2.1 _)
  · exact absurd hpc (h.fixed_size.2.2.1 _)
  · exact absurd hpc (h.fixed_size.2.2.2.1 _ _ _)
  · exact absurd hpc (h.fixed_size.2.2.2.2.1 _ _ _)
  · exact absurd hpc (h.fixed_size.2.2.2.2.2 _ _)
  · split <;> rename_i hr
    · exact h.of_retried hpc fun _ ha => ha
    · rename_i frame frames
      obtain ⟨-, hframes⟩ := recv_eq_some.mp hr
      apply h.of_moved
      intro rest ha
      rw [hpc, hframes] at ha
      obtain ⟨msg, waiting, rfl, hsize, hdata⟩ := ha
      exact ⟨msg, waiting, rfl, (SizedMessage.size_copyIn _ _).trans hsize, (List.cons.inj hdata).2⟩
  · split
    · exact h.of_retried hpc fun _ ha => ha
    · exact h.of_retried hpc fun _ _ => trivial
  · exact h.enqueue hprepared hpc
  · exact h
  · exact h
  · exact h

theorem arrive (h : FixedAligned fixedSize sources s) (source : UInt64) (msg : T) :
    FixedAligned fixedSize sources { s with
      frames := s.frames ++ routed (some fixedSize) source msg
      arrived := s.arrived ++ [(source, msg)] } := by
  have happend : ∀ waiting, routedFrames (some fixedSize) (waiting ++ [(source, msg)]) =
      routedFrames (some fixedSize) waiting ++ routed (some fixedSize) source msg := by
    simp [routedFrames]
  obtain ⟨taken, rest, harrived, hpcs, henqueued⟩ := h.split
  refine ⟨h.table, taken, rest ++ [(source, msg)], by simp [harrived], ?_, henqueued⟩
  cases hpc : s.pc with
  | loop | recvSource =>
    rw [hpc] at hpcs
    exact (congrArg (· ++ _) hpcs).trans (happend rest).symm
  | recvFixed src capacity buffer | fixedFailed src capacity buffer =>
    rw [hpc] at hpcs
    obtain ⟨m, waiting, rfl, hsize, hframes⟩ := hpcs
    exact ⟨m, waiting ++ [(source, msg)], rfl, hsize, by simp [happend, hframes]⟩
  | enqueueFixed src got =>
    rw [hpc] at hpcs
    obtain ⟨m, waiting, rfl, hsize, hframes⟩ := hpcs
    exact ⟨m, waiting ++ [(source, msg)], rfl, hsize, by simp [happend, hframes]⟩
  | closed => trivial
  | _ => rw [hpc] at hpcs; exact hpcs.elim

end FixedAligned

theorem fixedAligned_reachable {fixedSize : UInt64} {sources : List UInt64} {s : Receiver T}
    (h : Reachable (transmitNext (some fixedSize)) (Receiver.prepared sources) s)
    (hprepared : ∀ arrival ∈ s.arrived, arrival.1 ∈ sources)
    (halloc : s.arrived ≠ [] → (ofCapacity fixedSize : Option T).isSome = true) :
    FixedAligned fixedSize sources s := by
  refine h.invariant (I := fun s => (∀ arrival ∈ s.arrived, arrival.1 ∈ sources) →
    (s.arrived ≠ [] → (ofCapacity fixedSize : Option T).isSome = true) →
      FixedAligned fixedSize sources s) (fun _ _ => ⟨rfl, [], [], rfl, rfl, .nil⟩) ?_ hprepared
    halloc
  intro u a v hu hv hmem hnew
  cases a with
  | arrive source msg =>
    cases hv
    exact (hu (fun arrival h => hmem arrival (List.mem_append_left _ h))
      fun _ => hnew (by simp)).arrive source msg
  | thread ok indeterminate =>
    cases hv
    rw [arrived_recvMessage] at hmem hnew
    exact (hu hmem hnew).thread hmem hnew ok indeterminate
  | stop =>
    cases hv
    obtain ⟨htable, hsplit⟩ := hu hmem hnew
    exact ⟨htable, hsplit⟩

theorem Enqueued.contentsOf {s : Receiver T} {arrivals : List (UInt64 × T)}
    (h : Enqueued s.table arrivals s.enqueued) (hw : s.table.Wired) (source : UInt64) :
    List.Forall₂ SameMessage ((arrivals.filter fun arrival => arrival.1 = source).map Prod.snd)
      (s.contentsOf source) := by
  unfold Receiver.contentsOf
  split <;> rename_i hqueue
  · exact h.of_source hw hqueue
  · have hnone : ∀ arrival ∈ arrivals, arrival.1 ≠ source := by
      rintro arrival hmem rfl
      obtain ⟨entry, -, hentry, -⟩ := exists_of_mem_left h hmem
      simp [hqueue] at hentry
    rw [List.filter_eq_nil_iff.mpr (by simpa using hnone)]
    exact .nil

theorem sameMessage_both {sent got got' : List T} (h : List.Forall₂ SameMessage sent got)
    (h' : List.Forall₂ SameMessage sent got') : List.Forall₂ SameMessage got got' := by
  apply forall₂_of_common h h'
  rintro a b c ⟨hpayload, hsize, hkey⟩ ⟨hpayload', hsize', hkey'⟩
  exact ⟨hpayload'.trans hpayload.symm, hsize'.trans hsize.symm, hkey'.trans hkey.symm⟩

theorem sameMessage_of_empty {sent got : T} (hsent : size sent = 0) (hgot : size got = 0) :
    SameMessage sent got := by
  have hpayload : payload got = payload sent := by simp [payload, hsent, hgot]
  exact ⟨hpayload, hgot.trans hsent.symm, key_eq_of_payload hpayload⟩

variable {fixedSize : UInt64} {sources : List UInt64} {arrivals : List (UInt64 × T)}

theorem agrees_of_empty (hempty : ∀ arrival ∈ arrivals, size arrival.2 = 0)
    (hprepared : ∀ arrival ∈ arrivals, arrival.1 ∈ sources)
    (halloc : arrivals ≠ [] → (ofCapacity fixedSize : Option T).isSome = true) :
    Agrees fixedSize sources arrivals := by
  refine ⟨fun s hs harrived => ?_, fun s t hs ht hsa hta hsf htf source => ?_⟩
  · refine (fixedAligned_reachable hs (fun arrival hmem =>
      hprepared arrival (harrived.subset hmem)) fun hne => halloc ?_).fixed_size.1
    rintro rfl
    exact hne (List.prefix_nil.mp harrived)
  · subst hsa
    have hfixed := fixedAligned_reachable hs hprepared halloc
    have hsendable : ∀ arrival ∈ t.arrived, Sendable arrival.2 := by
      intro arrival hmem
      have hsize := hempty arrival (hta ▸ hmem)
      simp [Sendable, hsize]
    have hvariable := aligned_reachable (reachable_of_sendable ht hsendable)
    have hsent : Enqueued s.table s.arrived s.enqueued := by
      obtain ⟨taken, rest, harrived, hpc, henqueued⟩ := hfixed.split
      rw [hsf.1, hsf.2] at hpc
      rw [eq_nil_of_routedFrames hpc.symm, List.append_nil] at harrived
      rw [← harrived] at henqueued
      apply ((List.forall₂_and_left _ _).mpr ⟨hempty, henqueued⟩).imp
      rintro arrival entry ⟨hsent, hqueue, hsize⟩
      exact ⟨hqueue, sameMessage_of_empty hsent hsize⟩
    have hgot : Enqueued t.table s.arrived t.enqueued := by
      obtain ⟨taken, rest, harrived, hpc, henqueued⟩ := hvariable.split
      rw [htf.1, htf.2] at hpc
      rw [eq_nil_of_routedFrames hpc.symm, List.append_nil, hta] at harrived
      rwa [harrived]
    have hwired : s.table.Wired := hfixed.table ▸ QueueTable.wired_empty.prepareSources sources
    exact sameMessage_both (hgot.contentsOf hvariable.wired source)
      (hsent.contentsOf hwired source)

theorem size_contentsOf {s : Receiver T} (h : FixedAligned fixedSize sources s) {source : UInt64}
    {got : T} (hgot : got ∈ s.contentsOf source) : size got = 0 := by
  obtain ⟨taken, rest, -, -, henqueued⟩ := h.split
  have hentry : ∃ queue, (queue, got) ∈ s.enqueued := by
    unfold Receiver.contentsOf at hgot
    split at hgot
    · obtain ⟨⟨queue, _⟩, hmem, rfl⟩ := List.mem_map.mp hgot
      exact ⟨queue, (List.mem_filter.mp hmem).1⟩
    · cases hgot
  obtain ⟨queue, hmem⟩ := hentry
  obtain ⟨_, -, -, hsize⟩ := exists_of_mem_left henqueued.flip hmem
  exact hsize

theorem exists_fixed_end (fixedSize : UInt64) (sources : List UInt64)
    (arrivals : List (UInt64 × T)) :
    ∃ s, Reachable (transmitNext (some fixedSize)) (Receiver.prepared sources) s ∧
      s.arrived = arrivals ∧
      ((s.pc = .undefined ∨ s.pc = .terminated) ∨
        Finished s ∧ ∀ arrival ∈ arrivals, arrival.1 ∈ sources ∧
          (ofCapacity fixedSize : Option T).isSome = true) := by
  have harrive := arrive_all (some fixedSize) arrivals (Receiver.prepared sources)
  obtain ⟨s, hs, harrived, hend⟩ := fixed_drains arrivals rfl rfl rfl (s := {
    (Receiver.prepared sources : Receiver T) with
      frames := routedFrames (some fixedSize) arrivals
      arrived := arrivals })
  refine ⟨s, harrive.trans hs, harrived, hend.imp_right ?_⟩
  rintro ⟨hfinished, hqueues⟩
  refine ⟨hfinished, fun arrival hmem => ⟨?_, (hqueues arrival hmem).2⟩⟩
  by_contra hnot
  apply (hqueues arrival hmem).1
  exact (QueueTable.queueOf_prepareSources_of_notMem hnot).trans (by simp [QueueTable.queueOf])

theorem exists_variable_end (sources : List UInt64) (arrivals : List (UInt64 × T))
    (halloc : ∀ arrival ∈ arrivals, (ofCapacity (size arrival.2) : Option T).isSome = true) :
    ∃ t, Reachable (transmitNext none) (Receiver.prepared sources) t ∧ t.arrived = arrivals ∧
      Finished t ∧ ∀ arrival ∈ arrivals, ∃ got ∈ t.contentsOf arrival.1,
        size got = received ((constData arrival.2).take (size arrival.2).toNat) := by
  have harrive := arrive_all none arrivals (Receiver.prepared sources)
  obtain ⟨t, ht, harrived, hfinished, -, -, hgot⟩ := variable_drains arrivals
    (QueueTable.wired_empty.prepareSources sources) rfl rfl rfl (s := {
      (Receiver.prepared sources : Receiver T) with
        frames := routedFrames none arrivals
        arrived := arrivals }) halloc
  exact ⟨t, harrive.trans ht, harrived, hfinished, hgot⟩

/-- The modes agree on messages of the fixed size exactly if there are none, or if they are empty
and every one comes from a prepared source. -/
theorem fixed_agrees_iff (hsize : ∀ arrival ∈ arrivals, size arrival.2 = fixedSize)
    (hreadable : ∀ arrival ∈ arrivals, (size arrival.2).toNat ≤ (constData arrival.2).length) :
    Agrees fixedSize sources arrivals ↔
      arrivals = [] ∨ fixedSize = 0 ∧ ∀ arrival ∈ arrivals, arrival.1 ∈ sources := by
  constructor
  · intro h
    obtain ⟨s, hs, hsa, hend⟩ := exists_fixed_end fixedSize sources arrivals
    have hdefined := h.defined s hs (by rw [hsa])
    obtain ⟨hsf, hserved⟩ := hend.resolve_left (not_or.mpr hdefined)
    have hprepared : ∀ arrival ∈ arrivals, arrival.1 ∈ sources :=
      fun arrival hmem => (hserved arrival hmem).1
    obtain ⟨t, ht, hta, htf, hgot⟩ := exists_variable_end sources arrivals
      fun arrival hmem => by rw [hsize arrival hmem]; exact (hserved arrival hmem).2
    refine or_iff_not_imp_left.mpr fun hne => ⟨?_, hprepared⟩
    obtain ⟨arrival, hmem⟩ := List.exists_mem_of_ne_nil arrivals hne
    obtain ⟨got, hcontents, hreceived⟩ := hgot arrival hmem
    obtain ⟨got', hcontents', hsame⟩ :=
      exists_of_mem_left (h.same s t hs ht hsa hta hsf htf arrival.1) hcontents
    have hzero := size_contentsOf (fixedAligned_reachable hs (hsa ▸ hprepared)
      fun _ => (hserved arrival hmem).2) hcontents'
    rw [hsame.2.1, hreceived] at hzero
    have hlength := (toNat_received _).symm.trans (congrArg UInt64.toNat hzero)
    rw [List.length_take, Nat.min_eq_left (hreadable arrival hmem), hsize arrival hmem] at hlength
    apply UInt64.toNat_inj.mp
    simp at hlength ⊢
    omega
  · rintro (rfl | ⟨rfl, hprepared⟩)
    · exact agrees_of_empty (by simp) (by simp) (by simp)
    · exact agrees_of_empty hsize hprepared
        fun _ => ReceivedMessage.ofCapacity_isSome 0 (by decide)

end FixedSize

theorem fixed_agrees_iff_example :
    Agrees 0 [5, 6] [(5, ByteMessage.ofBytes []), (6, .ofBytes []), (5, .ofBytes [])] :=
  (fixed_agrees_iff (by decide) (by decide)).mpr (.inr ⟨rfl, by decide⟩)

private def threeBytes : ByteMessage := .ofBytes [1, 2, 3]

/-- In fixed-size mode a message of three bytes is enqueued with size 0. -/
theorem fixed_size_is_lost : ¬ Agrees 3 [5] [(5, threeBytes)] := by
  intro h
  have hfixed : (run (transmitNext (some 3)) (Receiver.prepared [5])
      (.arrive 5 threeBytes :: List.replicate 4 (.thread true 0))).map
      (fun s => (decide (Finished s), s.arrived, s.contentsOf 5)) =
        some (true, [(5, threeBytes)], [⟨[1, 2, 3], 0⟩]) := by decide +kernel
  have hvariable : (run (transmitNext none) (Receiver.prepared [5])
      (.arrive 5 threeBytes :: List.replicate 5 (.thread true 0))).map
      (fun s => (decide (Finished s), s.arrived, s.contentsOf 5)) =
        some (true, [(5, threeBytes)], [threeBytes]) := by decide +kernel
  obtain ⟨s, hs, heq⟩ := Option.map_eq_some_iff.mp hfixed
  obtain ⟨t, ht, heq'⟩ := Option.map_eq_some_iff.mp hvariable
  simp only [Prod.mk.injEq, decide_eq_true_eq] at heq heq'
  have hsame := h.same s t ⟨_, hs⟩ ⟨_, ht⟩ heq.2.1 heq'.2.1 heq.1 heq'.1 5
  rw [heq.2.2, heq'.2.2, List.forall₂_cons] at hsame
  exact absurd hsame.1.2.1 (by decide)

end MessagePass.ReceiveLoop
