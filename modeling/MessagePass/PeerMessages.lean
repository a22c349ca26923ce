import MessagePass.WireRoundTrip

/-!
# Multipart messages of arbitrary peers

A `ROUTER` socket accepts whatever its peers send: any number of frames of any length, under a
routing id the peer chose. The receive loop for variable sizes takes frames in threes without
looking where a multipart message ends.
-/
namespace MessagePass.PeerMessages
open DataMessages ReceiveQueues LittleEndian LabelledRuns RelatedLists ReceiveLoop

/-- What a `ROUTER` socket delivers for one multipart message: the routing id of the peer and the
frames it sent. -/
structure Multipart where
  routingId : Frame
  parts : List Frame
  deriving DecidableEq

def Multipart.frames (m : Multipart) : List Frame := m.routingId :: m.parts

/-- A receive thread in variable-size mode. The logs keep the multipart messages that were
delivered to its socket and the frames that were received as payloads. -/
structure Ingress (T : Type) where
  receiver : Receiver T
  delivered : List Multipart := []
  payloads : List Frame := []

def Ingress.prepared {T : Type} (sources : List UInt64) : Ingress T :=
  { receiver := Receiver.prepared sources }

/-- Who moves: a peer, the receive thread, or `stop()`. -/
inductive IngressLabel where
  | deliver (m : Multipart)
  | thread (ok : Bool) (indeterminate : UInt64)
  | stop

variable {T : Type}

def payloadReceived (s : Receiver T) (ok : Bool) : Option Frame :=
  match s.pc with
  | .recvPayload _ _ _ => (s.recv ok).map Prod.fst
  | _ => none

variable [ReceivedMessage T]

def ingressNext (s : Ingress T) : IngressLabel → Option (Ingress T)
  | .deliver m => some { s with
      receiver.frames := s.receiver.frames ++ m.frames
      delivered := s.delivered ++ [m] }
  | .thread ok indeterminate => some { s with
      receiver := recvMessage none ok indeterminate s.receiver
      payloads := s.payloads ++ (payloadReceived s.receiver ok).toList }
  | .stop => some { s with receiver.running := false }

section Moves

def stage : Pc T → Pc T
  | .loop => .recvSource
  | .sizeFailed source => .recvSize source
  | .payloadFailed source size msg => .recvPayload source size msg
  | pc => pc

inductive Reception (s : Receiver T) : Option Frame → Receiver T → Prop
  | retry {pc : Pc T} (h : stage pc = stage s.pc) : Reception s none { s with pc := pc }
  | close (hpc : stage s.pc ≠ s.pc) : Reception s none { s with pc := .closed }
  | source {frame : Frame} {rest : List Frame} (indeterminate : UInt64) (hpc : s.pc = .recvSource)
      (hframes : s.frames = frame :: rest) :
      Reception s none { s with frames := rest, pc := .recvSize (overwrite indeterminate frame) }
  | size {source : UInt64} {frame : Frame} {rest : List Frame} {msg : T}
      (hpc : s.pc = .recvSize source) (hframes : s.frames = frame :: rest)
      (hnew : ofCapacity (overwrite 0 frame) = some msg) :
      Reception s none
        { s with frames := rest, pc := .recvPayload source (overwrite 0 frame) msg }
  | terminate {source : UInt64} {frame : Frame} {rest : List Frame} (hpc : s.pc = .recvSize source)
      (hframes : s.frames = frame :: rest)
      (hnew : (ofCapacity (overwrite 0 frame) : Option T) = none) :
      Reception s none { s with frames := rest, pc := .terminated }
  | payload {source size : UInt64} {msg : T} {frame : Frame} {rest : List Frame}
      (hpc : s.pc = .recvPayload source size msg) (hframes : s.frames = frame :: rest) :
      Reception s (some frame) { s with
        frames := rest
        pc := .enqueue source (setSize (copyIn msg (frame.take size.toNat)) (received frame)) }
  | enqueue {source : UInt64} {msg : T} (hpc : s.pc = .enqueue source msg) :
      Reception s none ({ s with table := s.table.findOrInsert source }.enqueueMsg source msg)

theorem reception {s : Receiver T} (hpc : VariableSize s.pc) (ok : Bool) (indeterminate : UInt64) :
    Reception s (payloadReceived s ok) (recvMessage none ok indeterminate s) := by
  unfold recvMessage
  split <;> rename_i hs <;> simp only [payloadReceived, hs]
  · split
    · exact .retry (by simp [hs, stage])
    · exact .close (by simp [hs, stage])
  · split <;> rename_i hr
    · exact .retry (by simp [hs, stage])
    · exact .source indeterminate hs (recv_eq_some.mp hr).2
  · split <;> rename_i hr
    · exact .retry (by simp [hs, stage])
    · split <;> rename_i hnew
      · exact .size hs (recv_eq_some.mp hr).2 hnew
      · exact .terminate hs (recv_eq_some.mp hr).2 hnew
  · split
    · exact .retry (by simp [hs, stage])
    · exact .close (by simp [hs, stage])
  · split <;> rename_i hr <;> rw [hr]
    · exact .retry (by simp [hs, stage])
    · exact .payload hs (recv_eq_some.mp hr).2
  · split
    · exact .retry (by simp [hs, stage])
    · exact .close (by simp [hs, stage])
  · exact .enqueue hs
  · exact (hs ▸ hpc : VariableSize (.recvFixed _ _ _ : Pc T)).elim
  · exact (hs ▸ hpc : VariableSize (.fixedFailed _ _ _ : Pc T)).elim
  · exact (hs ▸ hpc : VariableSize (.enqueueFixed _ _ : Pc T)).elim
  · exact .retry rfl
  · exact .retry rfl
  · exact .retry rfl

end Moves

def framesOf (rest : List Multipart) : List Frame := rest.flatMap Multipart.frames

/-- A receive of the routing id can give this source, with some earlier content of the variable. -/
def Announces (m : Multipart) (source : UInt64) : Prop := m.routingId.take 8 <+: image source

instance (m : Multipart) (source : UInt64) : Decidable (Announces m source) :=
  inferInstanceAs (Decidable (_ <+: _))

theorem announces_overwrite (m : Multipart) (indeterminate : UInt64) :
    Announces m (overwrite indeterminate m.routingId) := by
  have hlength : 8 ≤ (m.routingId ++ (image indeterminate).drop m.routingId.length).length := by
    simp only [List.length_append, List.length_drop, length_image]
    omega
  rw [Announces, overwrite, image_word hlength, List.take_append]
  exact List.prefix_append ..

theorem Announces.eq_image {m : Multipart} {source : UInt64} (h : Announces m source)
    (hlength : m.routingId.length = 8) : m.routingId = image source := by
  rw [Announces, List.take_of_length_le hlength.le] at h
  exact h.eq_of_length (hlength.trans (length_image source).symm)

/-- An eight-byte size frame and a payload of that size. -/
def WellFormed : List Frame → Prop
  | [sizeFrame, payloadFrame] =>
      sizeFrame.length = 8 ∧ (word sizeFrame).toNat = payloadFrame.length
  | _ => False

instance : DecidablePred WellFormed
  | [] => .isFalse id
  | [_] => .isFalse id
  | [_, _] => inferInstanceAs (Decidable (_ ∧ _))
  | _ :: _ :: _ :: _ => .isFalse id

/-- A message of the size that the first frame announces can be allocated. -/
def Allocated (T : Type) [ReceivedMessage T] (m : Multipart) : Prop :=
  ∀ sizeFrame ∈ m.parts.head?, (ofCapacity (overwrite 0 sizeFrame) : Option T).isSome = true

/-- A multipart message of two frames that is well formed and fits an `int`, or else cannot be
taken for one of the prepared sources and does not end the process. -/
def Harmless (T : Type) [ReceivedMessage T] (sources : List UInt64) (m : Multipart) : Prop :=
  m.parts.length = 2 ∧ ((m.routingId.length = 8 ∧ WellFormed m.parts ∧
    ∀ part ∈ m.parts, part.length < 2 ^ 31) ∨
      (∀ source ∈ sources, ¬ Announces m source) ∧ Allocated T m)

-- the sources of the list are tried, not every value of their type
instance (sources : List UInt64) (m : Multipart) : Decidable (Harmless T sources m) :=
  have : Decidable (∀ source ∈ sources, ¬ Announces m source) := List.decidableBAll _ _
  have : Decidable (Allocated T m) := inferInstanceAs (Decidable (∀ sizeFrame ∈ _, _))
  inferInstanceAs (Decidable (_ ∧ _))

theorem overwrite_of_length {frame : Frame} (h : frame.length = 8) (w : UInt64) :
    overwrite w frame = word frame := by
  rw [overwrite, word, List.take_append_of_le_length h.ge, ← word]

theorem Harmless.allocated {sources : List UInt64} {m : Multipart} (h : Harmless T sources m) :
    Allocated T m := by
  rcases h.2 with ⟨-, hformed, hfits⟩ | ⟨-, halloc⟩
  · obtain ⟨sizeFrame, payloadFrame, hparts⟩ := List.length_eq_two.mp h.1
    have hsizes : WellFormed [sizeFrame, payloadFrame] := hparts ▸ hformed
    intro frame hframe
    obtain rfl : sizeFrame = frame := by simpa [hparts] using hframe
    rw [overwrite_of_length hsizes.1]
    apply ReceivedMessage.ofCapacity_isSome
    rw [hsizes.2]
    exact hfits payloadFrame (by simp [hparts])
  · exact halloc

def Welcome (sources : List UInt64) (_ : Ingress T) : IngressLabel → Prop
  | .deliver m => Harmless T sources m
  | _ => True

instance (sources : List UInt64) : ∀ (s : Ingress T) a, Decidable (Welcome sources s a)
  | _, .deliver _ => inferInstanceAs (Decidable (Harmless T _ _))
  | _, .thread _ _ => .isTrue trivial
  | _, .stop => .isTrue trivial

def Carries (m : Multipart) (got : T) : Prop :=
  ∃ sizeFrame, m.parts = [sizeFrame, payload got] ∧ size got = word sizeFrame

/-- What is known of a message enqueued under a source: unless the source is foreign, it carries
a well-formed one. -/
def Delivers (sources : List UInt64) (m : Multipart) (source : UInt64) (got : T) : Prop :=
  Announces m source ∧ (source ∈ sources →
    m.routingId = image source ∧ WellFormed m.parts ∧ Carries m got)

/-- The frames that are left belong to the messages that are left; in the middle of an iteration
the first of these is the one being received. -/
def Framed (sources : List UInt64) (pc : Pc T) (frames : List Frame) (rest : List Multipart) :
    Prop :=
  match pc with
  | .recvSource => frames = framesOf rest
  | .recvSize source => ∃ m waiting, rest = m :: waiting ∧ Announces m source ∧
      frames = m.parts ++ framesOf waiting
  | .recvPayload source capacity buffer => ∃ m waiting sizeFrame payloadFrame,
      rest = m :: waiting ∧ Announces m source ∧ m.parts = [sizeFrame, payloadFrame] ∧
        capacity = overwrite 0 sizeFrame ∧ ofCapacity capacity = some buffer ∧
        frames = payloadFrame :: framesOf waiting
  | .enqueue source got => ∃ m waiting, rest = m :: waiting ∧ Delivers sources m source got ∧
      frames = framesOf waiting
  | .closed => True
  | _ => False

theorem delivers_copied {sources : List UInt64} {m : Multipart} (h : Harmless T sources m)
    {source : UInt64} (hsource : Announces m source) {sizeFrame payloadFrame : Frame}
    (hparts : m.parts = [sizeFrame, payloadFrame]) {buffer : T}
    (hnew : ofCapacity (overwrite 0 sizeFrame) = some buffer) :
    Delivers sources m source (setSize (copyIn buffer
      (payloadFrame.take (overwrite 0 sizeFrame).toNat)) (received payloadFrame)) := by
  refine ⟨hsource, fun hmem => ?_⟩
  obtain ⟨hid, hformed, hfits⟩ := h.2.resolve_right fun hforeign => hforeign.1 source hmem hsource
  have hsizes : WellFormed [sizeFrame, payloadFrame] := hparts ▸ hformed
  rw [overwrite_of_length hsizes.1] at hnew ⊢
  have hint := hfits payloadFrame (by simp [hparts])
  obtain ⟨hsize, hpayload⟩ := payload_copied hnew hsizes.2 hint
  exact ⟨hsource.eq_image hid, hformed, sizeFrame, by rw [hpayload, hparts], hsize⟩

/-- Each message enqueued carries the next multipart message, unless that one is foreign. -/
def Enqueued (sources : List UInt64) (table : QueueTable) (taken : List Multipart)
    (enqueued : List (ℕ × T)) : Prop :=
  List.Forall₂ (fun m entry => ∃ source, table.queueOf source = some entry.1 ∧
    Delivers sources m source entry.2) taken enqueued

/-- The invariant of a receive thread to which only harmless messages were delivered. -/
structure InStep (sources : List UInt64) (s : Ingress T) : Prop where
  wired : s.receiver.table.Wired
  kept : ∀ source queue, (QueueTable.prepareSources {} sources).queueOf source = some queue →
    s.receiver.table.queueOf source = some queue
  harmless : ∀ m ∈ s.delivered, Harmless T sources m
  split : ∃ taken rest, s.delivered = taken ++ rest ∧
    Framed sources (stage s.receiver.pc) s.receiver.frames rest ∧
    Enqueued sources s.receiver.table taken s.receiver.enqueued

theorem inStep_prepared (sources : List UInt64) :
    InStep sources (Ingress.prepared sources : Ingress T) where
  wired := QueueTable.wired_empty.prepareSources sources
  kept _ _ h := h
  harmless := by simp [Ingress.prepared]
  split := ⟨[], [], rfl, rfl, .nil⟩

theorem Framed.deliver {sources : List UInt64} {pc : Pc T} {frames : List Frame}
    {rest : List Multipart} (h : Framed sources pc frames rest) (m : Multipart) :
    Framed sources pc (frames ++ m.frames) (rest ++ [m]) := by
  have happend : ∀ waiting, framesOf (waiting ++ [m]) = framesOf waiting ++ m.frames := by
    simp [framesOf]
  cases pc with
  | recvSource => exact (congrArg (· ++ _) h).trans (happend rest).symm
  | recvSize source =>
    obtain ⟨first, waiting, rfl, hsource, rfl⟩ := h
    exact ⟨first, waiting ++ [m], rfl, hsource, by simp [happend]⟩
  | recvPayload source capacity buffer =>
    obtain ⟨first, waiting, sizeFrame, payloadFrame, rfl, hsource, hparts, hcapacity, hbuffer,
      rfl⟩ := h
    exact ⟨first, waiting ++ [m], sizeFrame, payloadFrame, rfl, hsource, hparts, hcapacity,
      hbuffer, by simp [happend]⟩
  | enqueue source got =>
    obtain ⟨first, waiting, rfl, hgot, rfl⟩ := h
    exact ⟨first, waiting ++ [m], rfl, hgot, by simp [happend]⟩
  | closed => trivial
  | _ => exact h.elim

namespace InStep
variable {sources : List UInt64} {s : Ingress T}

theorem variableSize (h : InStep sources s) :
    VariableSize s.receiver.pc ∧ s.receiver.pc ≠ .undefined ∧ s.receiver.pc ≠ .terminated := by
  obtain ⟨taken, rest, -, hframed, -⟩ := h.split
  cases hpc : s.receiver.pc <;> rw [hpc] at hframed <;>
    first | exact hframed.elim | exact ⟨trivial, by simp, by simp⟩

theorem of_moved (h : InStep sources s) {pc : Pc T} {frames : List Frame} {payloads : List Frame}
    (hpc : ∀ rest, (∀ m ∈ rest, Harmless T sources m) →
      Framed sources (stage s.receiver.pc) s.receiver.frames rest →
        Framed sources (stage pc) frames rest) :
    InStep sources { s with
      receiver := { s.receiver with pc := pc, frames := frames }, payloads := payloads } where
  wired := h.wired
  kept := h.kept
  harmless := h.harmless
  split := by
    obtain ⟨taken, rest, hdelivered, hframed, henqueued⟩ := h.split
    refine ⟨taken, rest, hdelivered, hpc rest ?_ hframed, henqueued⟩
    exact fun m hmem => h.harmless m (hdelivered ▸ List.mem_append_right _ hmem)

theorem enqueue (h : InStep sources s) {source : UInt64} {got : T}
    (hpc : s.receiver.pc = .enqueue source got) {payloads : List Frame} :
    InStep sources { s with
      receiver := { s.receiver with
        table := s.receiver.table.findOrInsert source }.enqueueMsg source got
      payloads := payloads } := by
  have hwired := h.wired.findOrInsert source
  obtain ⟨queue, hqueue⟩ := hwired.exists_queueOf (QueueTable.mem_findOrInsert source)
  obtain ⟨taken, rest, hdelivered, hframed, henqueued⟩ := h.split
  rw [hpc] at hframed
  obtain ⟨m, waiting, rfl, hgot, hframes⟩ := hframed
  simp only [Receiver.enqueueMsg, hqueue]
  refine
    { wired := hwired
      kept := fun src q hq => QueueTable.queueOf_findOrInsert (h.kept src q hq)
      harmless := h.harmless
      split := ⟨taken ++ [m], waiting, by simp [hdelivered], hframes, ?_⟩ }
  have hold : Enqueued sources (s.receiver.table.findOrInsert source) taken
      s.receiver.enqueued := by
    apply henqueued.imp
    rintro _ _ ⟨src, hq, hentry⟩
    exact ⟨src, QueueTable.queueOf_findOrInsert hq, hentry⟩
  exact List.rel_append hold (.cons ⟨source, hqueue, hgot⟩ .nil)

theorem thread (h : InStep sources s) {payload : Option Frame} {r : Receiver T}
    (hr : Reception s.receiver payload r) {payloads : List Frame} :
    InStep sources { s with receiver := r, payloads := payloads } := by
  cases hr with
  | retry hstage => exact h.of_moved fun rest _ hframed => by rwa [hstage]
  | close _ => exact h.of_moved fun _ _ _ => trivial
  | source indeterminate hpc hframes =>
    apply h.of_moved
    intro rest _ hframed
    rw [hpc, hframes] at hframed
    -- the first frame is the routing id of the first message that is left
    cases rest with
    | nil => cases hframed
    | cons m waiting =>
      simp only [stage, Framed, framesOf, Multipart.frames, List.flatMap_cons, List.cons_append,
        List.cons.injEq] at hframed
      obtain ⟨rfl, hrest⟩ := hframed
      exact ⟨m, waiting, rfl, announces_overwrite m indeterminate, hrest⟩
  | size hpc hframes hnew =>
    apply h.of_moved
    intro rest hharmless hframed
    rw [hpc, hframes] at hframed
    obtain ⟨m, waiting, rfl, hsource, hrest⟩ := hframed
    obtain ⟨sizeFrame, payloadFrame, hparts⟩ :=
      List.length_eq_two.mp (hharmless m List.mem_cons_self).1
    rw [hparts, List.cons_append, List.cons.injEq] at hrest
    obtain ⟨rfl, hrest⟩ := hrest
    exact ⟨m, waiting, _, payloadFrame, rfl, hsource, hparts, rfl, hnew, hrest⟩
  | terminate hpc hframes hnew =>
    obtain ⟨taken, rest, hdelivered, hframed, -⟩ := h.split
    rw [hpc, hframes] at hframed
    obtain ⟨m, waiting, rfl, -, hrest⟩ := hframed
    have hharmless := h.harmless m (by simp [hdelivered])
    obtain ⟨sizeFrame, payloadFrame, hparts⟩ := List.length_eq_two.mp hharmless.1
    rw [hparts, List.cons_append, List.cons.injEq] at hrest
    obtain ⟨rfl, -⟩ := hrest
    have halloc := hharmless.allocated
    simp [Allocated, hparts, hnew] at halloc
  | payload hpc hframes =>
    apply h.of_moved
    intro rest hharmless hframed
    rw [hpc, hframes] at hframed
    obtain ⟨m, waiting, sizeFrame, _, rfl, hsource, hparts, rfl, hnew, hpayload⟩ := hframed
    obtain ⟨rfl, hrest⟩ := List.cons.inj hpayload
    exact ⟨m, waiting, rfl,
      delivers_copied (hharmless m List.mem_cons_self) hsource hparts hnew, hrest⟩
  | enqueue hpc => exact h.enqueue hpc

theorem step (h : InStep sources s) {a : IngressLabel} {t : Ingress T}
    (hs : guarded (Welcome sources) ingressNext s a = some t) : InStep sources t := by
  obtain ⟨hguard, hs⟩ := guarded_eq_some.mp hs
  cases a with
  | deliver m =>
    cases hs
    obtain ⟨taken, rest, hdelivered, hframed, henqueued⟩ := h.split
    refine
      { wired := h.wired
        kept := h.kept
        harmless := forall_mem_concat h.harmless hguard
        split := ⟨taken, rest ++ [m], by simp [hdelivered], hframed.deliver m, henqueued⟩ }
  | thread ok indeterminate =>
    cases hs
    exact h.thread (reception h.variableSize.1 ok indeterminate)
  | stop =>
    cases hs
    exact ⟨h.wired, h.kept, h.harmless, h.split⟩

end InStep

/-- What one prepared source is owed: its well-formed messages are on its queue, in order and with
their payloads, and nothing else. -/
def ServedFrom (source : UInt64) (taken : List Multipart) (got : List T) : Prop :=
  List.Forall₂ Carries
    (taken.filter fun m => m.routingId = image source ∧ WellFormed m.parts) got

/-- A malformed message harms only itself: the process goes on, and of the messages whose frames
have been received, the well-formed ones of each prepared source are on the queue that source was
given. -/
structure Unharmed (sources : List UInt64) (s : Ingress T) : Prop where
  defined : s.receiver.pc ≠ .undefined ∧ s.receiver.pc ≠ .terminated
  taken : ∃ taken rest, s.delivered = taken ++ rest ∧
    (s.receiver.pc = .loop → s.receiver.frames = framesOf rest) ∧
    ∀ source ∈ sources, ∃ queue,
      (QueueTable.prepareSources {} sources).queueOf source = some queue ∧
      s.receiver.table.queueOf source = some queue ∧
      ServedFrom source taken
        ((s.receiver.enqueued.filter fun entry => entry.1 = queue).map Prod.snd)

theorem Enqueued.served {sources : List UInt64} {table : QueueTable} {taken : List Multipart}
    {enqueued : List (ℕ × T)} (h : Enqueued sources table taken enqueued) (hw : table.Wired)
    {source : UInt64} (hmem : source ∈ sources) {queue : ℕ}
    (hqueue : table.queueOf source = some queue) :
    ServedFrom source taken ((enqueued.filter fun entry => entry.1 = queue).map Prod.snd) := by
  rw [ServedFrom, List.forall₂_map_right_iff]
  have hsource : ∀ m src, Announces m src → m.routingId = image source → src = source := by
    intro m src hsrc hid
    have hlength : m.routingId.length = 8 := by rw [hid, length_image]
    exact image_injective ((hsrc.eq_image hlength).symm.trans hid)
  refine forall₂_filter h ?_ ?_
  · rintro m ⟨q, got⟩ ⟨src, hq, hsrc, hgot⟩
    constructor
    · rintro ⟨hid, -⟩
      obtain rfl := hsource m src hsrc hid
      exact Option.some.inj (hq.symm.trans hqueue)
    · rintro rfl
      obtain rfl := hw.distinct _ _ _ hq hqueue
      exact ⟨(hgot hmem).1, (hgot hmem).2.1⟩
  · rintro m entry ⟨src, -, hsrc, hgot⟩ ⟨hid, -⟩
    obtain rfl := hsource m src hsrc hid
    exact (hgot hmem).2.2

theorem inStep_reachable {sources : List UInt64} {s : Ingress T}
    (h : Reachable (guarded (Welcome sources) ingressNext) (Ingress.prepared sources) s) :
    InStep sources s := h.invariant (inStep_prepared sources) fun _ _ _ hu hv => hu.step hv

theorem unharmed_reachable {sources : List UInt64} {s : Ingress T}
    (h : Reachable (guarded (Welcome sources) ingressNext) (Ingress.prepared sources) s) :
    Unharmed sources s := by
  have hin := inStep_reachable h
  obtain ⟨taken, rest, hdelivered, hframed, henqueued⟩ := hin.split
  refine ⟨hin.variableSize.2, taken, rest, hdelivered, ?_, ?_⟩
  · intro hpc
    rwa [hpc] at hframed
  · intro source hmem
    obtain ⟨queue, hqueue⟩ := (QueueTable.wired_empty.prepareSources sources).exists_queueOf
      (QueueTable.mem_prepareSources (.inl hmem))
    have hkept := hin.kept source queue hqueue
    exact ⟨queue, hqueue, hkept, henqueued.served hin.wired hmem hkept⟩

end MessagePass.PeerMessages
