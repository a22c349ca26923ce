import MessagePass.RingSteps

/-!
# The steps of the consumer

Each step of `try_dequeue`, `pop` and `peek` keeps the description of the queue, and none of their
assertions fails. A look that finds the front block empty while it is the only one in use has seen
an empty queue; that is what entitles a call to return without an element.
-/
namespace MessagePass.BlockRings
open QueueBlocks LabelledRuns

variable {T : Type} {free : List ℕ} {contents : ℕ → List T} {capacity : ℕ}

namespace Describes
variable {s : State T} {active : List ℕ} {b : ℕ}

theorem startCall (h : Describes capacity s active free contents)
    (hpc : s.consumer = .idle ∨ ∃ success, s.consumer = .returned success) (op : ConsumerOp) :
    Describes capacity (s.startCall op) active free contents := by
  have hquiet : s.removing = fun _ => 0 := by
    apply removing_eq_zero
    rcases hpc with hpc | ⟨success, hpc⟩ <;> rw [State.removals, hpc]
  unfold State.startCall
  split
  · exact h.consumerMove _ ((removing_eq_zero rfl).trans hquiet.symm) (.inl ⟨rfl, ‹_›⟩)
  · exact h.consumerMove _ ((removing_eq_zero rfl).trans hquiet.symm) (Nat.le_refl _)

/-- A look at the tail: either the front block has an element, or it was empty at that moment. -/
theorem lookTail (h : Describes capacity s active free contents) {call : Call} {pc : ConsumerPc}
    (hquiet : s.removing = fun _ => 0)
    (hquiet' : ∀ q, { s with queue := q, consumer := pc }.removals = 0)
    (hempty : contents s.queue.frontBlock = [] →
      ConsumerOk (s.queue.set s.queue.frontBlock s.queue.front.loadTail) contents s.enqueued
        s.dequeued pc) :
    Described capacity { s with
      queue := s.queue.set s.queue.frontBlock s.queue.front.loadTail
      consumer := if s.queue.front.loadTail.front ≠ s.queue.front.loadTail.localTail
        then .element call s.queue.frontBlock else pc } := by
  have hstores := h.shape.stores_front
  rw [hquiet] at hstores
  have hsame : SameTail (s.queue.heap s.queue.frontBlock) s.queue.front.loadTail :=
    ⟨rfl, rfl, rfl, rfl⟩
  split
  · rename_i hfound
    refine ⟨active, free, _, h.consumerSet _ s.queue.front.loadTail (contents s.queue.frontBlock)
      [] (.element call s.queue.frontBlock) (by simp) h.shape.front_mem hsame ?_ ?_ rfl
      (fun _ => rfl) (.inl ⟨rfl, ?_⟩)⟩
    · rw [removing_eq_zero rfl]
      exact hstores.loadTail
    · intro x _
      rw [hquiet, removing_eq_zero rfl]
    · simpa using hfound
  · rename_i hnot
    have hnil : contents s.queue.frontBlock = [] := hstores.eq_nil_iff.mp (not_not.mp hnot)
    refine ⟨active, free, _, h.consumerSet _ s.queue.front.loadTail (contents s.queue.frontBlock)
      [] pc (by simp) h.shape.front_mem hsame ?_ ?_ rfl (fun _ => rfl) ?_⟩
    · rw [removing_eq_zero (hquiet' _)]
      exact hstores.loadTail
    · intro x _
      rw [hquiet, removing_eq_zero (hquiet' _)]
    · rw [Function.update_eq_self]
      exact hempty hnil

theorem loadTail (h : Describes capacity s active free contents) {call : Call}
    (hpc : s.consumer = .loadTail call) :
    Described capacity { s with
      queue := s.queue.set s.queue.frontBlock s.queue.front.loadTail
      consumer := if s.queue.front.loadTail.front ≠ s.queue.front.loadTail.localTail
        then .element call s.queue.frontBlock else .checkTailBlock call } := by
  have hok := h.consumer
  rw [hpc] at hok
  apply h.lookTail
  · exact removing_eq_zero (by rw [State.removals, hpc])
  · exact fun _ => rfl
  · -- with one block in use, an empty block is an empty queue
    intro hnil heq
    obtain ⟨rest, hactive⟩ := h.shape.exists_front
    have hrest : rest = [] := by
      by_contra hne
      obtain ⟨init, hinit⟩ := h.shape.exists_tail
      have hnodup := (List.nodup_append.mp h.shape.nodup).1
      have hlast : s.queue.tailBlock ∈ rest := by
        have hlast := h.shape.tail
        rw [hactive, List.getLast?_cons, List.getLast?_eq_some_getLast hne] at hlast
        exact Option.some.inj hlast ▸ List.getLast_mem hne
      rw [hactive] at hnodup
      have hfront : s.queue.frontBlock = s.queue.tailBlock := heq
      exact (List.nodup_cons.mp hnodup).1 (hfront ▸ hlast)
    have hqueue := h.queue
    rw [hactive, hrest] at hqueue
    simp only [List.flatMap_cons, List.flatMap_nil, hnil, List.append_nil] at hqueue
    rw [← hqueue]
    exact hok

theorem checkTailBlock (h : Describes capacity s active free contents) {call : Call}
    (hpc : s.consumer = .checkTailBlock call) :
    (s.queue.frontBlock ≠ s.queue.tailBlock →
      Described capacity { s with consumer := .reloadTail call }) ∧
    (s.queue.frontBlock = s.queue.tailBlock → Described capacity { s with
      consumer := .returned false
      misses := s.misses ++ [(call.since, s.dequeued.length)] }) := by
  have hok := h.consumer
  rw [hpc] at hok
  have hquiet : s.removing = fun _ => 0 := removing_eq_zero (by rw [State.removals, hpc])
  constructor
  · intro hne
    exact ⟨active, free, contents,
      h.consumerMove _ ((removing_eq_zero rfl).trans hquiet.symm) hne⟩
  · intro heq
    have hmove := h.consumerMove (.returned false)
      ((removing_eq_zero rfl).trans hquiet.symm) trivial
    exact ⟨active, free, contents, { hmove with misses := forall_mem_concat h.misses (hok heq) }⟩

theorem reloadTail (h : Describes capacity s active free contents) {call : Call}
    (hpc : s.consumer = .reloadTail call) :
    Described capacity { s with
      queue := s.queue.set s.queue.frontBlock s.queue.front.loadTail
      consumer := if s.queue.front.loadTail.front ≠ s.queue.front.loadTail.localTail
        then .element call s.queue.frontBlock else .loadNext call } := by
  have hok := h.consumer
  rw [hpc] at hok
  apply h.lookTail
  · exact removing_eq_zero (by rw [State.removals, hpc])
  · exact fun _ => rfl
  · exact fun hnil => ⟨hok, hnil⟩

theorem loadNext (h : Describes capacity s active free contents) {call : Call}
    (hpc : s.consumer = .loadNext call) :
    ∃ n, s.queue.front.next = some n ∧
      Described capacity { s with consumer := .loadNextTail call n } := by
  have hok := h.consumer
  rw [hpc] at hok
  obtain ⟨n, rest, -, hnext⟩ := h.shape.exists_second hok.1
  have hquiet : s.removing = fun _ => 0 := removing_eq_zero (by rw [State.removals, hpc])
  exact ⟨n, hnext, active, free, contents,
    h.consumerMove _ ((removing_eq_zero rfl).trans hquiet.symm) ⟨hok.1, hok.2, hnext⟩⟩

theorem second_ne_nil (h : Describes capacity s active free contents) {n : ℕ}
    (hne : s.queue.frontBlock ≠ s.queue.tailBlock) (hnext : s.queue.front.next = some n) :
    n ∈ active ∧ n ≠ s.queue.frontBlock ∧ contents n ≠ [] ∧
      (s.queue.heap n).Stores 0 (contents n) (s.pending n) := by
  obtain ⟨m, rest, hactive, hm⟩ := h.shape.exists_second hne
  obtain rfl : n = m := Option.some.inj (hnext.symm.trans hm)
  have hmem : n ∈ active := by simp [hactive]
  have hother : n ≠ s.queue.frontBlock := by
    rintro rfl
    have hnodup := (List.nodup_append.mp h.shape.nodup).1
    rw [hactive] at hnodup
    exact (List.nodup_cons.mp hnodup).1 List.mem_cons_self
  have hstores := h.shape.stores n (List.mem_append_left _ hmem)
  rw [State.removing, if_neg hother] at hstores
  exact ⟨hmem, hother, h.shape.nonempty n hmem hother, hstores⟩

theorem loadNextTail (h : Describes capacity s active free contents) {call : Call} {n : ℕ}
    (hpc : s.consumer = .loadNextTail call n) :
    (s.queue.heap n).front ≠ (s.queue.heap n).tail ∧
    (call.op = .peek → Described capacity { s with consumer := .element call n }) ∧
    (call.op ≠ .peek → Described capacity { s with
      queue := s.queue.set n (s.queue.heap n).loadTail, consumer := .moveFront call n }) := by
  have hok := h.consumer
  rw [hpc] at hok
  obtain ⟨hne, hnil, hnext⟩ := hok
  obtain ⟨hmem, hother, hheld, hstores⟩ := h.second_ne_nil hne hnext
  have hfound : (s.queue.heap n).front ≠ (s.queue.heap n).tail := hstores.eq_nil_iff.not.mpr hheld
  have hquiet : s.removing = fun _ => 0 := removing_eq_zero (by rw [State.removals, hpc])
  refine ⟨hfound, ?_, ?_⟩
  · intro hop
    exact ⟨active, free, contents,
      h.consumerMove _ ((removing_eq_zero rfl).trans hquiet.symm) (.inr ⟨hop, hne, hnil, hnext⟩)⟩
  · intro hop
    refine ⟨active, free, _, h.consumerSet n (s.queue.heap n).loadTail (contents n) []
      (.moveFront call n) (by simp) hmem ⟨rfl, rfl, rfl, rfl⟩ ?_ ?_ rfl (fun _ => rfl)
      ⟨hne, ?_, ?_, ?_, hop⟩⟩
    · rw [removing_eq_zero rfl]
      exact hstores.loadTail
    · intro x _
      rw [hquiet, removing_eq_zero rfl]
    · rw [Queue.frontBlock_set, Function.update_of_ne (Ne.symm hother)]
      exact hnil
    · rw [Queue.front_set_of_ne _ _ (Ne.symm hother)]
      exact hnext
    · rw [Queue.heap_set_self]
      exact hfound

theorem staged_front (h : Describes capacity s active free contents) :
    s.staged s.queue.frontBlock = [] := by
  have hok := h.producer
  cases hpc : s.producer with
  | moveTail v n =>
    rw [hpc] at hok
    have hne := h.ne_front_of_head? hok.2
    simp [State.staged, hpc, Ne.symm hne]
  | _ => simp [State.staged, hpc]

theorem moveFront (h : Describes capacity s active free contents) {call : Call} {n : ℕ}
    (hpc : s.consumer = .moveFront call n) :
    Described capacity { s with
      queue := { s.queue with frontBlock := n }, consumer := .element call n } := by
  have hok := h.consumer
  rw [hpc] at hok
  obtain ⟨hne, hnil, hnext, hfound, hop⟩ := hok
  obtain ⟨m, rest, rfl, hm⟩ := h.shape.exists_second hne
  obtain rfl : n = m := Option.some.inj (hnext.symm.trans hm)
  have hquiet : s.removing = fun _ => 0 := removing_eq_zero (by rw [State.removals, hpc])
  have hshape := h.shape.moveFront (hnil.trans h.staged_front.symm)
  rw [hquiet] at hshape
  have hperm := Shape.rotate_perm s.queue.frontBlock (n :: rest) free
  refine ⟨n :: rest, free ++ [s.queue.frontBlock], contents, ⟨h.fault, ?_, ?_, ?_, ?_, ?_,
    .inl ⟨rfl, hfound⟩, h.peeked, h.misses, h.noRoom⟩⟩
  · rw [removing_eq_zero rfl]
    exact hshape
  · have hqueue := h.queue
    rw [List.flatMap_cons, hnil, List.nil_append] at hqueue
    exact hqueue
  · have hcount := h.count
    rw [← hperm.length_eq] at hcount
    exact hcount
  · exact (h.sized.perm hperm).congr rfl fun _ _ => rfl
  · refine h.producer.frame rfl rfl rfl (fun _ => ⟨rfl, rfl, rfl, rfl⟩) (fun hfull _ => hfull hne)
      ?_ ?_
    · intro x hx
      rw [List.head?_append, hx]
      rfl
    · exact fun x hx => ⟨fun hmem => hx (hperm.mem_iff.mp hmem), rfl⟩

/-- The element a call goes for is the next one to be dequeued. -/
theorem element_cell (h : Describes capacity s active free contents) {call : Call}
    (hpc : s.consumer = .element call b) :
    ∃ v rest, contents b = v :: rest ∧ (s.queue.heap b).data (s.queue.heap b).front = some v ∧
      s.enqueued[s.dequeued.length]? = some v ∧ s.removing b = 0 ∧
      (call.op ≠ .peek →
        b = s.queue.frontBlock ∧ s.queue.front.front ≠ s.queue.front.localTail) := by
  have hok := h.consumer
  rw [hpc] at hok
  have hzero : s.removing b = 0 := by simp [State.removing, State.removals, hpc]
  obtain ⟨init, rfl⟩ := h.shape.exists_front
  have hnth : ∀ v rest, contents s.queue.frontBlock ++ init.flatMap contents = v :: rest →
      s.enqueued[s.dequeued.length]? = some v := by
    intro v rest hcons
    rw [h.queue, List.flatMap_cons, hcons]
    simp
  rcases hok with ⟨rfl, hfound⟩ | ⟨hop, hne, hnil, hnext⟩
  · have hstores := h.shape.stores_front
    rw [hzero] at hstores
    obtain ⟨v, rest, hheld⟩ := List.exists_cons_of_ne_nil (hstores.ne_nil hfound)
    rw [hheld] at hstores
    refine ⟨v, rest, hheld, hstores.front_cell, hnth v (rest ++ init.flatMap contents) ?_, hzero,
      fun _ => ⟨rfl, hfound⟩⟩
    rw [hheld, List.cons_append]
  · obtain ⟨m, more, hactive, hm⟩ := h.shape.exists_second hne
    obtain rfl : b = m := Option.some.inj (hnext.symm.trans hm)
    obtain ⟨-, -, hheld, hstores⟩ := h.second_ne_nil hne hnext
    obtain ⟨v, rest, hcons⟩ := List.exists_cons_of_ne_nil hheld
    obtain rfl : init = b :: more := (List.cons.inj hactive).2
    rw [hcons] at hstores
    refine ⟨v, rest, hcons, hstores.front_cell, hnth v (rest ++ more.flatMap contents) ?_, hzero,
      fun hnot => absurd hop hnot⟩
    rw [hnil, List.nil_append, List.flatMap_cons, hcons, List.cons_append]

theorem element (h : Describes capacity s active free contents) {call : Call}
    (hpc : s.consumer = .element call b) :
    ∃ v, (s.queue.heap b).data (s.queue.heap b).front = some v ∧
      (call.op = .peek → Described capacity { s with
        consumer := .returned true, peeked := s.peeked ++ [(s.dequeued.length, v)] }) ∧
      (call.op ≠ .peek → Described capacity { s with
        queue := s.queue.set b (s.queue.heap b).moveOut
        consumer := .publishFront
        dequeued := s.dequeued ++ [v] }) := by
  obtain ⟨v, rest, hheld, hcell, hnth, hzero, hfront⟩ := h.element_cell hpc
  refine ⟨v, hcell, ?_, ?_⟩
  · intro _
    have hquiet : s.removing = fun _ => 0 := removing_eq_zero (by rw [State.removals, hpc])
    have hmove := h.consumerMove (.returned true) ((removing_eq_zero rfl).trans hquiet.symm) trivial
    exact ⟨active, free, contents, { hmove with peeked := forall_mem_concat h.peeked hnth }⟩
  · intro hop
    obtain ⟨rfl, hfound⟩ := hfront hop
    have hstores := h.shape.stores_front
    rw [hzero, hheld] at hstores
    refine ⟨active, free, _, h.consumerSet s.queue.frontBlock s.queue.front.moveOut rest [v]
      .publishFront rfl h.shape.front_mem ⟨rfl, rfl, rfl, rfl⟩ ?_ ?_ hheld
      (fun hne => absurd rfl hne) trivial⟩
    · simpa [State.removing, State.removals] using hstores.moveOut hfound
    · exact fun x hx => (if_neg hx).trans (if_neg hx).symm

theorem publishFront (h : Describes capacity s active free contents)
    (hpc : s.consumer = .publishFront) :
    Described capacity { s with
      queue := s.queue.set s.queue.frontBlock s.queue.front.publishFront
      consumer := .returned true } := by
  have hstores := h.shape.stores_front
  have hone : s.removing s.queue.frontBlock = 1 := by
    simp [State.removing, State.removals, hpc]
  rw [hone] at hstores
  refine ⟨active, free, _, h.consumerSet s.queue.frontBlock s.queue.front.publishFront
    (contents s.queue.frontBlock) [] (.returned true) (by simp) h.shape.front_mem
    ⟨rfl, rfl, rfl, rfl⟩ ?_ ?_ rfl (fun _ => rfl) trivial⟩
  · simpa [State.removing, State.removals] using hstores.publishFront
  · exact fun x hx => (if_neg hx).trans (if_neg hx).symm

theorem consumerStep (h : Describes capacity s active free contents) {t : State T}
    (hs : s.consumerStep = some t) : Described capacity t := by
  unfold State.consumerStep at hs
  cases hpc : s.consumer with
  | idle => simp [hpc] at hs
  | returned success => simp [hpc] at hs
  | loadTail call =>
    simp only [hpc, Option.some.injEq] at hs
    exact hs ▸ h.loadTail hpc
  | checkTailBlock call =>
    simp only [hpc] at hs
    split at hs
    · cases hs
      exact (h.checkTailBlock hpc).1 ‹_›
    · rename_i heq
      cases hs
      exact (h.checkTailBlock hpc).2 (not_not.mp heq)
  | reloadTail call =>
    simp only [hpc, Option.some.injEq] at hs
    exact hs ▸ h.reloadTail hpc
  | loadNext call =>
    obtain ⟨n, hnext, hdescribed⟩ := h.loadNext hpc
    simp only [hpc, hnext, Option.some.injEq] at hs
    exact hs ▸ hdescribed
  | loadNextTail call n =>
    obtain ⟨hfound, hpeek, htake⟩ := h.loadNextTail hpc
    simp only [hpc, if_pos hfound] at hs
    cases hop : call.op with
    | peek =>
      simp only [hop, Option.some.injEq] at hs
      exact hs ▸ hpeek hop
    | tryDequeue =>
      simp only [hop, Option.some.injEq] at hs
      exact hs ▸ htake (by simp [hop])
    | pop =>
      simp only [hop, Option.some.injEq] at hs
      exact hs ▸ htake (by simp [hop])
  | moveFront call n =>
    simp only [hpc, Option.some.injEq] at hs
    exact hs ▸ h.moveFront hpc
  | element call n =>
    obtain ⟨v, hcell, hpeek, htake⟩ := h.element hpc
    simp only [hpc, hcell] at hs
    cases hop : call.op with
    | peek =>
      simp only [hop, Option.some.injEq] at hs
      exact hs ▸ hpeek hop
    | tryDequeue =>
      simp only [hop, Option.some.injEq] at hs
      exact hs ▸ htake (by simp [hop])
    | pop =>
      simp only [hop, Option.some.injEq] at hs
      exact hs ▸ htake (by simp [hop])
  | publishFront =>
    simp only [hpc, Option.some.injEq] at hs
    exact hs ▸ h.publishFront hpc

end Describes
end MessagePass.BlockRings
