import MessagePass.RingInvariants

/-!
# The accesses of the two threads

Each access of the producer changes a block at or behind the tail, each access of the consumer a
block at the front. What the other thread knows survives: it never relies on the part of a block
that is not its own.
-/
namespace MessagePass.BlockRings
open QueueBlocks LabelledRuns LinkedCycles

variable {T : Type} {q q' : Queue T} {ring ring' free free' : List ℕ}
  {contents contents' : ℕ → List T} {capacity : ℕ}

/-- The consumer leaves the producer's part of a block alone. -/
structure SameTail (b b' : Block T) : Prop where
  tail : b'.tail = b.tail
  localFront : b'.localFront = b.localFront
  next : b'.next = b.next
  sizeMask : b'.sizeMask = b.sizeMask

structure SameFront (b b' : Block T) : Prop where
  front : b'.front = b.front
  localTail : b'.localTail = b.localTail

theorem SameTail.hasRoom {b b' : Block T} (h : SameTail b b') (hroom : HasRoom b) :
    HasRoom b' := by
  unfold HasRoom Block.nextTail
  rw [h.tail, h.localFront, h.sizeMask]
  exact hroom

theorem sameTail_set {b : ℕ} {block : Block T} (h : SameTail (q.heap b) block) (x : ℕ) :
    SameTail (q.heap x) ((q.set b block).heap x) := by
  by_cases hx : x = b
  · subst hx
    simpa [Queue.set] using h
  · simpa [Queue.set, hx] using (⟨rfl, rfl, rfl, rfl⟩ : SameTail (q.heap x) (q.heap x))

theorem sameFront_set {b : ℕ} {block : Block T} (h : SameFront (q.heap b) block) (x : ℕ) :
    SameFront (q.heap x) ((q.set b block).heap x) := by
  by_cases hx : x = b
  · subst hx
    simpa [Queue.set] using h
  · simpa [Queue.set, hx] using (⟨rfl, rfl⟩ : SameFront (q.heap x) (q.heap x))

/-- What the producer knows does not depend on the consumer's part of the blocks. -/
theorem ProducerOk.frame {pc : ProducerPc T} (h : ProducerOk q ring free contents capacity pc)
    (htail : q'.tailBlock = q.tailBlock) (hlargest : q'.largestBlockSize = q.largestBlockSize)
    (halloc : q'.allocated = q.allocated) (hsame : ∀ b, SameTail (q.heap b) (q'.heap b))
    (hfull : TailFull q contents → TailFull q' contents')
    (hhead : ∀ n, free.head? = some n → free'.head? = some n)
    (hring : ∀ n, n ∉ ring → n ∉ ring' ∧ q'.heap n = q.heap n) :
    ProducerOk q' ring' free' contents' capacity pc := by
  have hnil : free' = [] → free = [] := by
    rintro rfl
    cases free with
    | nil => rfl
    | cons n rest => cases hhead n rfl
  have htailSame : SameTail q.tail q'.tail := by
    unfold Queue.tail
    rw [htail]
    exact hsame _
  cases pc with
  | idle => trivial
  | returned => trivial
  | loadFront => trivial
  | publish => trivial
  | construct => exact htailSame.hasRoom h
  | checkNext => exact ⟨hfull h.1, fun hfree => h.2 (hnil hfree)⟩
  | loadNextFront => exact ⟨hfull h.1, fun hfree => h.2 (hnil hfree)⟩
  | constructNext v n => exact ⟨hfull h.1, hhead n h.2.1, (hsame n).hasRoom h.2.2⟩
  | publishNext v n => exact ⟨hfull h.1, hhead n h.2⟩
  | moveTail v n => exact ⟨hfull h.1, hhead n h.2⟩
  | makeBlock => exact ⟨hfull h.1, h.2⟩
  | link v n =>
    obtain ⟨htailFull, hfresh, hlt, hstores, hnext, hmask⟩ := h
    obtain ⟨hfresh', hheap⟩ := hring n hfresh
    refine ⟨hfull htailFull, hfresh', halloc ▸ hlt, ?_, ?_, ?_⟩
    · rw [hheap]
      exact hstores
    · rw [hheap, hnext, htailSame.next]
    · rw [hheap, hmask, hlargest]

/-- What the consumer knows does not depend on the producer's part of the blocks. -/
theorem ConsumerOk.frame {pc : ConsumerPc} {enqueued enqueued' dequeued : List T}
    (h : ConsumerOk q contents enqueued dequeued pc) (hfront : q'.frontBlock = q.frontBlock)
    (htail : q.frontBlock ≠ q.tailBlock → q.frontBlock ≠ q'.tailBlock)
    (hsame : SameFront q.front q'.front)
    (hsecond : ∀ n, q.frontBlock ≠ q.tailBlock → q.front.next = some n →
      q'.front.next = some n ∧ SameFront (q.heap n) (q'.heap n))
    (hcontents : q.frontBlock ≠ q.tailBlock → contents' q.frontBlock = contents q.frontBlock)
    (hlen : enqueued.length ≤ enqueued'.length) :
    ConsumerOk q' contents' enqueued' dequeued pc := by
  have hempty : q.frontBlock ≠ q.tailBlock → contents q.frontBlock = [] →
      contents' q'.frontBlock = [] := by
    intro hne hnil
    rw [hfront, hcontents hne, hnil]
  have hne : q.frontBlock ≠ q.tailBlock → q'.frontBlock ≠ q'.tailBlock := by
    intro hne
    rw [hfront]
    exact htail hne
  cases pc with
  | idle => trivial
  | returned => trivial
  | publishFront => trivial
  | loadTail => exact Nat.le_trans h hlen
  | checkTailBlock =>
    intro heq
    by_cases hold : q.frontBlock = q.tailBlock
    · exact h hold
    · exact absurd heq (hne hold)
  | reloadTail => exact hne h
  | loadNext => exact ⟨hne h.1, hempty h.1 h.2⟩
  | loadNextTail call n => exact ⟨hne h.1, hempty h.1 h.2.1, (hsecond n h.1 h.2.2).1⟩
  | moveFront call n =>
    obtain ⟨hold, hnil, hnext, hfound, hop⟩ := h
    obtain ⟨hnext', hn⟩ := hsecond n hold hnext
    refine ⟨hne hold, hempty hold hnil, hnext', ?_, hop⟩
    rw [hn.front, hn.localTail]
    exact hfound
  | element call b =>
    rcases h with ⟨hb, hfound⟩ | ⟨hop, hold, hnil, hnext⟩
    · refine .inl ⟨hb.trans hfront.symm, ?_⟩
      rw [hsame.front, hsame.localTail]
      exact hfound
    · exact .inr ⟨hop, hne hold, hempty hold hnil, (hsecond b hold hnext).1⟩

theorem flatMap_update_of_notMem {l : List ℕ} {b : ℕ} {held : List T} (hb : b ∉ l) :
    l.flatMap (Function.update contents b held) = l.flatMap contents := by
  apply List.flatMap_congr
  intro x hx
  exact Function.update_of_ne (ne_of_mem_of_not_mem hx hb) ..

def Described (capacity : ℕ) (s : State T) : Prop :=
  ∃ active free contents, Describes capacity s active free contents

theorem removing_eq_zero {s : State T} (h : s.removals = 0) : s.removing = fun _ => 0 := by
  funext b
  rw [State.removing, h, ite_self]

namespace Describes
variable {s : State T} {active : List ℕ} {b : ℕ} {block : Block T} {held : List T}

theorem tail_notMem_free (h : Describes capacity s active free contents) :
    s.queue.tailBlock ∉ free := fun hfree =>
  (List.nodup_append.mp h.shape.nodup).2.2 _ h.shape.tail_mem _ hfree rfl

theorem ne_tail_of_head? {n : ℕ} (h : Describes capacity s active free contents)
    (hn : free.head? = some n) : n ≠ s.queue.tailBlock := by
  rintro rfl
  exact h.tail_notMem_free (List.mem_of_head? hn)

theorem ne_front_of_head? {n : ℕ} (h : Describes capacity s active free contents)
    (hn : free.head? = some n) : n ≠ s.queue.frontBlock := by
  rintro rfl
  exact (List.nodup_append.mp h.shape.nodup).2.2 _ h.shape.front_mem _ (List.mem_of_head? hn) rfl

theorem producerSet (h : Describes capacity s active free contents) (b : ℕ) (block : Block T)
    (held more : List T) (pc : ProducerPc T) {t : State T}
    (ht : t = { s with
      queue := s.queue.set b block
      producer := pc
      enqueued := s.enqueued ++ more })
    (hmem : b = s.queue.tailBlock ∨ b ∈ free ∧ more = [])
    (hnext : block.next = (s.queue.heap b).next)
    (hmask : block.sizeMask = (s.queue.heap b).sizeMask)
    (hsame : SameFront (s.queue.heap b) block)
    (hstores : block.Stores (s.removing b) held (t.pending b))
    (hpending : ∀ x, x ≠ b → t.pending x = s.pending x)
    (hstaged : ∀ x, x ≠ b → t.staged x = s.staged x)
    (hspare : b ∈ free → held = t.staged b)
    (hheld : b = s.queue.tailBlock → held = contents b ++ more)
    (hlinked : t.unlinked = s.unlinked)
    (hproducer : ProducerOk t.queue (active ++ free) free (Function.update contents b held)
      capacity pc) :
    Describes capacity t active free (Function.update contents b held) := by
  have hnodup := h.shape.nodup
  have hdisjoint : b ∈ free → b ∉ active := fun hfree hactive =>
    (List.nodup_append.mp hnodup).2.2 b hactive b hfree rfl
  have hactive : b ∈ active → b = s.queue.tailBlock := by
    intro hactive
    rcases hmem with hb | ⟨hfree, -⟩
    · exact hb
    · exact absurd hactive (hdisjoint hfree)
  have hfrontne : s.queue.frontBlock ≠ s.queue.tailBlock → s.queue.frontBlock ≠ b := by
    rintro hne rfl
    exact hne (hactive h.shape.front_mem)
  have hshape := h.shape.set s.removing hnext hmask hstores (fun _ _ => rfl)
    hpending hstaged hspare
    (by
      intro hb hf
      rw [hheld (hactive hb)]
      exact List.append_ne_nil_of_left_ne_nil (h.shape.nonempty b hb hf) _)
    (fun hb _ htail => absurd (hactive hb) htail)
  subst ht
  refine ⟨h.fault, hshape, ?_, hlinked ▸ h.count, h.sized.set hmask, hproducer, ?_, ?_,
    h.misses, h.noRoom⟩
  · -- the tail block is the last one in use, so what it gains comes last
    change s.enqueued ++ more = s.dequeued ++ active.flatMap _
    rw [h.queue, List.append_assoc]
    rcases hmem with rfl | ⟨hfree, rfl⟩
    · obtain ⟨init, rfl⟩ := h.shape.exists_tail
      have hnotin : s.queue.tailBlock ∉ init := by
        intro hmem
        have hinit := (List.nodup_append.mp (List.nodup_append.mp hnodup).1).2.2
        exact hinit _ hmem _ List.mem_cons_self rfl
      simp [List.flatMap_append, flatMap_update_of_notMem hnotin, hheld rfl]
    · rw [flatMap_update_of_notMem (hdisjoint hfree), List.append_nil]
  · refine h.consumer.frame rfl id (sameFront_set hsame _) ?_ ?_ ?_
    · intro n hne hn
      refine ⟨?_, sameFront_set hsame _⟩
      simpa [Queue.front, Queue.set, hfrontne hne] using hn
    · intro hne
      exact Function.update_of_ne (hfrontne hne) ..
    · simp
  · intro entry hentry
    obtain ⟨hlt, -⟩ := List.getElem?_eq_some_iff.mp (h.peeked entry hentry)
    exact (List.getElem?_append_left hlt).trans (h.peeked entry hentry)

theorem consumerSet (h : Describes capacity s active free contents) (b : ℕ) (block : Block T)
    (held taken : List T) (pc : ConsumerPc) {t : State T}
    (ht : t = { s with
      queue := s.queue.set b block
      consumer := pc
      dequeued := s.dequeued ++ taken })
    (hmem : b ∈ active) (hsame : SameTail (s.queue.heap b) block)
    (hstores : block.Stores (t.removing b) held (s.pending b))
    (hremoving : ∀ x, x ≠ b → t.removing x = s.removing x)
    (hheld : contents b = taken ++ held)
    (htaken : b ≠ s.queue.frontBlock → taken = [])
    (hconsumer : ConsumerOk t.queue (Function.update contents b held) s.enqueued t.dequeued pc) :
    Describes capacity t active free (Function.update contents b held) := by
  have hnodup := h.shape.nodup
  have hnotfree : b ∉ free := fun hfree => (List.nodup_append.mp hnodup).2.2 b hmem b hfree rfl
  have hkept : b ≠ s.queue.frontBlock → held = contents b := by
    intro hne
    rw [hheld, htaken hne, List.nil_append]
  have hshape := h.shape.set _ hsame.next hsame.sizeMask hstores hremoving (fun _ _ => rfl)
    (fun _ _ => rfl) (fun hfree => absurd hfree hnotfree)
    (fun hb hf => hkept hf ▸ h.shape.nonempty b hb hf)
    (fun hb hf ht => hkept hf ▸ h.shape.full b hb hf ht)
  subst ht
  refine ⟨h.fault, hshape, ?_, h.count, h.sized.set hsame.sizeMask, ?_, hconsumer, h.peeked,
    h.misses, h.noRoom⟩
  · change s.enqueued = s.dequeued ++ taken ++ active.flatMap _
    rw [h.queue, List.append_assoc, List.append_cancel_left_eq]
    by_cases hb : b = s.queue.frontBlock
    · -- the front block is the first one in use, so what it loses comes first
      subst hb
      obtain ⟨rest, rfl⟩ := h.shape.exists_front
      have hnotin : s.queue.frontBlock ∉ rest :=
        (List.nodup_cons.mp (List.nodup_append.mp hnodup).1).1
      simp [flatMap_update_of_notMem hnotin, hheld]
    · rw [htaken hb, List.nil_append, hkept hb, Function.update_eq_self]
  · refine h.producer.frame rfl rfl rfl (sameTail_set hsame) ?_ (fun _ => id) ?_
    · intro hfull hne
      by_cases hb : s.queue.tailBlock = b
      · subst hb
        simpa [Queue.set, Queue.tail, hsame.sizeMask, hkept (Ne.symm hne)] using hfull hne
      · simpa [Queue.set, Queue.tail, hb] using hfull hne
    · intro n hn
      refine ⟨hn, ?_⟩
      have hne : n ≠ b := by
        rintro rfl
        exact hn (List.mem_append_left _ hmem)
      simp [Queue.set, hne]

theorem consumerMove (h : Describes capacity s active free contents) (pc : ConsumerPc)
    (hremoving : { s with consumer := pc }.removing = s.removing)
    (hpc : ConsumerOk s.queue contents s.enqueued s.dequeued pc) :
    Describes capacity { s with consumer := pc } active free contents :=
  { h with shape := hremoving ▸ h.shape, consumer := hpc }

theorem producerMove (h : Describes capacity s active free contents) (pc : ProducerPc T)
    (hpending : { s with producer := pc }.pending = s.pending)
    (hstaged : { s with producer := pc }.staged = s.staged)
    (hlinked : { s with producer := pc }.unlinked = s.unlinked)
    (hpc : ProducerOk s.queue (active ++ free) free contents capacity pc) :
    Describes capacity { s with producer := pc } active free contents :=
  { h with
    shape := hpending ▸ hstaged ▸ h.shape
    count := hlinked ▸ h.count
    producer := hpc }

end Describes
end MessagePass.BlockRings
