import MessagePass.BlockRings

/-!
# What every interleaving keeps of a reader-writer queue

The circle of blocks, cut open at the front block, is a run of blocks in use, up to the tail block,
and a run of spare ones. Read from front to tail the blocks in use hold what was enqueued and not
dequeued. Blocks strictly between front and tail are full, spare blocks are empty, and each thread
knows what its last look at the other's indices still guarantees.
-/
namespace MessagePass.BlockRings
open QueueBlocks LabelledRuns LinkedCycles

variable {T : Type}

/-- The elements on their way into a block: constructed, but not published. -/
def State.pending (s : State T) (b : ℕ) : List T :=
  match s.producer with
  | .publish v => if b = s.queue.tailBlock then [v] else []
  | .publishNext v n => if b = n then [v] else []
  | _ => []

/-- The elements of a block to which the tail pointer has not moved yet. -/
def State.staged (s : State T) (b : ℕ) : List T :=
  match s.producer with
  | .moveTail v n => if b = n then [v] else []
  | _ => []

def State.removing (s : State T) (b : ℕ) : ℕ :=
  if b = s.queue.frontBlock then s.removals else 0

/-- The blocks in use and the spare ones, with what each block holds. -/
structure Shape (q : Queue T) (active free : List ℕ) (contents : ℕ → List T) (removing : ℕ → ℕ)
    (pending staged : ℕ → List T) : Prop where
  nodup : (active ++ free).Nodup
  allocated : ∀ b ∈ active ++ free, b < q.allocated
  front : active.head? = some q.frontBlock
  tail : active.getLast? = some q.tailBlock
  linked : Linked (fun b => (q.heap b).next) q.frontBlock (active ++ free)
  stores : ∀ b ∈ active ++ free, (q.heap b).Stores (removing b) (contents b) (pending b)
  spare : ∀ b ∈ free, contents b = staged b
  nonempty : ∀ b ∈ active, b ≠ q.frontBlock → contents b ≠ []
  full : ∀ b ∈ active, b ≠ q.frontBlock → b ≠ q.tailBlock →
    (contents b).length = (q.heap b).sizeMask

namespace Shape
variable {q : Queue T} {active free : List ℕ} {contents : ℕ → List T} {removing : ℕ → ℕ}
  {pending staged : ℕ → List T} {b n : ℕ} {block : Block T}

theorem exists_front (h : Shape q active free contents removing pending staged) :
    ∃ rest, active = q.frontBlock :: rest :=
  List.head?_eq_some_iff.mp h.front

theorem exists_tail (h : Shape q active free contents removing pending staged) :
    ∃ init, active = init ++ [q.tailBlock] :=
  List.getLast?_eq_some_iff.mp h.tail

theorem front_mem (h : Shape q active free contents removing pending staged) :
    q.frontBlock ∈ active := by
  obtain ⟨rest, rfl⟩ := h.exists_front
  exact List.mem_cons_self

theorem tail_mem (h : Shape q active free contents removing pending staged) :
    q.tailBlock ∈ active := by
  obtain ⟨init, rfl⟩ := h.exists_tail
  simp

theorem stores_front (h : Shape q active free contents removing pending staged) :
    q.front.Stores (removing q.frontBlock) (contents q.frontBlock) (pending q.frontBlock) :=
  h.stores _ (List.mem_append_left _ h.front_mem)

theorem stores_tail (h : Shape q active free contents removing pending staged) :
    q.tail.Stores (removing q.tailBlock) (contents q.tailBlock) (pending q.tailBlock) :=
  h.stores _ (List.mem_append_left _ h.tail_mem)

theorem next_tail (h : Shape q active free contents removing pending staged) :
    q.tail.next = some (free.headD q.frontBlock) := by
  obtain ⟨init, rfl⟩ := h.exists_tail
  have hlinked := h.linked
  rw [List.append_assoc] at hlinked
  exact hlinked.next_eq

theorem exists_second (h : Shape q active free contents removing pending staged)
    (hne : q.frontBlock ≠ q.tailBlock) :
    ∃ n rest, active = q.frontBlock :: n :: rest ∧ q.front.next = some n := by
  obtain ⟨rest, rfl⟩ := h.exists_front
  cases rest with
  | nil => exact absurd (Option.some.inj h.tail) hne
  | cons n rest =>
    exact ⟨n, rest, rfl, h.linked.1⟩

theorem exists_spare (h : Shape q active free contents removing pending staged)
    (hne : q.tail.next ≠ some q.frontBlock) :
    ∃ n rest, free = n :: rest ∧ q.tail.next = some n := by
  have hnext := h.next_tail
  cases free with
  | nil => exact absurd hnext hne
  | cons n rest => exact ⟨n, rest, rfl, hnext⟩

theorem set (h : Shape q active free contents removing pending staged) {held : List T}
    (removing' : ℕ → ℕ) {pending' staged' : ℕ → List T}
    (hnext : block.next = (q.heap b).next) (hmask : block.sizeMask = (q.heap b).sizeMask)
    (hstores : block.Stores (removing' b) held (pending' b))
    (hremoving : ∀ x, x ≠ b → removing' x = removing x)
    (hpending : ∀ x, x ≠ b → pending' x = pending x)
    (hstaged : ∀ x, x ≠ b → staged' x = staged x)
    (hspare : b ∈ free → held = staged' b)
    (hnonempty : b ∈ active → b ≠ q.frontBlock → held ≠ [])
    (hfull : b ∈ active → b ≠ q.frontBlock → b ≠ q.tailBlock →
      held.length = (q.heap b).sizeMask) :
    Shape (q.set b block) active free (Function.update contents b held) removing' pending'
      staged' where
  nodup := h.nodup
  allocated := h.allocated
  front := h.front
  tail := h.tail
  linked := by
    refine h.linked.congr fun x _ => ?_
    by_cases hx : x = b
    · subst hx
      simp [Queue.set, hnext]
    · simp [Queue.set, hx]
  stores := by
    intro x hx
    by_cases hxb : x = b
    · subst hxb
      simpa [Queue.set] using hstores
    · simpa [Queue.set, hxb, hremoving x hxb, hpending x hxb] using h.stores x hx
  spare := by
    intro x hx
    by_cases hxb : x = b
    · subst hxb
      simpa using hspare hx
    · simpa [hxb, hstaged x hxb] using h.spare x hx
  nonempty := by
    intro x hx hfront
    by_cases hxb : x = b
    · subst hxb
      simpa using hnonempty hx hfront
    · simpa [hxb] using h.nonempty x hx hfront
  full := by
    intro x hx hfront htail
    by_cases hxb : x = b
    · subst hxb
      simpa [Queue.set, hmask] using hfull hx hfront htail
    · simpa [Queue.set, hxb] using h.full x hx hfront htail

/-- The first spare block, with the element written to it, becomes the tail block. -/
theorem moveTail (h : Shape q active (n :: free) contents removing pending staged)
    (staged' : ℕ → List T) (hheld : contents n ≠ [])
    (hfull : q.frontBlock ≠ q.tailBlock → (contents q.tailBlock).length = q.tail.sizeMask)
    (hstaged : ∀ x, x ≠ n → staged' x = staged x) :
    Shape { q with tailBlock := n } (active ++ [n]) free contents removing pending staged' where
  nodup := by simpa using h.nodup
  allocated := by simpa using h.allocated
  front := by
    obtain ⟨rest, hactive⟩ := h.exists_front
    simp [hactive]
  tail := by simp
  linked := by simpa using h.linked
  stores := by simpa using h.stores
  spare := by
    intro b hb
    have hne : b ≠ n := by
      rintro rfl
      exact (List.nodup_cons.mp (List.nodup_append.mp h.nodup).2.1).1 hb
    rw [hstaged b hne]
    exact h.spare b (List.mem_cons_of_mem _ hb)
  nonempty := by
    intro b hb hfront
    rcases List.mem_append.mp hb with hb | hb
    · exact h.nonempty b hb hfront
    · rw [List.mem_singleton.mp hb]
      exact hheld
  full := by
    intro b hb hfront htail
    have hmem : b ∈ active := (List.mem_append.mp hb).resolve_right
      fun hn => htail (List.mem_singleton.mp hn)
    by_cases hold : b = q.tailBlock
    · subst hold
      exact hfull (Ne.symm hfront)
    · exact h.full b hmem hfront hold

theorem rotate_perm (f : ℕ) (used spare : List ℕ) :
    (used ++ (spare ++ [f])).Perm (f :: used ++ spare) := by
  rw [← List.append_assoc]
  exact List.perm_append_singleton f (used ++ spare)

/-- The front block, which is empty, becomes the last spare one. -/
theorem moveFront {rest : List ℕ}
    (h : Shape q (q.frontBlock :: n :: rest) free contents removing pending staged)
    (hempty : contents q.frontBlock = staged q.frontBlock) :
    Shape { q with frontBlock := n } (n :: rest) (free ++ [q.frontBlock]) contents removing pending
      staged where
  nodup := (rotate_perm _ _ _).nodup_iff.mpr h.nodup
  allocated := fun b hb => h.allocated b ((rotate_perm _ _ _).mem_iff.mp hb)
  front := rfl
  tail := by
    have htail := h.tail
    rwa [List.getLast?_cons_cons] at htail
  linked := by
    have hrotate := h.linked.rotate
    simpa using hrotate
  stores := fun b hb => h.stores b ((rotate_perm _ _ _).mem_iff.mp hb)
  spare := by
    intro b hb
    rcases List.mem_append.mp hb with hb | hb
    · exact h.spare b hb
    · rw [List.mem_singleton.mp hb]
      exact hempty
  nonempty := by
    intro b hb _
    refine h.nonempty b (List.mem_cons_of_mem _ hb) ?_
    rintro rfl
    exact (List.nodup_cons.mp h.nodup).1 (List.mem_append_left _ hb)
  full := by
    intro b hb _ htail
    refine h.full b (List.mem_cons_of_mem _ hb) ?_ htail
    rintro rfl
    exact (List.nodup_cons.mp h.nodup).1 (List.mem_append_left _ hb)

theorem addBlock (h : Shape q active free contents removing pending staged) (maxBlockSize : ℕ)
    (v : T) :
    Shape (q.addBlock maxBlockSize v) active free contents removing pending staged where
  nodup := h.nodup
  allocated := fun b hb => Nat.lt_succ_of_lt (h.allocated b hb)
  front := h.front
  tail := h.tail
  linked := by
    refine h.linked.congr fun b hb => ?_
    simp [Queue.addBlock, Nat.ne_of_lt (h.allocated b hb)]
  stores := by
    intro b hb
    simpa [Queue.addBlock, Nat.ne_of_lt (h.allocated b hb)] using h.stores b hb
  spare := h.spare
  nonempty := h.nonempty
  full := by
    intro b hb hfront htail
    have hlt := h.allocated b (List.mem_append_left _ hb)
    simpa [Queue.addBlock, Nat.ne_of_lt hlt] using h.full b hb hfront htail

theorem link (h : Shape q active free contents removing pending staged) {held : List T}
    (pending' staged' : ℕ → List T) (hfresh : n ∉ active ++ free) (hlt : n < q.allocated)
    (hnext : (q.heap n).next = q.tail.next) (hstores : (q.heap n).Stores 0 held [])
    (hremoving : removing n = 0) (hpending : pending' n = []) (hstaged : staged' n = held)
    (hpending' : ∀ x, x ≠ n → pending' x = pending x)
    (hstaged' : ∀ x, x ≠ n → staged' x = staged x) :
    Shape (q.set q.tailBlock { q.tail with next := some n }) active (n :: free)
      (Function.update contents n held) removing pending' staged' where
  nodup := List.perm_middle.nodup_iff.mpr (List.nodup_cons.mpr ⟨hfresh, h.nodup⟩)
  allocated := by
    intro b hb
    rcases List.mem_cons.mp (List.perm_middle.mem_iff.mp hb) with rfl | hb
    · exact hlt
    · exact h.allocated b hb
  front := h.front
  tail := h.tail
  linked := by
    obtain ⟨init, hinit⟩ := h.exists_tail
    have hnodup := h.nodup
    have hlinked := h.linked
    rw [hinit, List.append_assoc] at hnodup hlinked hfresh
    rw [hinit, List.append_assoc]
    refine (hlinked.insert hnodup hnext hfresh).congr fun b _ => ?_
    by_cases hb : b = q.tailBlock
    · subst hb
      simp [Queue.set]
    · simp [Queue.set, hb]
  stores := by
    intro b hb
    have hstay : ∀ x, (q.heap x).Stores (removing x) (Function.update contents n held x)
        (pending' x) → ((q.set q.tailBlock { q.tail with next := some n }).heap x).Stores
          (removing x) (Function.update contents n held x) (pending' x) := by
      intro x hx
      by_cases htail : x = q.tailBlock
      · subst htail
        simpa [Queue.set, Queue.tail] using hx.setNext (some n)
      · simpa [Queue.set, htail] using hx
    apply hstay
    rcases List.mem_cons.mp (List.perm_middle.mem_iff.mp hb) with rfl | hb
    · simpa [hremoving, hpending] using hstores
    · have hne : b ≠ n := ne_of_mem_of_not_mem hb hfresh
      simpa [hne, hpending' b hne] using h.stores b hb
  spare := by
    intro b hb
    rcases List.mem_cons.mp hb with rfl | hb
    · simp [hstaged]
    · have hne : b ≠ n := ne_of_mem_of_not_mem (List.mem_append_right _ hb) hfresh
      simpa [hne, hstaged' b hne] using h.spare b hb
  nonempty := by
    intro b hb hfront
    have hne : b ≠ n := ne_of_mem_of_not_mem (List.mem_append_left _ hb) hfresh
    simpa [hne] using h.nonempty b hb hfront
  full := by
    intro b hb hfront htail
    have hne : b ≠ n := ne_of_mem_of_not_mem (List.mem_append_left _ hb) hfresh
    have hnot : b ≠ q.tailBlock := htail
    simpa [hne, Queue.set, hnot] using h.full b hb hfront htail

end Shape

/-- What the blocks hold together: with any one of them set aside the others have room for the
elements the queue was built for. -/
structure Sized (q : Queue T) (ring : List ℕ) (capacity : ℕ) : Prop where
  power : ∃ k, q.largestBlockSize = 2 ^ (k + 1)
  le : ∀ b ∈ ring, (q.heap b).sizeMask + 1 ≤ q.largestBlockSize
  single : ∀ b, ring = [b] → capacity ≤ (q.heap b).sizeMask
  several : 2 ≤ ring.length → ∀ b ∈ ring,
    capacity + (q.heap b).sizeMask ≤ (ring.map fun b => (q.heap b).sizeMask).sum

namespace Sized
variable {q q' : Queue T} {ring ring' : List ℕ} {capacity n : ℕ}

theorem congr (h : Sized q ring capacity) (hlargest : q'.largestBlockSize = q.largestBlockSize)
    (hmask : ∀ b ∈ ring, (q'.heap b).sizeMask = (q.heap b).sizeMask) : Sized q' ring capacity where
  power := hlargest ▸ h.power
  le := by
    intro b hb
    rw [hmask b hb, hlargest]
    exact h.le b hb
  single := by
    rintro b rfl
    rw [hmask b List.mem_cons_self]
    exact h.single b rfl
  several := by
    intro htwo b hb
    rw [hmask b hb, List.map_congr_left hmask]
    exact h.several htwo b hb

theorem set {b : ℕ} {block : Block T} (h : Sized q ring capacity)
    (hmask : block.sizeMask = (q.heap b).sizeMask) : Sized (q.set b block) ring capacity := by
  refine h.congr rfl fun x _ => ?_
  by_cases hx : x = b
  · subst hx
    simp [Queue.set, hmask]
  · simp [Queue.set, hx]

theorem perm (h : Sized q ring capacity) (hperm : ring'.Perm ring) : Sized q ring' capacity where
  power := h.power
  le := fun b hb => h.le b (hperm.mem_iff.mp hb)
  single := by
    rintro b rfl
    exact h.single b (List.singleton_perm.mp hperm).symm
  several := by
    intro htwo b hb
    rw [(hperm.map _).sum_nat]
    exact h.several (hperm.length_eq ▸ htwo) b (hperm.mem_iff.mp hb)

theorem addBlock (h : Sized q ring capacity) (maxBlockSize : ℕ) (v : T)
    (hlt : ∀ b ∈ ring, b < q.allocated) : Sized (q.addBlock maxBlockSize v) ring capacity := by
  have hmask : ∀ b ∈ ring,
      ((q.addBlock maxBlockSize v).heap b).sizeMask = (q.heap b).sizeMask := by
    intro b hb
    simp [Queue.addBlock, Nat.ne_of_lt (hlt b hb)]
  obtain ⟨k, hk⟩ := h.power
  have hgrow : q.largestBlockSize ≤ (q.addBlock maxBlockSize v).largestBlockSize ∧
      ∃ k, (q.addBlock maxBlockSize v).largestBlockSize = 2 ^ (k + 1) := by
    simp only [Queue.addBlock, Queue.newBlockSize]
    split
    · exact ⟨Nat.le_refl _, k, hk⟩
    · exact ⟨by omega, k + 1, by rw [hk, Nat.pow_succ _ (k + 1)]⟩
  refine ⟨hgrow.2, ?_, ?_, ?_⟩
  · intro b hb
    rw [hmask b hb]
    exact Nat.le_trans (h.le b hb) hgrow.1
  · rintro b rfl
    rw [hmask b List.mem_cons_self]
    exact h.single b rfl
  · intro htwo b hb
    rw [hmask b hb, List.map_congr_left hmask]
    exact h.several htwo b hb

theorem insert (h : Sized q ring capacity) (hring : ring ≠ [])
    (hmask : (q.heap n).sizeMask + 1 = q.largestBlockSize) : Sized q (n :: ring) capacity where
  power := h.power
  le := by
    intro b hb
    rcases List.mem_cons.mp hb with rfl | hb
    · exact Nat.le_of_eq hmask
    · exact h.le b hb
  single := by
    intro b heq
    exact absurd (List.cons.inj heq).2 hring
  several := by
    intro _ b hb
    rw [List.map_cons, List.sum_cons]
    obtain ⟨f, rest, rfl⟩ := List.exists_cons_of_ne_nil hring
    cases rest with
    | nil =>
      -- the circle had one block, and the new one is not smaller
      have hsingle := h.single f rfl
      have hle := h.le f List.mem_cons_self
      rcases List.mem_cons.mp hb with rfl | hb
      · simp; omega
      · rw [List.mem_singleton.mp hb]
        simp; omega
    | cons g rest =>
      have hseveral := h.several (by simp)
      rcases List.mem_cons.mp hb with rfl | hb
      · have hf := hseveral f List.mem_cons_self
        omega
      · have hb := hseveral b hb
        omega

end Sized

/-- The tail block was found full, and only the consumer can have changed that. -/
def TailFull (q : Queue T) (contents : ℕ → List T) : Prop :=
  q.frontBlock ≠ q.tailBlock → (contents q.tailBlock).length = q.tail.sizeMask

def HasRoom (b : Block T) : Prop := b.nextTail ≠ b.localFront

/-- What the producer knows before its next access. -/
def ProducerOk (q : Queue T) (ring free : List ℕ) (contents : ℕ → List T) (capacity : ℕ) :
    ProducerPc T → Prop
  | .idle | .returned _ | .loadFront _ _ | .publish _ => True
  | .construct _ => HasRoom q.tail
  | .checkNext _ _ held => TailFull q contents ∧ (free = [] → capacity ≤ held)
  | .loadNextFront _ => TailFull q contents ∧ free ≠ []
  | .constructNext _ n => TailFull q contents ∧ free.head? = some n ∧ HasRoom (q.heap n)
  | .publishNext _ n | .moveTail _ n => TailFull q contents ∧ free.head? = some n
  | .makeBlock _ held => TailFull q contents ∧ capacity ≤ held
  | .link v n => TailFull q contents ∧ n ∉ ring ∧ n < q.allocated ∧ (q.heap n).Stores 0 [v] [] ∧
      (q.heap n).next = q.tail.next ∧ (q.heap n).sizeMask + 1 = q.largestBlockSize

/-- What the consumer knows before its next access. -/
def ConsumerOk (q : Queue T) (contents : ℕ → List T) (enqueued dequeued : List T) :
    ConsumerPc → Prop
  | .idle | .returned _ | .publishFront => True
  | .loadTail call => call.since ≤ enqueued.length
  | .checkTailBlock call => q.frontBlock = q.tailBlock → call.since ≤ dequeued.length
  | .reloadTail _ => q.frontBlock ≠ q.tailBlock
  | .loadNext _ => q.frontBlock ≠ q.tailBlock ∧ contents q.frontBlock = []
  | .loadNextTail _ n => q.frontBlock ≠ q.tailBlock ∧ contents q.frontBlock = [] ∧
      q.front.next = some n
  | .moveFront call n => q.frontBlock ≠ q.tailBlock ∧ contents q.frontBlock = [] ∧
      q.front.next = some n ∧ (q.heap n).front ≠ (q.heap n).localTail ∧ call.op ≠ .peek
  | .element call b => b = q.frontBlock ∧ q.front.front ≠ q.front.localTail ∨
      call.op = .peek ∧ q.frontBlock ≠ q.tailBlock ∧ contents q.frontBlock = [] ∧
        q.front.next = some b

def State.unlinked (s : State T) : ℕ :=
  match s.producer with
  | .link _ _ => 1
  | _ => 0

/-- The state of a queue built for `capacity` elements, with its blocks and what they hold. -/
structure Describes (capacity : ℕ) (s : State T) (active free : List ℕ) (contents : ℕ → List T) :
    Prop where
  fault : s.fault = none
  shape : Shape s.queue active free contents s.removing s.pending s.staged
  queue : s.enqueued = s.dequeued ++ active.flatMap contents
  count : (active ++ free).length + s.unlinked = s.queue.allocated
  sized : Sized s.queue (active ++ free) capacity
  producer : ProducerOk s.queue (active ++ free) free contents capacity s.producer
  consumer : ConsumerOk s.queue contents s.enqueued s.dequeued s.consumer
  peeked : ∀ entry ∈ s.peeked, s.enqueued[entry.1]? = some entry.2
  misses : ∀ entry ∈ s.misses, entry.1 ≤ entry.2
  noRoom : ∀ held ∈ s.noRoom, capacity ≤ held

end MessagePass.BlockRings
