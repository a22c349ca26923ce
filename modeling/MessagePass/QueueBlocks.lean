import MessagePass.CircularArrays

/-!
# The blocks of a reader-writer queue

A block of a `ReaderWriterQueue` is a circular array with a front index that the consumer moves, a
tail index that the producer moves, and each thread's shadow copy of the other's index. A cell is
`none` while no object lives in it. Block pointers are numbers; `none` is a null pointer.
-/
namespace MessagePass.QueueBlocks
open CircularArrays

structure Block (T : Type) where
  front : ℕ := 0
  localTail : ℕ := 0
  tail : ℕ := 0
  localFront : ℕ := 0
  next : Option ℕ := none
  data : ℕ → Option T := fun _ => none
  sizeMask : ℕ

variable {T : Type}

def makeBlock (T : Type) (size : ℕ) : Block T where
  sizeMask := size - 1

namespace Block

/-- `localFront = front.load()`, the producer's look at the consumer's index. -/
def loadFront (b : Block T) : Block T := { b with localFront := b.front }

/-- `localTail = tail.load()`, the consumer's look at the producer's index. -/
def loadTail (b : Block T) : Block T := { b with localTail := b.tail }

def nextTail (b : Block T) : ℕ := (b.tail + 1) &&& b.sizeMask

/-- `new (location) T(element)` behind the last element. -/
def construct (b : Block T) (v : T) : Block T :=
  { b with data := Function.update b.data b.tail (some v) }

def publishTail (b : Block T) : Block T := { b with tail := b.nextTail }

/-- `result = std::move(*element); element->~T()` at the front. -/
def moveOut (b : Block T) : Block T :=
  { b with data := Function.update b.data b.front none }

def publishFront (b : Block T) : Block T := { b with front := (b.front + 1) &&& b.sizeMask }

def withFirst (size : ℕ) (v : T) (next : Option ℕ) : Block T :=
  { (makeBlock T size).construct v with tail := 1, localTail := 1, next := next }

/-- `for (i = front; i != tail; i = (i + 1) & sizeMask)` over the elements of a block. There is no
result when a cell without an object is met or the rounds do not suffice. -/
def scan (b : Block T) : ℕ → ℕ → Option (List T)
  | 0, _ => none
  | rounds + 1, i =>
      if i = b.tail then some []
      else (b.data i).bind fun v => (b.scan rounds ((i + 1) &&& b.sizeMask)).map (v :: ·)

/-- The cells of a block from its front on: the element that is being moved out, what the block
holds, and what is constructed behind its tail. -/
def layout (removing : ℕ) (contents pending : List T) : List (Option T) :=
  List.replicate removing none ++ (contents ++ pending).map some

/-- A block read with indices that never wrapped around. Each shadow copy is an old value of the
index it shadows, and one cell stays free behind the producer's copy of the front. -/
structure Counted (b : Block T) (removing : ℕ) (contents pending : List T)
    (front localTail localFront : ℕ) : Prop where
  size : ∃ k, b.sizeMask + 1 = 2 ^ (k + 1)
  front_eq : b.front = front % (b.sizeMask + 1)
  tail_eq : b.tail = (front + (removing + contents.length)) % (b.sizeMask + 1)
  localTail_eq : b.localTail = localTail % (b.sizeMask + 1)
  localFront_eq : b.localFront = localFront % (b.sizeMask + 1)
  le_localTail : front + removing ≤ localTail
  localTail_le : localTail ≤ front + (removing + contents.length)
  localFront_le : localFront ≤ front
  room : front + (removing + contents.length) + pending.length ≤ localFront + b.sizeMask
  cells : Holds (b.sizeMask + 1) b.data front (layout removing contents pending)

def Stores (b : Block T) (removing : ℕ) (contents pending : List T) : Prop :=
  ∃ front localTail localFront, Counted b removing contents pending front localTail localFront

section Reads
variable (b : Block T) (v : T)

@[simp] theorem sizeMask_loadFront : b.loadFront.sizeMask = b.sizeMask := rfl
@[simp] theorem sizeMask_loadTail : b.loadTail.sizeMask = b.sizeMask := rfl
@[simp] theorem sizeMask_construct : (b.construct v).sizeMask = b.sizeMask := rfl
@[simp] theorem sizeMask_publishTail : b.publishTail.sizeMask = b.sizeMask := rfl
@[simp] theorem sizeMask_moveOut : b.moveOut.sizeMask = b.sizeMask := rfl
@[simp] theorem sizeMask_publishFront : b.publishFront.sizeMask = b.sizeMask := rfl

@[simp] theorem next_loadFront : b.loadFront.next = b.next := rfl
@[simp] theorem next_loadTail : b.loadTail.next = b.next := rfl
@[simp] theorem next_construct : (b.construct v).next = b.next := rfl
@[simp] theorem next_publishTail : b.publishTail.next = b.next := rfl
@[simp] theorem next_moveOut : b.moveOut.next = b.next := rfl
@[simp] theorem next_publishFront : b.publishFront.next = b.next := rfl

end Reads

@[simp] theorem length_layout (removing : ℕ) (contents pending : List T) :
    (layout removing contents pending).length = removing + (contents.length + pending.length) := by
  simp [layout]

variable {b : Block T} {removing : ℕ} {contents pending : List T} {v : T}

theorem wrap_eq (h : ∃ k, b.sizeMask + 1 = 2 ^ (k + 1)) (i : ℕ) :
    i &&& b.sizeMask = i % (b.sizeMask + 1) := by
  obtain ⟨k, hk⟩ := h
  exact and_mask hk i

theorem wrap_succ (h : ∃ k, b.sizeMask + 1 = 2 ^ (k + 1)) (i : ℕ) :
    (i % (b.sizeMask + 1) + 1) &&& b.sizeMask = (i + 1) % (b.sizeMask + 1) := by
  rw [wrap_eq h, Nat.mod_add_mod]

namespace Counted
variable {front localTail localFront : ℕ}

theorem nextTail_eq (h : Counted b removing contents pending front localTail localFront) :
    b.nextTail = (front + (removing + contents.length) + 1) % (b.sizeMask + 1) := by
  rw [nextTail, h.tail_eq, wrap_succ h.size]

/-- The producer's test for room, on the copy of the front it has. -/
theorem nextTail_ne_iff (h : Counted b removing contents [] front localTail localFront) :
    b.nextTail ≠ b.localFront ↔
      front + (removing + contents.length) + 1 ≤ localFront + b.sizeMask := by
  have hroom := h.room
  have hfront := h.localFront_le
  simp only [List.length_nil] at hroom
  rw [h.nextTail_eq, h.localFront_eq]
  constructor
  · intro hne
    by_contra hlt
    apply hne
    rw [show front + (removing + contents.length) + 1 = localFront + (b.sizeMask + 1) by omega,
      Nat.add_mod_right]
  · intro hle
    exact mod_ne_of_lt (by omega) (by omega)

/-- The consumer's test for an element, on the copy of the tail it has. -/
theorem front_eq_localTail_iff (h : Counted b 0 contents pending front localTail localFront) :
    b.front = b.localTail ↔ localTail = front := by
  have hroom := h.room
  have hlow := h.le_localTail
  have hhigh := h.localTail_le
  have hfront := h.localFront_le
  rw [h.front_eq, h.localTail_eq, eq_comm]
  exact mod_eq_iff (by omega) (by omega)

end Counted

namespace Stores

theorem make (k : ℕ) (next : Option ℕ) :
    Stores { makeBlock T (2 ^ (k + 1)) with next := next } 0 [] [] := by
  have hpos : 1 ≤ 2 ^ (k + 1) := Nat.one_le_two_pow
  refine ⟨0, 0, 0, ⟨k, ?_⟩, ?_, ?_, ?_, ?_, ?_, ?_, ?_, ?_, ?_⟩
  · exact Nat.sub_add_cancel hpos
  · exact (Nat.zero_mod _).symm
  · exact (Nat.zero_mod _).symm
  · exact (Nat.zero_mod _).symm
  · exact (Nat.zero_mod _).symm
  · exact Nat.le_refl _
  · exact Nat.le_refl _
  · exact Nat.le_refl _
  · exact Nat.zero_le _
  · exact holds_nil fun _ _ => rfl

theorem setNext (h : Stores b removing contents pending) (next : Option ℕ) :
    Stores { b with next := next } removing contents pending := by
  obtain ⟨front, localTail, localFront, hc⟩ := h
  exact ⟨front, localTail, localFront, ⟨hc.size, hc.front_eq, hc.tail_eq, hc.localTail_eq,
    hc.localFront_eq, hc.le_localTail, hc.localTail_le, hc.localFront_le, hc.room, hc.cells⟩⟩

theorem loadFront (h : Stores b removing contents pending) :
    Stores b.loadFront removing contents pending := by
  obtain ⟨front, localTail, localFront, hc⟩ := h
  refine ⟨front, localTail, front, { hc with
    localFront_eq := hc.front_eq
    localFront_le := Nat.le_refl _
    room := ?_ }⟩
  exact Nat.le_trans hc.room (Nat.add_le_add_right hc.localFront_le _)

theorem loadTail (h : Stores b removing contents pending) :
    Stores b.loadTail removing contents pending := by
  obtain ⟨front, localTail, localFront, hc⟩ := h
  exact ⟨front, _, localFront, { hc with
    localTail_eq := hc.tail_eq
    le_localTail := Nat.add_le_add_left (Nat.le_add_right _ _) _
    localTail_le := Nat.le_refl _ }⟩

theorem length_le (h : Stores b removing contents pending) :
    removing + contents.length + pending.length ≤ b.sizeMask := by
  obtain ⟨front, localTail, localFront, hc⟩ := h
  have hroom := hc.room
  have hfront := hc.localFront_le
  omega

theorem construct (h : Stores b removing contents []) (hroom : b.nextTail ≠ b.localFront) (v : T) :
    b.data b.tail = none ∧ Stores (b.construct v) removing contents [v] := by
  obtain ⟨front, localTail, localFront, hc⟩ := h
  have hspare := hc.nextTail_ne_iff.mp hroom
  have hfront := hc.localFront_le
  have hlen : (layout removing contents []).length = removing + contents.length := by simp
  have hlt : (layout removing contents []).length < b.sizeMask + 1 := by omega
  have hcells := hc.cells.push hlt (some v)
  rw [hlen, ← hc.tail_eq] at hcells
  constructor
  · have hfree := hc.cells.free hlt
    rwa [hlen, ← hc.tail_eq] at hfree
  · refine ⟨front, localTail, localFront, { hc with room := hspare, cells := ?_ }⟩
    simpa [layout, Block.construct] using hcells

theorem publishTail (h : Stores b removing contents [v]) :
    Stores b.publishTail removing (contents ++ [v]) [] := by
  obtain ⟨front, localTail, localFront, hc⟩ := h
  refine ⟨front, localTail, localFront, { hc with
    tail_eq := ?_, localTail_le := ?_, room := ?_, cells := ?_ }⟩
  · rw [List.length_append]
    exact hc.nextTail_eq
  · have hle := hc.localTail_le
    simp only [List.length_append, List.length_singleton]
    omega
  · have hroom := hc.room
    simp only [List.length_append, List.length_singleton, List.length_nil] at hroom ⊢
    exact hroom
  · simpa [layout, Block.publishTail] using hc.cells

theorem full (h : Stores b removing contents [])
    (hfull : b.loadFront.nextTail = b.loadFront.localFront) :
    removing + contents.length = b.sizeMask := by
  obtain ⟨front, localTail, localFront, hc⟩ := h
  have hload : Counted b.loadFront removing contents [] front localTail front := { hc with
    localFront_eq := hc.front_eq
    localFront_le := Nat.le_refl _
    room := Nat.le_trans hc.room (Nat.add_le_add_right hc.localFront_le _) }
  have hnot := hload.nextTail_ne_iff.not.mp (not_not.mpr hfull)
  have hroom : front + (removing + contents.length) ≤ front + b.sizeMask := hload.room
  have hsize : ¬ front + (removing + contents.length) + 1 ≤ front + b.sizeMask := hnot
  omega

theorem eq_nil_iff (h : Stores b 0 contents pending) : b.front = b.tail ↔ contents = [] := by
  obtain ⟨front, localTail, localFront, hc⟩ := h
  have hroom := hc.room
  have hfront := hc.localFront_le
  rw [hc.front_eq, hc.tail_eq, eq_comm, mod_eq_iff (by omega) (by omega)]
  simp

theorem ne_nil (h : Stores b 0 contents pending) (hne : b.front ≠ b.localTail) :
    contents ≠ [] := by
  obtain ⟨front, localTail, localFront, hc⟩ := h
  rintro rfl
  have hhigh := hc.localTail_le
  have hlow := hc.le_localTail
  exact hne (hc.front_eq_localTail_iff.mpr (Nat.le_antisymm hhigh hlow))

theorem front_cell (h : Stores b 0 (v :: contents) pending) : b.data b.front = some v := by
  obtain ⟨front, localTail, localFront, hc⟩ := h
  rw [hc.front_eq]
  exact hc.cells.head (Nat.succ_pos _)

theorem moveOut (h : Stores b 0 (v :: contents) pending) (hne : b.front ≠ b.localTail) :
    Stores b.moveOut 1 contents pending := by
  obtain ⟨front, localTail, localFront, hc⟩ := h
  have hlow := hc.le_localTail
  have hmove := hc.front_eq_localTail_iff.not.mp hne
  have hlen : 0 + (v :: contents).length = 1 + contents.length := by
    simp [Nat.add_comm]
  refine ⟨front, localTail, localFront, ⟨hc.size, hc.front_eq, ?_, hc.localTail_eq,
    hc.localFront_eq, by omega, ?_, hc.localFront_le, ?_, ?_⟩⟩
  · rw [← hlen]
    exact hc.tail_eq
  · rw [← hlen]
    exact hc.localTail_le
  · rw [← hlen]
    exact hc.room
  · have hcells := hc.cells.setHead none
    rw [← hc.front_eq] at hcells
    exact hcells

theorem publishFront (h : Stores b 1 contents pending) :
    Stores b.publishFront 0 contents pending := by
  obtain ⟨front, localTail, localFront, hc⟩ := h
  have hroom := hc.room
  have hfront := hc.localFront_le
  refine ⟨front + 1, localTail, localFront, ⟨hc.size, ?_, ?_, hc.localTail_eq,
    hc.localFront_eq, hc.le_localTail, ?_, Nat.le_succ_of_le hc.localFront_le, ?_, ?_⟩⟩
  · exact (congrArg (fun i => (i + 1) &&& b.sizeMask) hc.front_eq).trans (wrap_succ hc.size front)
  · rw [Nat.zero_add, Nat.add_assoc]
    exact hc.tail_eq
  · have hhigh := hc.localTail_le
    omega
  · change front + 1 + (0 + contents.length) + pending.length ≤ localFront + b.sizeMask
    omega
  · exact hc.cells.advance (by simp; omega)

theorem room_of_nil (h : Stores b 0 [] []) : b.loadFront.nextTail ≠ b.loadFront.localFront := by
  intro hfull
  obtain ⟨k, hk⟩ : ∃ k, b.sizeMask + 1 = 2 ^ (k + 1) := by
    obtain ⟨front, localTail, localFront, hc⟩ := h
    exact hc.size
  have hmask : 0 = b.sizeMask := h.full hfull
  have htwo : 2 ≤ 2 ^ (k + 1) := Nat.le_self_pow k.succ_ne_zero 2
  omega

theorem withFirst (k : ℕ) (v : T) (next : Option ℕ) :
    Stores (withFirst (2 ^ (k + 1)) v next) 0 [v] [] := by
  have hmake := make (T := T) k next
  have hone : (1 : ℕ) &&& (2 ^ (k + 1) - 1) = 1 := by
    rw [Nat.and_two_pow_sub_one_eq_mod]
    exact Nat.mod_eq_of_lt (Nat.one_lt_two_pow k.succ_ne_zero)
  have hstores := ((hmake.construct hmake.room_of_nil v).2.publishTail).loadTail
  have heq : Block.withFirst (2 ^ (k + 1)) v next =
      (Block.construct { makeBlock T (2 ^ (k + 1)) with next := next } v).publishTail.loadTail := by
    simp [Block.loadTail, Block.publishTail, nextTail, Block.construct, Block.withFirst, makeBlock,
      hone]
  rw [heq]
  exact hstores

theorem scan_eq (h : Stores b 0 contents []) : b.scan (b.sizeMask + 1) b.front = some contents := by
  have hlen := h.length_le
  obtain ⟨front, localTail, localFront, hc⟩ := h
  simp only [List.length_nil, Nat.zero_add, Nat.add_zero] at hlen
  have hloop : ∀ rest passed, contents = passed ++ rest → ∀ rounds, rest.length < rounds →
      b.scan rounds ((front + passed.length) % (b.sizeMask + 1)) = some rest := by
    intro rest
    induction rest with
    | nil =>
      intro passed heq rounds hrounds
      obtain ⟨rounds, rfl⟩ := Nat.exists_eq_succ_of_ne_zero (Nat.ne_zero_of_lt hrounds)
      rw [List.append_nil] at heq
      rw [scan, if_pos]
      rw [hc.tail_eq, heq, Nat.zero_add]
    | cons v rest ih =>
      intro passed heq rounds hrounds
      obtain ⟨rounds, rfl⟩ := Nat.exists_eq_succ_of_ne_zero (Nat.ne_zero_of_lt hrounds)
      have hcount : contents.length = passed.length + (rest.length + 1) := by
        rw [heq, List.length_append, List.length_cons]
      have hcell : b.data ((front + passed.length) % (b.sizeMask + 1)) = some v := by
        rw [hc.cells.cell_eq (by omega)]
        simp [layout, heq]
      have hmore : (front + passed.length) % (b.sizeMask + 1) ≠ b.tail := by
        rw [hc.tail_eq, Nat.zero_add]
        exact (mod_ne_of_lt (by omega) (by omega)).symm
      have hrest := ih (passed ++ [v]) (by simp [heq]) rounds (Nat.lt_of_succ_lt_succ hrounds)
      rw [List.length_append, List.length_singleton, ← Nat.add_assoc, ← wrap_succ hc.size] at hrest
      rw [scan, if_neg hmore, hcell, Option.bind_some, hrest, Option.map_some]
  have hstart := hloop contents [] rfl (b.sizeMask + 1) (Nat.lt_succ_of_le hlen)
  rwa [List.length_nil, Nat.add_zero front, ← hc.front_eq] at hstart

theorem distance_eq (h : Stores b 0 contents []) (hsize : b.sizeMask + 1 ≤ 2 ^ 64) :
    ((b.tail + (2 ^ 64 - b.front)) % 2 ^ 64) &&& b.sizeMask = contents.length := by
  have hlen := h.length_le
  obtain ⟨front, localTail, localFront, hc⟩ := h
  simp only [List.length_nil, Nat.zero_add, Nat.add_zero] at hlen
  obtain ⟨k, hk⟩ := hc.size
  have hdvd : b.sizeMask + 1 ∣ 2 ^ 64 := by
    rw [hk] at hsize ⊢
    exact Nat.pow_dvd_pow 2 ((Nat.pow_le_pow_iff_right Nat.one_lt_two).mp hsize)
  have hlt : b.front < b.sizeMask + 1 := hc.front_eq ▸ Nat.mod_lt _ (Nat.succ_pos _)
  have hfrontMod : b.front ≡ front [MOD b.sizeMask + 1] := by
    rw [hc.front_eq]
    exact Nat.mod_modEq _ _
  have htailMod : b.tail ≡ front + contents.length [MOD b.sizeMask + 1] := by
    rw [hc.tail_eq, Nat.zero_add]
    exact Nat.mod_modEq _ _
  have hzero : 2 ^ 64 ≡ 0 [MOD b.sizeMask + 1] := Nat.modEq_zero_iff_dvd.mpr hdvd
  have hsum : b.tail + (2 ^ 64 - b.front) ≡ contents.length [MOD b.sizeMask + 1] := by
    apply Nat.ModEq.add_left_cancel hfrontMod
    calc b.front + (b.tail + (2 ^ 64 - b.front)) = b.tail + 2 ^ 64 := by omega
      _ ≡ front + contents.length + 0 [MOD b.sizeMask + 1] := htailMod.add hzero
      _ = front + contents.length := rfl
  rw [wrap_eq hc.size, Nat.mod_mod_of_dvd _ hdvd]
  exact Eq.trans hsum (Nat.mod_eq_of_lt (Nat.lt_succ_of_le hlen))

end Stores
end Block
end MessagePass.QueueBlocks
