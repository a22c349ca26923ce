import Mathlib.Data.Nat.ModEq
import Mathlib.Data.List.Basic
import Mathlib.Logic.Function.Basic

/-!
# Circular arrays

An array of a fixed size whose indices wrap around. Indices are counted without wrapping, and a
position is the remainder of its index; as long as two indices lie less than a revolution apart
their positions tell them apart. The layout of an array lists its cells from some index on; the
cells that the layout does not reach are empty.
-/
namespace MessagePass.CircularArrays

variable {α : Type*}

theorem mod_eq_iff {i j size : ℕ} (hle : i ≤ j) (hlt : j < i + size) :
    j % size = i % size ↔ j = i := by
  constructor
  · intro h
    obtain ⟨d, rfl⟩ := Nat.exists_eq_add_of_le hle
    have hd : d ≡ 0 [MOD size] := Nat.ModEq.add_left_cancel' i h
    have hzero : d = 0 := by
      rw [Nat.ModEq, Nat.mod_eq_of_lt (by omega), Nat.zero_mod] at hd
      exact hd
    rw [hzero, Nat.add_zero]
  · exact fun h => h ▸ rfl

theorem mod_ne_of_lt {i j size : ℕ} (hlt : i < j) (hbound : j < i + size) :
    j % size ≠ i % size :=
  (mod_eq_iff (Nat.le_of_lt hlt) hbound).not.mpr (Nat.ne_of_gt hlt)

/-- A mask of ones wraps an index around an array whose size is a power of two. -/
theorem and_mask {size k : ℕ} (hsize : size = 2 ^ k) (i : ℕ) : i &&& (size - 1) = i % size := by
  rw [hsize, Nat.and_two_pow_sub_one_eq_mod]

/-- The cells from an index on, once around, hold the layout and then nothing. -/
def Holds (size : ℕ) (cells : ℕ → Option α) (start : ℕ) (layout : List (Option α)) : Prop :=
  ∀ i < size, cells ((start + i) % size) = layout[i]?.join

variable {size start : ℕ} {cells : ℕ → Option α} {layout : List (Option α)}

theorem holds_nil (h : ∀ i < size, cells i = none) : Holds size cells start [] := by
  intro i hi
  simpa using h _ (Nat.mod_lt _ (Nat.zero_lt_of_lt hi))

namespace Holds

theorem cell_eq (h : Holds size cells start layout) {i : ℕ} (hi : i < size) :
    cells ((start + i) % size) = layout[i]?.join := h i hi

theorem head {x : Option α} (h : Holds size cells start (x :: layout)) (hsize : 0 < size) :
    cells (start % size) = x := by
  simpa using h 0 hsize

theorem free (h : Holds size cells start layout) (hlt : layout.length < size) :
    cells ((start + layout.length) % size) = none := by
  simpa using h _ hlt

theorem push (h : Holds size cells start layout) (hlt : layout.length < size) (x : Option α) :
    Holds size (Function.update cells ((start + layout.length) % size) x) start
      (layout ++ [x]) := by
  intro i hi
  rcases Nat.lt_trichotomy i layout.length with hlen | rfl | hlen
  · rw [Function.update_of_ne, h i hi, List.getElem?_append_left hlen]
    exact (mod_ne_of_lt (Nat.add_lt_add_left hlen start) (by omega)).symm
  · simp
  · rw [Function.update_of_ne, h i hi, List.getElem?_eq_none (by omega),
      List.getElem?_eq_none (by simpa using Nat.succ_le_of_lt hlen)]
    exact mod_ne_of_lt (Nat.add_lt_add_left hlen start) (by omega)

theorem setHead {x : Option α} (h : Holds size cells start (x :: layout)) (y : Option α) :
    Holds size (Function.update cells (start % size) y) start (y :: layout) := by
  intro i hi
  cases i with
  | zero => simp
  | succ i =>
    rw [Function.update_of_ne, h _ hi, List.getElem?_cons_succ, List.getElem?_cons_succ]
    exact mod_ne_of_lt (Nat.lt_add_of_pos_right i.succ_pos) (by omega)

theorem advance (h : Holds size cells start (none :: layout)) (hlt : layout.length < size) :
    Holds size cells (start + 1) layout := by
  intro i hi
  rw [Nat.add_assoc, Nat.add_comm 1 i]
  rcases Nat.lt_or_eq_of_le (Nat.succ_le_of_lt hi) with hnext | rfl
  · rw [h (i + 1) hnext, List.getElem?_cons_succ]
  · rw [Nat.add_mod_right]
    have hlast : layout[i]? = none := List.getElem?_eq_none (Nat.le_of_lt_succ hlt)
    simpa [hlast] using h 0 (Nat.succ_pos i)

end Holds
end MessagePass.CircularArrays
