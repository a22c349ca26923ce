import Mathlib.Data.Nat.Bitwise
import Mathlib.Data.Nat.Log

/-!
# Rounding up to powers of two by smearing bits

Or-ing a number with copies of itself shifted right by 1, 2, 4, … sets every bit below its highest
one. The number that follows is the least power of two above it.
-/
namespace MessagePass.PowersOfTwo

/-- Every bit of `x` has been copied to the `n` places that end at its own. -/
def Smeared (n x y : ℕ) : Prop := ∀ i, y.testBit i = true ↔ ∃ j < n, x.testBit (i + j) = true

variable {n x y : ℕ}

theorem smeared_one (x : ℕ) : Smeared 1 x x := by
  intro i
  simp

theorem Smeared.double (h : Smeared n x y) : Smeared (2 * n) x (y ||| y >>> n) := by
  intro i
  rw [Nat.testBit_or, Nat.testBit_shiftRight, Bool.or_eq_true, h i, h (n + i)]
  constructor
  · rintro (⟨j, hj, hbit⟩ | ⟨j, hj, hbit⟩)
    · exact ⟨j, by omega, hbit⟩
    · refine ⟨n + j, by omega, ?_⟩
      rwa [← Nat.add_assoc, Nat.add_comm i n]
  · rintro ⟨j, hj, hbit⟩
    rcases Nat.lt_or_ge j n with hlt | hge
    · exact .inl ⟨j, hlt, hbit⟩
    · refine .inr ⟨j - n, by omega, ?_⟩
      rwa [Nat.add_comm n i, Nat.add_assoc, Nat.add_sub_cancel' hge]

theorem testBit_clog_pred (h : 0 < Nat.clog 2 (x + 1)) :
    x.testBit (Nat.clog 2 (x + 1) - 1) = true := by
  have hhigh : 2 ^ (Nat.clog 2 (x + 1) - 1) < x + 1 :=
    (Nat.lt_clog_iff_pow_lt Nat.one_lt_two).mp (Nat.sub_lt h Nat.one_pos)
  have hlow : x < 2 ^ Nat.clog 2 (x + 1) := Nat.le_pow_clog Nat.one_lt_two (x + 1)
  apply Nat.testBit_of_two_pow_le_and_two_pow_add_one_gt
  · exact Nat.le_of_lt_succ hhigh
  · rwa [Nat.sub_add_cancel h]

/-- Smearing over the whole width of a number leaves ones only. -/
theorem Smeared.succ_eq (h : Smeared n x y) (hx : x < 2 ^ n) : y + 1 = 2 ^ Nat.clog 2 (x + 1) := by
  have hwidth : Nat.clog 2 (x + 1) ≤ n := Nat.clog_le_of_le_pow hx
  have hlow : x < 2 ^ Nat.clog 2 (x + 1) := Nat.le_pow_clog Nat.one_lt_two (x + 1)
  have hones : y = 2 ^ Nat.clog 2 (x + 1) - 1 := by
    apply Nat.eq_of_testBit_eq
    intro i
    rw [Bool.eq_iff_iff, h i, Nat.testBit_two_pow_sub_one, decide_eq_true_eq]
    constructor
    · rintro ⟨j, -, hbit⟩
      by_contra hge
      rw [Nat.testBit_lt_two_pow] at hbit
      · cases hbit
      · exact Nat.lt_of_lt_of_le hlow (Nat.pow_le_pow_right Nat.two_pos (by omega))
    · intro hi
      refine ⟨Nat.clog 2 (x + 1) - 1 - i, by omega, ?_⟩
      rw [Nat.add_sub_cancel' (by omega)]
      exact testBit_clog_pred (Nat.zero_lt_of_lt hi)
  rw [hones, Nat.sub_add_cancel Nat.one_le_two_pow]

end MessagePass.PowersOfTwo
