import Mathlib.Data.List.Basic
import Mathlib.Data.UInt
import Mathlib.Tactic.Ring

/-!
# Base-128 numbers

A variable-length number is written in groups of seven bits, lowest group first, with the high
bit set in every byte but the last. The canonical form stops at the last non-zero group, so a
byte of it is zero only when the number is.
-/
namespace MessagePass.Base128

/-- The canonical form of a number of at most `k + 1` groups. -/
def encode : ℕ → ℕ → List UInt8
  | 0, n => [UInt8.ofNat n]
  | k + 1, n =>
      if n < 128 then [UInt8.ofNat n] else UInt8.ofNat (n % 128 + 128) :: encode k (n / 128)

/-- Reads a number of at most `k` bytes and returns what follows it. -/
def decode : ℕ → List UInt8 → Option (ℕ × List UInt8)
  | 0, _ | _ + 1, [] => none
  | k + 1, b :: bs =>
      if b.toNat < 128 then some (b.toNat, bs)
      else (decode k bs).map fun (n, rest) => (b.toNat - 128 + 128 * n, rest)

theorem encode_of_lt (k : ℕ) {n : ℕ} (h : n < 128) : encode k n = [UInt8.ofNat n] := by
  cases k with
  | zero => rfl
  | succ k => simp [encode, h]

theorem encode_of_ge (k : ℕ) {n : ℕ} (h : 128 ≤ n) :
    encode (k + 1) n = UInt8.ofNat (n % 128 + 128) :: encode k (n / 128) := by
  simp [encode, Nat.not_lt.mpr h]

private theorem toNat_last {n : ℕ} (h : n < 128) : (UInt8.ofNat n).toNat = n :=
  UInt8.toNat_ofNat_of_lt' (by rw [UInt8.size]; omega)

private theorem toNat_group (n : ℕ) : (UInt8.ofNat (n % 128 + 128)).toNat = n % 128 + 128 :=
  UInt8.toNat_ofNat_of_lt' (by rw [UInt8.size]; omega)

theorem zero_notMem_encode {k n : ℕ} (hpos : 0 < n) (hn : n < 128 ^ (k + 1)) :
    (0 : UInt8) ∉ encode k n := by
  have hlast : ∀ m, 0 < m → m < 128 → (0 : UInt8) ∉ [UInt8.ofNat m] := by
    intro m hm hlt hmem
    have hz := congrArg UInt8.toNat (List.mem_singleton.mp hmem)
    rw [toNat_last hlt] at hz
    exact hm.ne hz
  induction k generalizing n with
  | zero => exact hlast n hpos (by simpa using hn)
  | succ k ih =>
    rcases lt_or_ge n 128 with hlt | hge
    · rw [encode_of_lt _ hlt]
      exact hlast n hpos hlt
    · rw [encode_of_ge k hge]
      have hrest : n / 128 < 128 ^ (k + 1) := Nat.div_lt_of_lt_mul (by rwa [pow_succ'] at hn)
      intro hmem
      rcases List.mem_cons.mp hmem with hhead | htail
      · have hz := congrArg UInt8.toNat hhead
        rw [toNat_group] at hz
        simp at hz
      · exact ih (Nat.div_pos hge (by decide)) hrest htail

/-- Reading back the canonical form leaves exactly what follows it. -/
theorem decode_encode {k n : ℕ} (hn : n < 128 ^ (k + 1)) (rest : List UInt8) :
    decode (k + 1) (encode k n ++ rest) = some (n, rest) := by
  induction k generalizing n with
  | zero =>
    have hlt : n < 128 := by simpa using hn
    simp [encode, decode, toNat_last hlt, hlt]
  | succ k ih =>
    rcases lt_or_ge n 128 with hlt | hge
    · rw [encode_of_lt _ hlt]
      simp [decode, toNat_last hlt, hlt]
    · have hrest : n / 128 < 128 ^ (k + 1) := Nat.div_lt_of_lt_mul (by rwa [pow_succ'] at hn)
      rw [encode_of_ge k hge, List.cons_append, decode, toNat_group, ih hrest]
      simp [Nat.mod_add_div]

theorem decode_append {k n : ℕ} {bs rest : List UInt8} (h : decode k bs = some (n, rest))
    (after : List UInt8) : decode k (bs ++ after) = some (n, rest ++ after) := by
  induction k generalizing bs n with
  | zero => simp [decode] at h
  | succ k ih =>
    cases bs with
    | nil => simp [decode] at h
    | cons b bs =>
      rw [decode] at h
      rw [List.cons_append, decode]
      split at h <;> rename_i hb
      · cases h
        rw [if_pos hb]
      · obtain ⟨⟨m, left⟩, hm, heq⟩ := Option.map_eq_some_iff.mp h
        cases heq
        rw [if_neg hb, ih hm]
        rfl

end MessagePass.Base128
