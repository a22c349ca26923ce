import Mathlib.Data.List.Basic
import Mathlib.Data.UInt

/-!
# Little-endian words

The memory image of an unsigned 64-bit word on a little-endian machine, and the word read back
from the first eight bytes of a buffer, whatever they held before.
-/
namespace MessagePass.LittleEndian

def valueOf : List UInt8 → ℕ
  | [] => 0
  | b :: bs => b.toNat + 256 * valueOf bs

/-- The lowest `n` bytes of a number, lowest byte first. -/
def bytesOf : ℕ → ℕ → List UInt8
  | 0, _ => []
  | n + 1, v => UInt8.ofNat (v % 256) :: bytesOf n (v / 256)

@[simp] theorem length_bytesOf (n v : ℕ) : (bytesOf n v).length = n := by
  induction n generalizing v with
  | zero => rfl
  | succ n ih => simp [bytesOf, ih]

theorem valueOf_bytesOf (n v : ℕ) : valueOf (bytesOf n v) = v % 256 ^ n := by
  induction n generalizing v with
  | zero => simp [bytesOf, valueOf, Nat.mod_one]
  | succ n ih =>
    have hb : (UInt8.ofNat (v % 256)).toNat = v % 256 := by simp
    rw [bytesOf, valueOf, hb, ih, pow_succ', Nat.mod_mul]

theorem bytesOf_valueOf (bs : List UInt8) : bytesOf bs.length (valueOf bs) = bs := by
  induction bs with
  | nil => rfl
  | cons b bs ih =>
    have hlow : (b.toNat + 256 * valueOf bs) % 256 = b.toNat := by
      rw [Nat.add_mul_mod_self_left, Nat.mod_eq_of_lt b.toNat_lt]
    have hhigh : (b.toNat + 256 * valueOf bs) / 256 = valueOf bs := by
      rw [Nat.add_mul_div_left _ _ (by decide), Nat.div_eq_of_lt b.toNat_lt, Nat.zero_add]
    rw [List.length_cons, bytesOf, valueOf, hlow, hhigh, ih, UInt8.ofNat_toNat]

/-- The eight bytes of a `std::size_t` in memory. -/
def image (w : UInt64) : List UInt8 := bytesOf 8 w.toNat

/-- The `std::size_t` whose memory image starts with the given bytes. -/
def word (bs : List UInt8) : UInt64 := UInt64.ofNat (valueOf (bs.take 8))

@[simp] theorem length_image (w : UInt64) : (image w).length = 8 := length_bytesOf 8 _

@[simp] theorem word_image (w : UInt64) : word (image w) = w := by
  have hw : w.toNat % 256 ^ 8 = w.toNat := Nat.mod_eq_of_lt w.toNat_lt
  have ht : (image w).take 8 = image w := List.take_of_length_le (by simp)
  rw [word, ht, image, valueOf_bytesOf, hw, UInt64.ofNat_toNat]

theorem word_image_append (w : UInt64) (bs : List UInt8) : word (image w ++ bs) = w := by
  have ht : (image w ++ bs).take 8 = (image w).take 8 := by
    rw [List.take_append_of_le_length (by simp)]
  rw [word, ht, ← word, word_image]

theorem valueOf_lt (bs : List UInt8) : valueOf bs < 256 ^ bs.length := by
  induction bs with
  | nil => simp [valueOf]
  | cons b bs ih =>
    have hb := b.toNat_lt
    rw [valueOf, List.length_cons, pow_succ]
    omega

theorem image_word {bs : List UInt8} (h : 8 ≤ bs.length) : image (word bs) = bs.take 8 := by
  have hlength : (bs.take 8).length = 8 := by simpa using h
  have hvalue : (word bs).toNat = valueOf (bs.take 8) := by
    apply Nat.mod_eq_of_lt
    have := valueOf_lt (bs.take 8)
    rwa [hlength] at this
  calc image (word bs) = bytesOf (bs.take 8).length (valueOf (bs.take 8)) := by
        rw [image, hvalue, hlength]
    _ = bs.take 8 := bytesOf_valueOf _

theorem image_injective {v w : UInt64} (h : image v = image w) : v = w := by
  rw [← word_image v, h, word_image]

end MessagePass.LittleEndian
