import Mathlib.Algebra.GroupWithZero.Nat
import Lixy.Foundation.ByteStrings

/-! One's-complement sums: addition with an end-around carry, what a sum of words is modulo the
base less one, and why the order of the bytes in the words does not matter to a complete sum.
-/

namespace OnesComplement

open ByteStrings

-----------------------------------------------------------------------------------------
-- Sums with an end-around carry
-----------------------------------------------------------------------------------------

/-- Addition below `base` with the carry added at the low end. -/
def endAround (base a b : Nat) : Nat := if a + b < base then a + b else a + b - (base - 1)

/-- The one's-complement sum of words below `base`. -/
def onesSum (base : Nat) (words : List Nat) : Nat := words.foldr (endAround base) 0

section

variable {base a b : Nat} {words : List Nat}

theorem endAround_lt (left : a < base) (right : b < base) : endAround base a b < base := by
  unfold endAround
  split <;> omega

/-- A carry is worth one, as `base` is modulo the base less one. -/
theorem endAround_mod : endAround base a b % (base - 1) = (a + b) % (base - 1) := by
  unfold endAround
  split
  · rfl
  · next carry => exact (Nat.mod_eq_sub_mod (by omega)).symm

/-- A carry leaves no zero. -/
theorem endAround_eq_zero (left : a < base) : endAround base a b = 0 ↔ a + b = 0 := by
  unfold endAround
  split <;> omega

theorem onesSum_cons : onesSum base (a :: words) = endAround base a (onesSum base words) := rfl

/-- A sum is a word; by induction on the words. -/
theorem onesSum_lt (positive : 0 < base) (below : ∀ word ∈ words, word < base)
    : onesSum base words < base := by
  induction words with
  | nil => exact positive
  | cons word rest ih =>
      obtain ⟨first, others⟩ := List.forall_mem_cons.mp below
      exact endAround_lt first (ih others)

/-- It is the sum of the words modulo the base less one. -/
theorem onesSum_mod : onesSum base words % (base - 1) = words.sum % (base - 1) := by
  induction words with
  | nil => rfl
  | cons word rest ih =>
      rw [onesSum_cons, endAround_mod, List.sum_cons, Nat.add_mod, ih, ← Nat.add_mod]

/-- It is 0 only for zeros. -/
theorem onesSum_eq_zero (below : ∀ word ∈ words, word < base)
    : onesSum base words = 0 ↔ words.sum = 0 := by
  induction words with
  | nil => exact Iff.rfl
  | cons word rest ih =>
      obtain ⟨first, others⟩ := List.forall_mem_cons.mp below
      rw [onesSum_cons, endAround_eq_zero first, List.sum_cons, Nat.add_eq_zero_iff,
        Nat.add_eq_zero_iff, ih others]

/-- The sum has all its bits set exactly when the words add up to a multiple of the base less one
that is not 0.
-/
theorem onesSum_eq_top_iff (big : 1 < base) (below : ∀ word ∈ words, word < base)
    : onesSum base words = base - 1 ↔ words.sum % (base - 1) = 0 ∧ 0 < words.sum := by
  have lt := onesSum_lt (by omega) below
  have same : onesSum base words % (base - 1) = words.sum % (base - 1) := onesSum_mod
  have zero := onesSum_eq_zero below
  constructor
  · intro top
    rw [top, Nat.mod_self] at same
    exact ⟨same.symm, by omega⟩
  · rintro ⟨multiple, positive⟩
    rw [multiple] at same
    have at_least : base - 1 ≤ onesSum base words :=
      Nat.le_of_dvd (by omega) (Nat.dvd_of_mod_eq_zero same)
    omega

end

-----------------------------------------------------------------------------------------
-- Words of bytes
-----------------------------------------------------------------------------------------

/-- The 16-bit words of a byte string, each made of its two bytes by `word`; a last odd byte is
left out.
-/
def words (word : Byte → Byte → Nat) : List Byte → List Nat
  | a :: b :: rest => word a b :: words word rest
  | _ => []

/-- Words with the low byte first. -/
def lowFirst (lo hi : Byte) : Nat := be16 hi lo

/-- Machine words of two bytes are below 65536. -/
theorem words_lt {word : Byte → Byte → Nat} (below : ∀ a b, word a b < 65536) (bs : List Byte)
    : ∀ w ∈ words word bs, w < 65536 := by
  induction bs using words.induct with
  | case1 a b rest ih => exact List.forall_mem_cons.mpr ⟨below a b, ih⟩
  | case2 bs short =>
      rw [words]
      · exact fun _ mem => absurd mem List.not_mem_nil
      · exact short

theorem be16_lt (hi lo : Byte) : be16 hi lo < 65536 := by
  have := hi.isLt
  have := lo.isLt
  simp only [be16]
  omega

theorem lowFirst_lt (lo hi : Byte) : lowFirst lo hi < 65536 := be16_lt hi lo

/-- The bytes swapped, each word is 256 times as much modulo 65535; so is the sum, by induction
on the words.
-/
theorem sum_words_swapped (bs : List Byte)
    : (words be16 bs).sum % 65535 = 256 * (words lowFirst bs).sum % 65535
      ∧ (words lowFirst bs).sum ≤ 256 * (words be16 bs).sum := by
  induction bs using words.induct with
  | case1 a b rest ih =>
      simp only [words, List.sum_cons, lowFirst, be16]
      omega
  | case2 bs short =>
      rw [words, words]
      · exact ⟨rfl, Nat.le_refl _⟩
      · exact short
      · exact short

/-- A sum that is complete with the low bytes first is complete in network order. -/
theorem onesSum_swapped {bs : List Byte} (complete : onesSum 65536 (words lowFirst bs) = 65535)
    : onesSum 65536 (words be16 bs) = 65535 := by
  obtain ⟨multiple, positive⟩ :=
    (onesSum_eq_top_iff (by decide) (words_lt lowFirst_lt bs)).mp complete
  obtain ⟨swapped, bound⟩ := sum_words_swapped bs
  refine (onesSum_eq_top_iff (by decide) (words_lt be16_lt bs)).mpr ⟨?_, by omega⟩
  omega

end OnesComplement
