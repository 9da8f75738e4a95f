import Mathlib.Data.Int.Bitwise
import Mathlib.Data.Nat.Bitwise
import Mathlib.Tactic.Ring

/-!
# Alignment with bit masks

What the usual bit tricks compute for a power of two : the low bits (`land_two_pow_sub_one`), the
next lower multiple (`land_neg_two_pow`), and the larger of two powers (`neg_land_neg_two_pow`).
-/

namespace Arancini

theorem ldiff_two_pow_sub_one (k m : ℕ) : Nat.ldiff (2 ^ k - 1) m = 2 ^ k - (m % 2 ^ k + 1) := by
  refine Nat.eq_of_testBit_eq fun i => ?_
  rw [Nat.testBit_ldiff, Nat.testBit_two_pow_sub_one,
    Nat.testBit_two_pow_sub_succ (Nat.mod_lt _ (Nat.two_pow_pos k)), Nat.testBit_mod_two_pow]
  by_cases hi : i < k
  · simp [hi]
  · simp [hi]

theorem ldiff_mask (k m : ℕ) : Nat.ldiff m (2 ^ k - 1) = m / 2 ^ k * 2 ^ k := by
  refine Nat.eq_of_testBit_eq fun i => ?_
  rw [Nat.testBit_ldiff, Nat.testBit_two_pow_sub_one, Nat.testBit_mul_two_pow,
    Nat.testBit_div_two_pow]
  by_cases hi : i < k
  · simp [hi]
  · simp [hi, Nat.le_of_not_lt hi]

theorem lor_two_pow_sub_one (i j : ℕ) : (2 ^ i - 1) ||| (2 ^ j - 1) = 2 ^ max i j - 1 := by
  refine Nat.eq_of_testBit_eq fun k => ?_
  simp only [Nat.testBit_or, Nat.testBit_two_pow_sub_one, lt_max_iff, Bool.decide_or]

theorem cast_two_pow_sub_one (k : ℕ) : ((2 ^ k - 1 : ℕ) : ℤ) = 2 ^ k - 1 := by
  rw [Nat.cast_sub Nat.one_le_two_pow]
  push_cast
  rfl

theorem neg_two_pow (k : ℕ) : -(2 ^ k : ℤ) = Int.negSucc (2 ^ k - 1) := by
  rw [Int.negSucc_eq, cast_two_pow_sub_one, sub_add_cancel]

/-- `x & (align - 1)`. -/
theorem land_two_pow_sub_one (x : ℤ) (k : ℕ) : x.land (2 ^ k - 1) = x % 2 ^ k := by
  rw [← cast_two_pow_sub_one]
  cases x with
  | ofNat m =>
    have hland : (m : ℤ).land (2 ^ k - 1 : ℕ) = (m &&& (2 ^ k - 1) : ℕ) := rfl
    rw [Int.ofNat_eq_natCast, hland, Nat.and_two_pow_sub_one_eq_mod]
    push_cast
    rfl
  | negSucc m =>
    have hland : (Int.negSucc m).land (2 ^ k - 1 : ℕ) = (Nat.ldiff (2 ^ k - 1) m : ℕ) := rfl
    have hlt := Nat.mod_lt m (Nat.two_pow_pos k)
    rw [hland, ldiff_two_pow_sub_one, Nat.cast_sub (by omega),
      Int.negSucc_emod _ (Int.pow_pos (by decide))]
    push_cast
    ring

/-- `x & -align`. -/
theorem land_neg_two_pow (m k : ℕ) : (m : ℤ).land (-2 ^ k) = m - m % 2 ^ k := by
  have hland : (m : ℤ).land (Int.negSucc (2 ^ k - 1)) = (Nat.ldiff m (2 ^ k - 1) : ℕ) := rfl
  rw [neg_two_pow, hland, ldiff_mask]
  have hdiv := Int.ediv_mul_add_emod (m : ℤ) (2 ^ k)
  push_cast
  omega

/-- `-(-a & -b)`. -/
theorem neg_land_neg_two_pow (i j : ℕ) :
    -((-2 ^ i : ℤ).land (-2 ^ j)) = 2 ^ max i j := by
  have hland : (Int.negSucc (2 ^ i - 1)).land (Int.negSucc (2 ^ j - 1)) =
      Int.negSucc ((2 ^ i - 1) ||| (2 ^ j - 1)) := rfl
  rw [neg_two_pow, neg_two_pow, hland, lor_two_pow_sub_one, ← neg_two_pow, neg_neg]

end Arancini
