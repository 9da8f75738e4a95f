import Mathlib.Algebra.Order.Ring.Int
import Mathlib.Tactic.Positivity

/-!
# Signed arithmetic on bit vectors

What the sum and the difference of two bit vectors are as integers, and how an unsigned
comparison of two bit vectors follows from their signs. `H` below is `2 ^ (w - 1)`, so
that the goals that are left are linear in `H`.
-/

namespace Arancini

variable {w n : ℕ}

/-- Two to the width. -/
theorem two_pow_eq (hw : 0 < w) : (2 : ℤ) ^ w = 2 * 2 ^ (w - 1) := by
  rw [← pow_succ', Nat.sub_add_cancel hw]

/-- The signed and the unsigned reading of a bit vector. -/
theorem toNat_cases (hw : 0 < w) (x : BitVec w) :
    (0 ≤ x.toInt ∧ (x.toNat : ℤ) = x.toInt) ∨
      (x.toInt < 0 ∧ (x.toNat : ℤ) = x.toInt + 2 * 2 ^ (w - 1)) := by
  have h := BitVec.toInt_eq_toNat_cond x
  have hlt := x.isLt
  have hpow : ((2 ^ w : ℕ) : ℤ) = 2 * 2 ^ (w - 1) := by
    push_cast
    exact two_pow_eq hw
  split at h <;> omega

/-- An integer less than a modulus away from the range wraps around once. -/
theorem bmod_cases (hw : 0 < w) {s : ℤ} (hl : -(2 * 2 ^ (w - 1)) ≤ s)
    (hr : s < 2 * 2 ^ (w - 1)) :
    (-2 ^ (w - 1) ≤ s ∧ s < 2 ^ (w - 1) ∧ s.bmod (2 ^ w) = s) ∨
      (2 ^ (w - 1) ≤ s ∧ s.bmod (2 ^ w) = s - 2 * 2 ^ (w - 1)) ∨
      (s < -2 ^ (w - 1) ∧ s.bmod (2 ^ w) = s + 2 * 2 ^ (w - 1)) := by
  have hpow : ((2 ^ w : ℕ) : ℤ) = 2 * 2 ^ (w - 1) := by
    push_cast
    exact two_pow_eq hw
  by_cases hlow : s < -2 ^ (w - 1)
  · refine .inr (.inr ⟨hlow, ?_⟩)
    rw [← Int.add_bmod_right, Int.bmod_eq_of_le_mul_two] <;> omega
  · by_cases hhigh : 2 ^ (w - 1) ≤ s
    · refine .inr (.inl ⟨hhigh, ?_⟩)
      rw [← Int.sub_bmod_right, Int.bmod_eq_of_le_mul_two] <;> omega
    · refine .inl ⟨by omega, by omega, ?_⟩
      exact Int.bmod_eq_of_le_mul_two (by omega) (by omega)

/-- The sum as integers, and its wrapped value. -/
theorem toInt_add_cases (hw : 0 < w) (x y : BitVec w) :
    (-2 ^ (w - 1) ≤ x.toInt + y.toInt ∧ x.toInt + y.toInt < 2 ^ (w - 1) ∧
      (x + y).toInt = x.toInt + y.toInt) ∨
      (2 ^ (w - 1) ≤ x.toInt + y.toInt ∧
        (x + y).toInt = x.toInt + y.toInt - 2 * 2 ^ (w - 1)) ∨
      (x.toInt + y.toInt < -2 ^ (w - 1) ∧
        (x + y).toInt = x.toInt + y.toInt + 2 * 2 ^ (w - 1)) := by
  have hx := x.le_toInt
  have hy := y.le_toInt
  have hx' := x.toInt_lt
  have hy' := y.toInt_lt
  rw [BitVec.toInt_add]
  exact bmod_cases hw (by omega) (by omega)

/-- The difference as integers, and its wrapped value. -/
theorem toInt_sub_cases (hw : 0 < w) (x y : BitVec w) :
    (-2 ^ (w - 1) ≤ x.toInt - y.toInt ∧ x.toInt - y.toInt < 2 ^ (w - 1) ∧
      (x - y).toInt = x.toInt - y.toInt) ∨
      (2 ^ (w - 1) ≤ x.toInt - y.toInt ∧
        (x - y).toInt = x.toInt - y.toInt - 2 * 2 ^ (w - 1)) ∨
      (x.toInt - y.toInt < -2 ^ (w - 1) ∧
        (x - y).toInt = x.toInt - y.toInt + 2 * 2 ^ (w - 1)) := by
  have hx := x.le_toInt
  have hy := y.le_toInt
  have hx' := x.toInt_lt
  have hy' := y.toInt_lt
  rw [BitVec.toInt_sub]
  exact bmod_cases hw (by omega) (by omega)

/-- The low bits of a bit vector, as a signed number of its own width. -/
def sext (w : ℕ) (x : BitVec n) : BitVec n :=
  (x.setWidth w).signExtend n

/-- Shifting left and back, arithmetically, extends the sign of the low bits. -/
theorem sshiftRight_shiftLeft (hw : 0 < w) (hwn : w ≤ n) (x : BitVec n) :
    (x <<< (n - w)).sshiftRight (n - w) = sext w x := by
  ext i hi
  simp [sext, BitVec.getElem_sshiftRight, BitVec.getElem_signExtend, BitVec.msb_eq_getLsbD_last]
  grind

/-- Shifting left and back keeps the low bits. -/
theorem ushiftRight_shiftLeft (hwn : w ≤ n) (x : BitVec n) :
    (x <<< (n - w)) >>> (n - w) = (x.setWidth w).setWidth n := by
  ext i hi
  have hlt : n - w + i < n ↔ i < w := by omega
  simp [hlt]

@[simp] theorem setWidth_signExtend (hwn : w ≤ n) (x : BitVec w) :
    (x.signExtend n).setWidth w = x := by
  ext i hi
  have hin : i < n := by omega
  simp [BitVec.getElem_signExtend, hi, hin]

theorem signExtend_zero : (0#w).signExtend n = 0#n := by
  simp [BitVec.signExtend]

theorem setWidth_sext (hwn : w ≤ n) (x : BitVec n) : (sext w x).setWidth w = x.setWidth w :=
  setWidth_signExtend hwn _

/-- The signed reading of a sign extension. -/
theorem toInt_signExtend (hwn : w ≤ n) (x : BitVec w) : (x.signExtend n).toInt = x.toInt :=
  BitVec.toInt_signExtend_of_le hwn

/-- Narrowing an extension extends less. -/
theorem setWidth_signExtend_of_le {m : ℕ} (hwm : w ≤ m) (hmn : m ≤ n) (x : BitVec w) :
    (x.signExtend n).setWidth m = x.signExtend m := by
  have hext : (x.signExtend m).signExtend n = x.signExtend n := by
    refine BitVec.eq_of_toInt_eq ?_
    rw [toInt_signExtend hmn, toInt_signExtend hwm, toInt_signExtend (hwm.trans hmn)]
  rw [← hext, setWidth_signExtend hmn]

/-- Widening keeps the unsigned number. -/
theorem toNat_setWidth_of_le (hwn : w ≤ n) (x : BitVec w) :
    (x.setWidth n).toNat = x.toNat := by
  rw [BitVec.toNat_setWidth, Nat.mod_eq_of_lt]
  exact x.isLt.trans_le (Nat.pow_le_pow_right (by decide) hwn)

/-- Nothing is left of a number when its bits are shifted out. -/
theorem ushiftRight_eq_zero_iff (x : BitVec w) (n : ℕ) : x >>> n = 0 ↔ x.toNat < 2 ^ n := by
  rw [← Nat.div_eq_zero_iff_lt (Nat.two_pow_pos n), ← Nat.shiftRight_eq_div_pow]
  exact ⟨fun h => by simpa using congrArg BitVec.toNat h,
    fun h => BitVec.eq_of_toNat_eq (by simpa using h)⟩

/-- What is above the low bits, bit by bit. -/
theorem ushiftRight_eq_iff {x y : BitVec w} {n : ℕ} :
    x >>> n = y >>> n ↔ ∀ i < w, n ≤ i → x.getLsbD i = y.getLsbD i := by
  constructor
  · intro h i hi hle
    have hbit := congrArg (BitVec.getLsbD · (i - n)) h
    simpa only [BitVec.getLsbD_ushiftRight, Nat.add_sub_cancel' hle] using hbit
  · intro h
    refine BitVec.eq_of_getLsbD_eq fun i hi => ?_
    rw [BitVec.getLsbD_ushiftRight, BitVec.getLsbD_ushiftRight]
    by_cases hin : n + i < w
    · exact h _ hin (Nat.le_add_right n i)
    · rw [BitVec.getLsbD_of_ge _ _ (by omega), BitVec.getLsbD_of_ge _ _ (by omega)]

theorem msb_eq_of_ushiftRight {x y : BitVec w} (hn : n < w) (h : x >>> n = y >>> n) :
    x.msb = y.msb := by
  rw [BitVec.msb_eq_getLsbD_last, BitVec.msb_eq_getLsbD_last]
  exact ushiftRight_eq_iff.1 h (w - 1) (by omega) (by omega)

/-- The low bits, extended with zeros. -/
theorem setWidth_setWidth_eq_self_iff (hwn : w ≤ n) (x : BitVec n) :
    (x.setWidth w).setWidth n = x ↔ x >>> w = 0 := by
  rw [ushiftRight_eq_zero_iff, ← BitVec.toNat_inj, toNat_setWidth_of_le hwn, BitVec.toNat_setWidth]
  exact ⟨fun h => h ▸ Nat.mod_lt _ (Nat.two_pow_pos w), Nat.mod_eq_of_lt⟩

/-- The signed reading of the low bits. -/
theorem toInt_setWidth_eq_bmod (hwn : w ≤ n) (x : BitVec n) :
    (x.setWidth w).toInt = x.toInt.bmod (2 ^ w) := by
  rw [BitVec.toInt_setWidth, ← Int.bmod_bmod_of_dvd (Nat.pow_dvd_pow 2 hwn),
    ← BitVec.toInt_eq_toNat_bmod]

/-- The low bits of a number. -/
theorem setWidth_ofInt (hwn : w ≤ n) (i : ℤ) :
    (BitVec.ofInt n i).setWidth w = BitVec.ofInt w i := by
  refine BitVec.eq_of_toInt_eq ?_
  rw [toInt_setWidth_eq_bmod hwn, BitVec.toInt_ofInt, BitVec.toInt_ofInt,
    Int.bmod_bmod_of_dvd (Nat.pow_dvd_pow 2 hwn)]

/-- A bit vector is its low bits as a signed number, or some turns away from it. -/
theorem toInt_cases_of_setWidth (hw : 0 < w) (hwn : w ≤ n) (x : BitVec n) :
    x.toInt = (x.setWidth w).toInt ∨ (x.setWidth w).toInt + 2 * 2 ^ (w - 1) ≤ x.toInt ∨
      x.toInt ≤ (x.setWidth w).toInt - 2 * 2 ^ (w - 1) := by
  have hdvd : (2 * 2 ^ (w - 1) : ℤ) ∣ x.toInt - (x.setWidth w).toInt := by
    rw [toInt_setWidth_eq_bmod hwn, ← two_pow_eq hw]
    exact_mod_cast Int.dvd_self_sub_bmod
  rcases lt_trichotomy x.toInt (x.setWidth w).toInt with hlt | heq | hgt
  · have := Int.le_of_dvd (by omega) ((dvd_sub_comm).1 hdvd)
    omega
  · exact .inl heq
  · have := Int.le_of_dvd (by omega) hdvd
    omega

/-- Narrowing a signed number that is in range keeps it. -/
theorem toInt_setWidth_of_range (hw : 0 < w) (hwn : w ≤ n) {x : BitVec n}
    (hl : -2 ^ (w - 1) ≤ x.toInt) (hr : x.toInt < 2 ^ (w - 1)) :
    (x.setWidth w).toInt = x.toInt := by
  have hpow : ((2 ^ w : ℕ) : ℤ) = 2 * 2 ^ (w - 1) := by
    push_cast
    exact two_pow_eq hw
  rw [toInt_setWidth_eq_bmod hwn]
  exact Int.bmod_eq_of_le_mul_two (by omega) (by omega)

/-- A signed number is its own sign extension if it is in range. -/
theorem sext_eq_self_iff (hw : 0 < w) (hwn : w ≤ n) {x : BitVec n} :
    sext w x = x ↔ -2 ^ (w - 1) ≤ x.toInt ∧ x.toInt < 2 ^ (w - 1) := by
  constructor
  · intro h
    have hx : (x.setWidth w).toInt = x.toInt := by
      rw [← toInt_signExtend hwn]
      exact congrArg BitVec.toInt h
    rw [← hx]
    exact ⟨BitVec.le_toInt _, BitVec.toInt_lt⟩
  · rintro ⟨hl, hr⟩
    refine BitVec.eq_of_toInt_eq ?_
    rw [sext, toInt_signExtend hwn, toInt_setWidth_of_range hw hwn hl hr]

theorem setWidth_sub (hwn : w ≤ n) (x y : BitVec n) :
    (x - y).setWidth w = x.setWidth w - y.setWidth w := by
  rw [BitVec.eq_sub_iff_add_eq, ← BitVec.setWidth_add _ _ hwn, BitVec.sub_add_cancel]

theorem sub_add_eq_sub_sub (x y z : BitVec w) : x - (y + z) = x - y - z := by
  rw [BitVec.eq_sub_iff_add_eq, BitVec.eq_sub_iff_add_eq, BitVec.add_assoc, BitVec.add_comm z y,
    BitVec.sub_add_cancel]

/-- A power of two divides a number whose low bits are zeros. -/
theorem dvd_toInt_of_setWidth_eq_zero {k : ℕ} (hk : k ≤ w) {x : BitVec w}
    (h : x.setWidth k = 0) : (2 ^ k : ℤ) ∣ x.toInt := by
  have hmod : x.toNat % 2 ^ k = 0 := by simpa using congrArg BitVec.toNat h
  have hnat : (2 ^ k : ℤ) ∣ x.toNat := by exact_mod_cast Nat.dvd_of_mod_eq_zero hmod
  rw [BitVec.toInt_eq_toNat_cond]
  split
  · exact hnat
  · exact dvd_sub hnat (by exact_mod_cast pow_dvd_pow 2 hk)

theorem toNat_ctz_lt {x : BitVec w} (hx : x ≠ 0) : x.ctz.toNat < w := by
  simpa [BitVec.lt_def] using BitVec.ctz_lt_iff_ne_zero.mpr hx

/-- Shifting out the zeros below a number divides it exactly. -/
theorem toInt_sshiftRight_ctz {x : BitVec w} (hx : x ≠ 0) :
    (x.sshiftRight x.ctz.toNat).toInt * 2 ^ x.ctz.toNat = x.toInt := by
  rw [BitVec.toInt_sshiftRight, Int.shiftRight_eq_div_pow]
  refine Int.ediv_mul_cancel (dvd_toInt_of_setWidth_eq_zero (toNat_ctz_lt hx).le ?_)
  ext k hk
  simpa using BitVec.getLsbD_false_of_lt_ctz hk

theorem le_ctz {k : ℕ} {x : BitVec w} (hx : x ≠ 0) (h : x.setWidth k = 0) :
    k ≤ x.ctz.toNat := by
  by_contra hlt
  have hbit := congrArg (fun y => y.getLsbD x.ctz.toNat) h
  simp [BitVec.getLsbD_true_ctz_of_ne_zero hx] at hbit
  omega

theorem sext_sext (hwn : w ≤ n) (x : BitVec n) : sext w (sext w x) = sext w x :=
  congrArg (BitVec.signExtend n) (setWidth_sext hwn x)

/-- Clearing low bits that are zeros does nothing. -/
theorem shiftLeft_ushiftRight_of_setWidth_eq_zero {k : ℕ} {x : BitVec w}
    (h : x.setWidth k = 0) : x >>> k <<< k = x := by
  have hmod : x.toNat % 2 ^ k = 0 := by simpa using congrArg BitVec.toNat h
  refine BitVec.eq_of_toNat_eq ?_
  rw [BitVec.toNat_shiftLeft, BitVec.toNat_ushiftRight, Nat.shiftLeft_eq, Nat.shiftRight_eq_div_pow,
    Nat.div_mul_cancel (Nat.dvd_of_mod_eq_zero hmod), Nat.mod_eq_of_lt x.isLt]

/-- Shifting left multiplies. -/
theorem shiftLeft_eq_ofInt (x : BitVec w) (k : ℕ) :
    x <<< k = BitVec.ofInt w (x.toInt * 2 ^ k) := by
  rw [BitVec.shiftLeft_eq_mul_twoPow, BitVec.ofInt_mul, BitVec.ofInt_toInt]
  congr 1
  refine BitVec.eq_of_toNat_eq ?_
  rw [BitVec.toNat_twoPow, BitVec.toNat_ofInt]
  norm_cast

end Arancini
