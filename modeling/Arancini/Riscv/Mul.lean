import Arancini.Riscv.AddSub

/-!
# Multiplication on RISC-V

The translators multiply numbers that a cast extends to the width of the result, which is
twice their own. The product is computed in 64 bits, or, for a result of 128 bits, in two
registers. `mulFlags` tests whether the upper half of the result is the extension of the
lower half. For signed results of 16 and 32 bits the test shifts the wrong register, and
asks whether the whole product is the extension of its sign
(`materialiseMul_right_iff`).
-/

namespace Arancini.Riscv

/-! ## Factors -/

/-- The class of an integer type. -/
inductive Class
  | signed
  | unsigned
  deriving DecidableEq

/-- `fixup` of a register in place to a signed type of width `w`. -/
def fixupSigned (w : ℕ) (r : TypedRegister) : Except String TypedRegister :=
  if w ≤ r.width then .ok r else extendTo64 r

/-- `fixup` of a register into another one, to an unsigned type of width `w`. -/
def fixupUnsigned (w : ℕ) (r : TypedRegister) : Except String TypedRegister :=
  match r.actual with
  | 8 => .ok ⟨r.val &&& 0xff, 64, 0⟩
  | 16 => .ok ⟨srli (slli r.val (64 - 16)) (64 - 16), 64, 0⟩
  | 32 => .ok ⟨srli (slli r.val (64 - 32)) (64 - 32), 64, 0⟩
  | 64 => .ok { TypedRegister.fresh w with val := r.val }
  | _ => .error "not implemented"

/-- `materialise_cast` of a register of width `h` to width `w`. To 128 bits, a signed number
is extended to 64, and an unsigned one of 64 bits stays where it is : the second register of
the result is the zero register, and the instructions read the first one. -/
def castTo (cls : Class) (h w : ℕ) (r : TypedRegister) : Except String TypedRegister :=
  match cls with
  | .signed =>
    if w = 128 then do
      let r ← fixupSigned 64 r
      fixupSigned 128 r
    else fixupSigned w r
  | .unsigned => if w = 128 ∧ h = 64 then .ok r else fixupUnsigned w r

/-- What `get_as_int` folds the cast of a number of width `h` to. -/
def foldCast (cls : Class) (h : ℕ) (imm : BitVec 64) : BitVec 64 :=
  match cls with
  | .signed => srai (slli imm (64 - h)) (64 - h)
  | .unsigned => srli (slli imm (64 - h)) (64 - h)

/-- `materialise` of the cast of an operand of width `h` to width `w`. -/
def materialiseCast (cls : Class) (h w : ℕ) : Operand → Except String TypedRegister
  | .reg r => castTo cls h w r
  | .const imm => .ok (Operand.const (foldCast cls h imm)).materialise

/-! ## The lowering -/

/-- `mulh`. -/
def mulh (x y : BitVec 64) : BitVec 64 :=
  ((x.signExtend 128 * y.signExtend 128) >>> 64).setWidth 64

/-- `mulhu`. -/
def mulhu (x y : BitVec 64) : BitVec 64 :=
  ((x.setWidth 128 * y.setWidth 128) >>> 64).setWidth 64

/-- The registers of a result. Only one of 128 bits uses the second. -/
structure Product where
  reg1 : BitVec 64
  reg2 : BitVec 64

/-- The result of width `w` in the registers. -/
def Product.value (w : ℕ) (p : Product) : BitVec w :=
  (p.reg2 ++ p.reg1).setWidth w

/-- `mul` to a result of width `w`. -/
def mul (cls : Class) (w : ℕ) (lhs rhs : BitVec 64) : Except String Product :=
  match w with
  | 128 => .ok ⟨lhs * rhs, match cls with
    | .signed => mulh lhs rhs
    | .unsigned => mulhu lhs rhs⟩
  | 64 | 32 | 16 => .ok ⟨lhs * rhs, 0⟩
  | _ => .error "not implemented"

/-- The flag of `mul_flags`. -/
def mulFlag (cls : Class) (w : ℕ) (out : Product) : Except String (BitVec 64) :=
  match w, cls with
  | 128, .signed => .ok (snez (srai out.reg1 63 ^^^ out.reg2))
  | 128, .unsigned => .ok (snez out.reg2)
  | 64, .signed => .ok (snez (sextw out.reg1 ^^^ out.reg1))
  | 32, .signed | 16, .signed =>
    -- the register that is shifted left first is overwritten
    .ok (snez (srai out.reg1 (64 - w / 2) ^^^ out.reg1))
  | 64, .unsigned | 32, .unsigned | 16, .unsigned => .ok (snez (srli out.reg1 (w / 2)))
  | _, _ => .error "Unsupported width for sub immediate"

/-- `mul_flags`, where both flags are the same. -/
def mulFlags (cls : Class) (w : ℕ) (out : Product) (of cf : Bool) :
    Except String (Option (BitVec 64) × Option (BitVec 64)) :=
  if cf || of then do
    let flag ← mulFlag cls w out
    return (if of then some flag else none, if cf then some flag else none)
  else return (none, none)

/-- `materialise_binary_arith` of a multiplication of two casts, of operands of width `h` and
`h'`, to width `w`. The translators have a constant on the right only. -/
def materialiseMul (cls : Class) (h h' w : ℕ) (lhs : TypedRegister) (rhs : Operand)
    (of cf : Bool) :
    Except String (Product × Option (BitVec 64) × Option (BitVec 64)) := do
  let srcReg1 ← materialiseCast cls h w (.reg lhs)
  let srcReg2 ← materialiseCast cls h' w rhs
  let out ← mul cls w srcReg1.val srcReg2.val
  let flags ← mulFlags cls w out of cf
  return (out, flags)

/-! ## The reference -/

/-- A bit vector as a number of the class. -/
def Class.toInt {w : ℕ} : Class → BitVec w → ℤ
  | signed, v => v.toInt
  | unsigned, v => v.toNat

/-- The number is one of the class and the width. -/
def Class.Fits (cls : Class) (h : ℕ) (n : ℤ) : Prop :=
  match cls with
  | signed => -2 ^ (h - 1) ≤ n ∧ n < 2 ^ (h - 1)
  | unsigned => 0 ≤ n ∧ n < 2 ^ h

instance (cls : Class) (h : ℕ) (n : ℤ) : Decidable (cls.Fits h n) := by
  unfold Class.Fits
  cases cls <;> infer_instance

/-- An operand of width `h` carries the value, and its register has the type of its port or
counts as accurate to 64 bits. The bits up to `actual_width` do not come from a sign extension. -/
def Operand.Factor {h : ℕ} (cls : Class) (v : BitVec h) : Operand → Prop
  | reg r => r.Carries v ∧ (r.width = h ∨ r.width = 64) ∧
    (cls = .unsigned → r.actual ∈ widths ∧ h ≤ r.actual ∧
      r.val.setWidth r.actual = v.setWidth r.actual)
  | const imm => imm.setWidth h = v

section Casts

variable {h w : ℕ} (hh : h ∈ widths) (hw : 2 * h ≤ w)

include hh hw in
theorem castTo_signed {r : TypedRegister} (hr : r.width = h ∨ r.width = 64) :
    ∃ r', castTo .signed h w r = .ok r' ∧ r'.val = r.full := by
  have hpos := (le_of_mem_widths hh).1
  have hmem : r.width ∈ widths := by
    rcases hr with hr | hr
    · rwa [hr]
    · simp [hr, widths]
  obtain ⟨r', hext, hwidth, hval⟩ := extendTo64_eq hmem
  have hfix : ∀ u, h < u → fixupSigned u r = .ok r' := by
    intro u hu
    by_cases hle : u ≤ r.width
    · have hr64 : r.width = 64 := by omega
      rw [extendTo64_of_width hr64] at hext
      rw [fixupSigned, if_pos hle, hext]
    · rw [fixupSigned, if_neg hle, hext]
  refine ⟨r', ?_, hval⟩
  by_cases h128 : w = 128
  · have hfix64 : fixupSigned 64 r = .ok r' := by
      by_cases h64 : h < 64
      · exact hfix 64 h64
      · have hr64 : r.width = 64 := by
          have := (le_of_mem_widths hh).2
          omega
        rw [extendTo64_of_width hr64] at hext
        rw [fixupSigned, if_pos hr64.ge, hext]
    have hnot : ¬ 128 ≤ r'.width := by omega
    rw [castTo, if_pos h128, hfix64, ok_bind, fixupSigned, if_neg hnot, extendTo64_of_width hwidth]
  · rw [castTo, if_neg h128, hfix w (by omega)]

/-- A cast to an unsigned type keeps the bits up to `actual_width`. -/
theorem fixupUnsigned_eq {r : TypedRegister} (hr : r.actual ∈ widths) :
    ∃ r', fixupUnsigned w r = .ok r' ∧ r'.val = (r.val.setWidth r.actual).setWidth 64 := by
  have hmem := hr
  simp only [widths, List.mem_cons, List.not_mem_nil, or_false] at hmem
  unfold fixupUnsigned
  rcases hmem with ha | ha | ha | ha <;> rw [ha]
  · refine ⟨_, rfl, BitVec.eq_of_toNat_eq ?_⟩
    rw [toNat_setWidth_of_le (by decide)]
    simpa using Nat.and_two_pow_sub_one_eq_mod r.val.toNat 8
  · exact ⟨_, rfl, ushiftRight_shiftLeft (by decide) r.val⟩
  · exact ⟨_, rfl, ushiftRight_shiftLeft (by decide) r.val⟩
  · exact ⟨_, rfl, by simp⟩

include hh hw in
/-- The cast of a factor is its number, in 64 bits. -/
theorem Operand.Factor.toInt_eq {cls : Class} {o : Operand} {v : BitVec h}
    (ho : o.Factor cls v) :
    ∃ r, materialiseCast cls h w o = .ok r ∧ cls.toInt r.val = cls.toInt v := by
  have hle := (le_of_mem_widths hh).2
  match o, cls, ho with
  | .reg r, .signed, ⟨hr, hwidth, _⟩ =>
    obtain ⟨r', hcast, hval⟩ := castTo_signed hh hw hwidth
    exact ⟨r', hcast, by rw [hval, hr.full_eq]; exact toInt_signExtend hle v⟩
  | .reg r, .unsigned, ⟨_, _, hactual⟩ =>
    obtain ⟨hmem, hact, hlow⟩ := hactual rfl
    have hactle := (le_of_mem_widths hmem).2
    by_cases h64 : w = 128 ∧ h = 64
    · refine ⟨r, if_pos h64, ?_⟩
      have hlow64 : (r.val.setWidth 64).toNat = v.toNat := by
        obtain ha : r.actual = 64 := by omega
        rw [← toNat_setWidth_of_le hact v, ← hlow, ha]
      simpa [Class.toInt] using hlow64
    · obtain ⟨r', hfix, hval⟩ := fixupUnsigned_eq (w := w) hmem
      refine ⟨r', (if_neg h64).trans hfix, ?_⟩
      change (r'.val.toNat : ℤ) = v.toNat
      rw [hval, hlow, toNat_setWidth_of_le hactle, toNat_setWidth_of_le hact]
  | .const imm, .signed, (ho : imm.setWidth h = v) =>
    refine ⟨_, rfl, ?_⟩
    change (srai (slli imm (64 - h)) (64 - h)).toInt = v.toInt
    rw [srai, slli, sshiftRight_shiftLeft (le_of_mem_widths hh).1 hle, sext, ho,
      toInt_signExtend hle]
  | .const imm, .unsigned, (ho : imm.setWidth h = v) =>
    refine ⟨_, rfl, ?_⟩
    change ((srli (slli imm (64 - h)) (64 - h)).toNat : ℤ) = v.toNat
    rw [srli, slli, ushiftRight_shiftLeft hle, ho, toNat_setWidth_of_le hle]

end Casts

/-! ## Products -/

/-- The widths of results. -/
def resultWidths : List ℕ :=
  [16, 32, 64, 128]

/-- The product of two signed numbers. -/
theorem mul_signed_bounds {x y B : ℤ} (hx : -B ≤ x ∧ x < B) (hy : -B ≤ y ∧ y < B) :
    -(B * B) ≤ x * y ∧ x * y ≤ B * B := by
  have hxB : |x| ≤ B := abs_le.2 ⟨hx.1, hx.2.le⟩
  have hyB : |y| ≤ B := abs_le.2 ⟨hy.1, hy.2.le⟩
  rw [← abs_le, abs_mul]
  exact mul_le_mul hxB hyB (abs_nonneg y) ((abs_nonneg x).trans hxB)

/-- The product of two unsigned numbers. -/
theorem mul_unsigned_bounds {x y B : ℤ} (hx : 0 ≤ x ∧ x < B) (hy : 0 ≤ y ∧ y < B) :
    0 ≤ x * y ∧ x * y < B * B :=
  ⟨mul_nonneg hx.1 hy.1, mul_lt_mul'' hx.2 hy.2 hx.1 hy.1⟩

/-- What the flag of `mul_flags` says about the product. -/
def flagged (cls : Class) (w : ℕ) (n : ℤ) : Bool :=
  if cls = .signed ∧ w < 64 then n != 0 && n != -1 else !decide (cls.Fits (w / 2) n)

/-- The two halves of a bit vector. -/
theorem halves_append (q : BitVec 128) : (q >>> 64).setWidth 64 ++ q.setWidth 64 = q := by
  refine BitVec.eq_of_getLsbD_eq fun i hi => ?_
  rw [BitVec.getLsbD_append]
  by_cases hlt : i < 64
  · simp [hlt]
  · have hsub : i - 64 < 64 := by omega
    simp [hlt, hsub, Nat.add_sub_cancel' (Nat.le_of_not_lt hlt)]

theorem mulh_append (x y : BitVec 64) :
    mulh x y ++ x * y = x.signExtend 128 * y.signExtend 128 := by
  have hlow : x * y = (x.signExtend 128 * y.signExtend 128).setWidth 64 := by
    rw [BitVec.setWidth_mul _ _ (by decide), setWidth_signExtend (by decide),
      setWidth_signExtend (by decide)]
  rw [mulh, hlow, halves_append]

theorem mulhu_append (x y : BitVec 64) :
    mulhu x y ++ x * y = x.setWidth 128 * y.setWidth 128 := by
  have hlow : x * y = (x.setWidth 128 * y.setWidth 128).setWidth 64 := by
    rw [BitVec.setWidth_mul _ _ (by decide)]
    simp
  rw [mulhu, hlow, halves_append]

/-- The two registers of a signed product. -/
theorem toInt_mulh_append (x y : BitVec 64) :
    (mulh x y ++ x * y).toInt = x.toInt * y.toInt := by
  have hx := x.le_toInt
  have hx' := x.toInt_lt
  have hy := y.le_toInt
  have hy' := y.toInt_lt
  have hprod := mul_signed_bounds ⟨hx, hx'⟩ ⟨hy, hy'⟩
  rw [mulh_append, BitVec.toInt_mul, toInt_signExtend (by decide), toInt_signExtend (by decide)]
  exact Int.bmod_eq_of_le_mul_two (by omega) (by omega)

/-- The two registers of an unsigned product. -/
theorem toNat_mulhu_append (x y : BitVec 64) :
    (mulhu x y ++ x * y).toNat = x.toNat * y.toNat := by
  have hprod := Nat.mul_lt_mul'' x.isLt y.isLt
  rw [mulhu_append, BitVec.toNat_mul, toNat_setWidth_of_le (by decide),
    toNat_setWidth_of_le (by decide)]
  exact Nat.mod_eq_of_lt (by omega)

/-- One register of 64 bits holds the exact product of two factors of 32 bits. -/
theorem toInt_mul_of_fits {cls : Class} {x y : BitVec 64} (hx : cls.Fits 32 (cls.toInt x))
    (hy : cls.Fits 32 (cls.toInt y)) : cls.toInt (x * y) = cls.toInt x * cls.toInt y := by
  cases cls with
  | signed =>
    have hprod := mul_signed_bounds hx hy
    change (x * y).toInt = x.toInt * y.toInt
    change -(2 ^ 31 * 2 ^ 31) ≤ x.toInt * y.toInt ∧ x.toInt * y.toInt ≤ 2 ^ 31 * 2 ^ 31 at hprod
    rw [BitVec.toInt_mul]
    exact Int.bmod_eq_of_le_mul_two (by omega) (by omega)
  | unsigned =>
    have hprod := mul_unsigned_bounds hx hy
    change ((x * y).toNat : ℤ) = x.toNat * y.toNat
    change (0 : ℤ) ≤ x.toNat * y.toNat ∧ (x.toNat * y.toNat : ℤ) < 2 ^ 32 * 2 ^ 32 at hprod
    have hlt : x.toNat * y.toNat < 2 ^ 64 := by exact_mod_cast hprod.2
    rw [BitVec.toNat_mul, Nat.mod_eq_of_lt hlt]
    exact Int.natCast_mul _ _

theorem snez_xor (x y : BitVec 64) : snez (x ^^^ y) = bit (!decide (x = y)) := by
  rw [snez, bit_inj]
  refine congrArg (!·) (Bool.eq_iff_iff.2 ?_)
  rw [beq_iff_eq, decide_eq_true_iff]
  exact BitVec.xor_eq_zero_iff

theorem snez_srli (x : BitVec 64) (n : ℕ) :
    snez (srli x n) = bit (!decide (x.toNat < 2 ^ n)) := by
  rw [snez, bit_inj]
  refine congrArg (!·) (Bool.eq_iff_iff.2 ?_)
  rw [beq_iff_eq, decide_eq_true_iff]
  exact ushiftRight_eq_zero_iff x n

/-- A signed number that is its own sign. -/
theorem srai_eq_self_iff {n : ℕ} (hn : n = 48 ∨ n = 56) (x : BitVec 64) :
    srai x n = x ↔ x.toInt = 0 ∨ x.toInt = -1 := by
  rw [← BitVec.toInt_inj, srai, BitVec.toInt_sshiftRight, Int.shiftRight_eq_div_pow]
  rcases hn with rfl | rfl <;> norm_num <;> omega

/-- The flag of a product of 16, 32 or 64 bits, in one register. -/
theorem mulFlag_eq {cls : Class} {w : ℕ} (hw : w ∈ [16, 32, 64]) {lo hi : BitVec 64} :
    mulFlag cls w ⟨lo, hi⟩ = .ok (bit (flagged cls w (cls.toInt lo))) := by
  simp only [List.mem_cons, List.not_mem_nil, or_false] at hw
  cases cls with
  | signed =>
    have hsign : (!decide (lo.toInt = 0 ∨ lo.toInt = -1)) = (lo.toInt != 0 && lo.toInt != -1) := by
      rw [Bool.decide_or, Bool.not_or]
      rfl
    have hsext : sext 32 lo = lo ↔ Class.signed.Fits 32 lo.toInt :=
      sext_eq_self_iff (by decide) (by decide)
    rcases hw with rfl | rfl | rfl
    · simp only [mulFlag, snez_xor, srai_eq_self_iff (.inr rfl), hsign]
      rfl
    · simp only [mulFlag, snez_xor, srai_eq_self_iff (.inl rfl), hsign]
      rfl
    · simp only [mulFlag, snez_xor, sextw, hsext]
      rfl
  | unsigned =>
    have hflag : ∀ n, (!decide (lo.toNat < 2 ^ n)) = !decide (Class.unsigned.Fits n lo.toNat) := by
      intro n
      congr 1
      exact decide_eq_decide.2 ⟨fun h => ⟨by omega, by exact_mod_cast h⟩,
        fun h => by exact_mod_cast h.2⟩
    rcases hw with rfl | rfl | rfl <;>
    · simp only [mulFlag, snez_srli, hflag]
      rfl

theorem mulFlag_128_eq {cls : Class} {lo hi : BitVec 64} :
    mulFlag cls 128 ⟨lo, hi⟩ = .ok (bit (flagged cls 128 (cls.toInt (hi ++ lo)))) := by
  cases cls with
  | signed =>
    have hsign : srai lo 63 = hi ↔ Class.signed.Fits 64 (hi ++ lo).toInt := by
      have happ : (hi ++ lo).toInt = 2 ^ 64 * hi.toInt + lo.toNat := BitVec.toInt_append
      have hlo := toNat_cases (by decide) lo
      have hlol := lo.le_toInt
      have hlou := lo.toInt_lt
      rw [← BitVec.toInt_inj, srai, BitVec.toInt_sshiftRight, Int.shiftRight_eq_div_pow, happ]
      simp only [Class.Fits]
      omega
    simp only [mulFlag, snez_xor, hsign]
    rfl
  | unsigned =>
    have hupper : (hi != 0) = !decide (Class.unsigned.Fits 64 (hi ++ lo).toNat) := by
      have happ : (hi ++ lo).toNat = hi.toNat * 2 ^ 64 + lo.toNat := by
        rw [BitVec.toNat_append, ← Nat.shiftLeft_add_eq_or_of_lt lo.isLt, Nat.shiftLeft_eq]
      have hlo := lo.isLt
      refine congrArg (!·) (Bool.eq_iff_iff.2 ?_)
      rw [beq_iff_eq, decide_eq_true_iff, happ, ← BitVec.toNat_inj]
      simp only [Class.Fits]
      change hi.toNat = 0 ↔ _
      omega
    simp only [mulFlag, snez, hupper]
    rfl

theorem Class.Fits.mono {cls : Class} {h k : ℕ} (hk : h ≤ k) {n : ℤ} (hn : cls.Fits h n) :
    cls.Fits k n := by
  cases cls with
  | signed =>
    have hpow : (2 : ℤ) ^ (h - 1) ≤ 2 ^ (k - 1) := pow_le_pow_right₀ (by decide) (by omega)
    exact ⟨(neg_le_neg hpow).trans hn.1, hn.2.trans_le hpow⟩
  | unsigned =>
    have hpow : (2 : ℤ) ^ h ≤ 2 ^ k := pow_le_pow_right₀ (by decide) hk
    exact ⟨hn.1, hn.2.trans_le hpow⟩

/-- The product of two numbers fits in twice their width. -/
theorem Class.Fits.mul {cls : Class} {k : ℕ} (hk : 0 < k) {m n : ℤ} (hm : cls.Fits k m)
    (hn : cls.Fits k n) : cls.Fits (2 * k) (m * n) := by
  cases cls with
  | signed =>
    have hpow : (2 : ℤ) ^ (2 * k - 1) = 2 * (2 ^ (k - 1) * 2 ^ (k - 1)) := by
      rw [← pow_add, ← pow_succ']
      congr 1
      omega
    have hpos : (0 : ℤ) < 2 ^ (k - 1) * 2 ^ (k - 1) := by positivity
    obtain ⟨hl, hr⟩ := mul_signed_bounds hm hn
    refine ⟨?_, ?_⟩ <;> rw [hpow] <;> omega
  | unsigned =>
    have hpow : (2 : ℤ) ^ (2 * k) = 2 ^ k * 2 ^ k := by rw [← pow_add, two_mul]
    obtain ⟨hl, hr⟩ := mul_unsigned_bounds hm hn
    exact ⟨hl, by rw [hpow]; exact hr⟩

/-- Narrowing a number that fits keeps it. -/
theorem Class.toInt_setWidth {cls : Class} {w n : ℕ} (hw : 0 < w) (hle : w ≤ n) {x : BitVec n}
    (hx : cls.Fits w (cls.toInt x)) : cls.toInt (x.setWidth w) = cls.toInt x := by
  cases cls with
  | signed => exact toInt_setWidth_of_range hw hle hx.1 hx.2
  | unsigned =>
    have hlt : (x.toNat : ℤ) < 2 ^ w := hx.2
    have hlt : x.toNat < 2 ^ w := by exact_mod_cast hlt
    change ((x.setWidth w).toNat : ℤ) = x.toNat
    rw [BitVec.toNat_setWidth, Nat.mod_eq_of_lt hlt]

/-- A number that fits is the one of its bits. -/
theorem Class.toInt_ofInt {cls : Class} {w : ℕ} (hw : 0 < w) {i : ℤ} (hi : cls.Fits w i) :
    cls.toInt (BitVec.ofInt w i) = i := by
  cases cls with
  | signed => exact BitVec.toInt_ofInt_eq_self hw hi.1 hi.2
  | unsigned =>
    change ((BitVec.ofInt w i).toNat : ℤ) = i
    rw [BitVec.toNat_ofInt, Int.toNat_of_nonneg (Int.emod_nonneg _ (by positivity))]
    exact Int.emod_eq_of_lt hi.1 (by exact_mod_cast hi.2)

/-- A result of one register. -/
theorem Product.value_of_le {w : ℕ} (hle : w ≤ 64) (x : BitVec 64) :
    (Product.mk x 0).value w = x.setWidth w := by
  rw [Product.value, BitVec.setWidth_append, dif_pos hle]

/-- The lowering of the multiplication of two numbers of half the width. -/
theorem mul_eq {cls : Class} {w : ℕ} (hw : w ∈ resultWidths) {x y : BitVec 64}
    (hx : cls.Fits (w / 2) (cls.toInt x)) (hy : cls.Fits (w / 2) (cls.toInt y)) :
    ∃ out, mul cls w x y = .ok out ∧
      cls.toInt (out.value w) = cls.toInt x * cls.toInt y ∧
      mulFlag cls w out = .ok (bit (flagged cls w (cls.toInt x * cls.toInt y))) := by
  by_cases h128 : w = 128
  · subst h128
    have hval : ∀ p : Product, p.value 128 = p.reg2 ++ p.reg1 := fun p => BitVec.setWidth_eq _
    cases cls with
    | signed =>
      have hprod := toInt_mulh_append x y
      refine ⟨⟨x * y, mulh x y⟩, rfl, ?_, ?_⟩
      · rw [hval]
        exact hprod
      · rw [mulFlag_128_eq]
        simp only [Class.toInt, hprod]
    | unsigned =>
      have hprod := toNat_mulhu_append x y
      refine ⟨⟨x * y, mulhu x y⟩, rfl, ?_, ?_⟩
      · rw [hval]
        exact congrArg Nat.cast hprod
      · rw [mulFlag_128_eq]
        simp only [Class.toInt, hprod]
        rfl
  · have hw3 : w ∈ [16, 32, 64] := by
      simp only [resultWidths, List.mem_cons, List.not_mem_nil, or_false] at hw ⊢
      omega
    have hrange : 0 < w ∧ w ≤ 64 ∧ 2 * (w / 2) = w := by
      simp only [List.mem_cons, List.not_mem_nil, or_false] at hw3
      omega
    obtain ⟨hpos, hle, heven⟩ := hrange
    have hprod := toInt_mul_of_fits (hx.mono (by omega)) (hy.mono (by omega))
    have hfits := heven ▸ hx.mul (by omega) hy
    refine ⟨⟨x * y, 0⟩, ?_, ?_, ?_⟩
    · simp only [List.mem_cons, List.not_mem_nil, or_false] at hw3
      rcases hw3 with rfl | rfl | rfl <;> rfl
    · rw [Product.value_of_le hle, Class.toInt_setWidth hpos hle (by rwa [hprod]), hprod]
    · rw [mulFlag_eq hw3, hprod]

/-! ## Results -/

/-- The flag says whether the product fits in half the width. -/
def flagRight (cls : Class) (w : ℕ) (n : ℤ) : Prop :=
  cls = .signed → w < 64 → cls.Fits (w / 2) n → n = 0 ∨ n = -1

theorem flagged_iff {cls : Class} {w : ℕ} (n : ℤ) :
    flagged cls w n = (!decide (cls.Fits (w / 2) n)) ↔ flagRight cls w n := by
  by_cases hcls : cls = .signed ∧ w < 64
  · obtain ⟨rfl, hlt⟩ := hcls
    have hzero : n = 0 ∨ n = -1 → Class.signed.Fits (w / 2) n := by
      have hpos : (0 : ℤ) < 2 ^ (w / 2 - 1) := by positivity
      rintro (rfl | rfl)
      · exact ⟨by omega, hpos⟩
      · exact ⟨by omega, by omega⟩
    rw [flagged, if_pos ⟨rfl, hlt⟩, flagRight]
    by_cases hfits : Class.signed.Fits (w / 2) n
    · rw [decide_eq_true hfits]
      simp only [hfits, hlt, Bool.not_true, Bool.and_eq_false_iff, bne_eq_false_iff_eq,
        true_implies]
    · have hn : n ≠ 0 := fun h => hfits (hzero (.inl h))
      have hn' : n ≠ -1 := fun h => hfits (hzero (.inr h))
      simp [hfits, hn, hn']
  · rw [flagged, if_neg hcls, flagRight]
    exact iff_of_true rfl fun h h' => absurd ⟨h, h'⟩ hcls

section Right

variable {cls : Class} {h h' w : ℕ} {lhs : TypedRegister} {rhs : Operand} {a : BitVec h}
  {b : BitVec h'}

/-- The number of a bit vector fits in its width, and in a larger one. -/
theorem Class.fits_toInt (cls : Class) {k : ℕ} (hk : h ≤ k) (v : BitVec h) :
    cls.Fits k (cls.toInt v) := by
  refine Class.Fits.mono hk ?_
  cases cls with
  | signed => exact ⟨v.le_toInt, v.toInt_lt⟩
  | unsigned =>
    have hlt : (v.toNat : ℤ) < 2 ^ h := by exact_mod_cast v.isLt
    exact ⟨Int.natCast_nonneg _, hlt⟩

/-- The lowering of the multiplication of two factors. -/
theorem materialiseMul_eq (hh : h ∈ widths) (hh' : h' ∈ widths) (hw : w ∈ resultWidths)
    (hhw : 2 * h ≤ w) (hhw' : 2 * h' ≤ w) (hlhs : (Operand.reg lhs).Factor cls a)
    (hrhs : rhs.Factor cls b) (of cf : Bool) :
    ∃ x y out, cls.toInt x = cls.toInt a ∧ cls.toInt y = cls.toInt b ∧
      mul cls w x y = .ok out ∧ cls.toInt (out.value w) = cls.toInt a * cls.toInt b ∧
      materialiseMul cls h h' w lhs rhs of cf = .ok (out,
        if of then some (bit (flagged cls w (cls.toInt a * cls.toInt b))) else none,
        if cf then some (bit (flagged cls w (cls.toInt a * cls.toInt b))) else none) := by
  obtain ⟨x, hx, hxa⟩ := hlhs.toInt_eq hh hhw
  obtain ⟨y, hy, hyb⟩ := hrhs.toInt_eq hh' hhw'
  obtain ⟨out, hmul, hval, hflag⟩ := mul_eq hw (hxa ▸ cls.fits_toInt (by omega) a)
    (hyb ▸ cls.fits_toInt (by omega) b)
  rw [hxa, hyb] at hval hflag
  refine ⟨x.val, y.val, out, hxa, hyb, hmul, hval, ?_⟩
  simp only [materialiseMul, hx, hy, ok_bind, hmul, mulFlags, hflag]
  cases of <;> cases cf <;> rfl

/-- The product is exact. The flags are right except for a signed product of 16 or 32 bits
that fits in half of it, and is neither zero nor minus one. -/
theorem materialiseMul_right_iff (hh : h ∈ widths) (hh' : h' ∈ widths) (hw : w ∈ resultWidths)
    (hhw : 2 * h ≤ w) (hhw' : 2 * h' ≤ w) (hlhs : (Operand.reg lhs).Factor cls a)
    (hrhs : rhs.Factor cls b) (of cf : Bool) :
    (∃ out ofReg cfReg, materialiseMul cls h h' w lhs rhs of cf = .ok (out, ofReg, cfReg) ∧
      cls.toInt (out.value w) = cls.toInt a * cls.toInt b ∧
      (of → ofReg = some (bit (!decide (cls.Fits (w / 2) (cls.toInt a * cls.toInt b))))) ∧
      (cf → cfReg = some (bit (!decide (cls.Fits (w / 2) (cls.toInt a * cls.toInt b)))))) ↔
    (of || cf → flagRight cls w (cls.toInt a * cls.toInt b)) := by
  obtain ⟨x, y, out, -, -, -, hval, hres⟩ :=
    materialiseMul_eq hh hh' hw hhw hhw' hlhs hrhs of cf
  rw [← flagged_iff]
  generalize cls.toInt a * cls.toInt b = n at *
  constructor
  · rintro ⟨out', ofReg, cfReg, hok, -, hof, hcf⟩ hany
    cases hres.symm.trans hok
    rw [Bool.or_eq_true] at hany
    rcases hany with hany | hany
    · simpa [hany] using hof hany
    · simpa [hany] using hcf hany
  · intro hflags
    refine ⟨_, _, _, hres, hval, fun hof => ?_, fun hcf => ?_⟩
    · rw [if_pos hof, hflags (by simp [hof])]
    · rw [if_pos hcf, hflags (by simp [hcf])]

end Right

/-- `mul bl` of 255 and 2, from registers with garbage above the byte. -/
theorem right_mulByte :
    ∃ out ofReg cfReg, materialiseMul .unsigned 8 8 16 ⟨0x12ff, 8, 0⟩ (.reg ⟨0x3402, 8, 0⟩) true
        true = .ok (out, ofReg, cfReg) ∧ Class.unsigned.toInt (out.value 16) = 510 ∧
      ofReg = some (bit true) ∧ cfReg = some (bit true) := by
  have hlhs : (Operand.reg ⟨0x12ff, 8, 0⟩).Factor .unsigned (0xff : BitVec 8) :=
    ⟨⟨by decide, le_rfl, rfl⟩, .inl rfl, fun _ => ⟨by decide, by decide, rfl⟩⟩
  have hrhs : (Operand.reg ⟨0x3402, 8, 0⟩).Factor .unsigned (2 : BitVec 8) :=
    ⟨⟨by decide, le_rfl, rfl⟩, .inl rfl, fun _ => ⟨by decide, by decide, rfl⟩⟩
  obtain ⟨out, ofReg, cfReg, hok, hval, hof, hcf⟩ := (materialiseMul_right_iff (w := 16)
    (by decide) (by decide) (by decide) (by decide) (by decide) hlhs hrhs true true).2
    fun _ h => nomatch h
  exact ⟨out, ofReg, cfReg, hok, hval.trans (by decide), (hof rfl).trans (by decide),
    (hcf rfl).trans (by decide)⟩

/-- `imul ax, bx` of one and one. -/
theorem not_right_imulOne :
    ¬ ∀ (cls : Class) (lhs : TypedRegister) (rhs : Operand) (a b : BitVec 16),
      (Operand.reg lhs).Factor cls a → rhs.Factor cls b → ∀ of cf,
      ∃ out ofReg cfReg, materialiseMul cls 16 16 32 lhs rhs of cf = .ok (out, ofReg, cfReg) ∧
        cls.toInt (out.value 32) = cls.toInt a * cls.toInt b ∧
        (of → ofReg = some (bit (!decide (cls.Fits 16 (cls.toInt a * cls.toInt b))))) ∧
        (cf → cfReg = some (bit (!decide (cls.Fits 16 (cls.toInt a * cls.toInt b))))) := by
  intro h
  have hone : (Operand.reg ⟨1, 16, 0⟩).Factor .signed (1 : BitVec 16) :=
    ⟨⟨by decide, le_rfl, rfl⟩, .inl rfl, nofun⟩
  obtain ⟨out, ofReg, cfReg, hok, -, -, hcf⟩ :=
    h .signed ⟨1, 16, 0⟩ (.reg ⟨1, 16, 0⟩) 1 1 hone hone false true
  cases hok
  exact absurd (hcf rfl) (by decide)

end Arancini.Riscv
