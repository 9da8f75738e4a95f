import Arancini.Riscv.AddSub

/-!
# Addition and subtraction with carry on RISC-V

`materialiseTernaryArith` adds the carry to the right operand first, and then adds or
subtracts the sum. The carries of the two steps are joined by an or, their overflows by a
xor. The first addition is one of 64 bits, into a temporary that counts as accurate to 64
bits, and takes the right operand as its register is : the register is extended after that,
to be compared with the sum. A right operand of a narrow type, with garbage above it, gives
a sum that is no number of the width (`Operand.addend`). `materialiseTernaryArith_right_iff`
says which flags are right then.
-/

namespace Arancini.Riscv

/-! ## The lowering -/

/-- The operations of `ternary_arith`. -/
inductive AdcSbb
  | adc
  | sbb
  deriving DecidableEq

/-- The flags that are used, without those of `zero_sign_flag`. -/
def Wanted.carries (want : Wanted) : Wanted :=
  { want with zf := false, sf := false }

/-- Total carry and overflow out. -/
def Flags.join (f tmp : Flags) : Flags :=
  { f with
    cf := Option.map₂ (· ||| ·) f.cf tmp.cf
    of := Option.map₂ (· ^^^ ·) f.of tmp.of }

/-- `materialise_ternary_arith`. -/
def materialiseTernaryArith (op : AdcSbb) (w : ℕ) (lhs rhs top : Operand) (want : Wanted) :
    Except String (TypedRegister × Flags) := do
  let srcReg1 := lhs.materialise
  let srcReg2 := rhs.materialise
  let srcReg3 := top.materialise
  let tempResult ← add 64 srcReg2 srcReg3
  let (tempResult, tmp) ← addiFlags tempResult srcReg2 1 want.carries
  match op with
  | .adc => do
    let out ← add w srcReg1 tempResult
    let (out, f) ← addFlags out srcReg1 tempResult want.carries
    zeroSignFlag out want.zf want.sf (f.join tmp)
  | .sbb => do
    let out ← sub w srcReg1 tempResult
    let (out, f) ← subFlags out srcReg1 tempResult want.carries
    zeroSignFlag out want.zf want.sf (f.join tmp)

/-! ## The reference -/

namespace AdcSbb

variable {w : ℕ}

/-- The exact result of the operation on signed numbers. -/
def exact : AdcSbb → ℤ → ℤ → Bool → ℤ
  | adc, x, y, c => x + (y + c.toNat)
  | sbb, x, y, c => x - (y + c.toNat)

/-- The value of the operation. -/
def value : AdcSbb → BitVec w → BitVec w → Bool → BitVec w
  | adc, a, b, c => a + b + BitVec.ofNat w c.toNat
  | sbb, a, b, c => a - b - BitVec.ofNat w c.toNat

/-- The exact result is no signed number of the width. -/
def overflow (op : AdcSbb) (a b : BitVec w) (c : Bool) : Bool :=
  op.exact a.toInt b.toInt c < -2 ^ (w - 1) || 2 ^ (w - 1) ≤ op.exact a.toInt b.toInt c

/-- The exact result is no unsigned number of the width. -/
def carry (op : AdcSbb) (a b : BitVec w) (c : Bool) : Bool :=
  op.exact a.toNat b.toNat c < 0 || 2 ^ w ≤ op.exact a.toNat b.toNat c

/-- The value as a signed number is the exact result, or a turn away from it. -/
theorem toInt_value_cases (hw : 0 < w) (op : AdcSbb) (a b : BitVec w) (c : Bool) :
    (-2 ^ (w - 1) ≤ op.exact a.toInt b.toInt c ∧ op.exact a.toInt b.toInt c < 2 ^ (w - 1) ∧
      (op.value a b c).toInt = op.exact a.toInt b.toInt c) ∨
      (2 ^ (w - 1) ≤ op.exact a.toInt b.toInt c ∧
        (op.value a b c).toInt = op.exact a.toInt b.toInt c - 2 * 2 ^ (w - 1)) ∨
      (op.exact a.toInt b.toInt c < -2 ^ (w - 1) ∧
        (op.value a b c).toInt = op.exact a.toInt b.toInt c + 2 * 2 ^ (w - 1)) := by
  have ha := a.le_toInt
  have hb := b.le_toInt
  have ha' := a.toInt_lt
  have hb' := b.toInt_lt
  have hc := c.toNat_le
  have hvalue : (op.value a b c).toInt = (op.exact a.toInt b.toInt c).bmod (2 ^ w) := by
    have hofInt : op.value a b c = BitVec.ofInt w (op.exact a.toInt b.toInt c) := by
      cases op with
      | adc =>
        simp only [value, exact, BitVec.ofInt_add, BitVec.ofInt_toInt, BitVec.ofInt_natCast]
        rw [BitVec.add_assoc]
      | sbb =>
        simp only [value, exact, sub_eq_add_neg, neg_add, BitVec.ofInt_add, BitVec.ofInt_neg,
          BitVec.ofInt_toInt, BitVec.ofInt_natCast, BitVec.sub_eq_add_neg]
        rw [BitVec.add_assoc]
    rw [hofInt, BitVec.toInt_ofInt]
  rw [hvalue]
  cases op with
  | adc => exact bmod_cases hw (by simp only [exact]; omega) (by simp only [exact]; omega)
  | sbb => exact bmod_cases hw (by simp only [exact]; omega) (by simp only [exact]; omega)

end AdcSbb

/-! ## The right operand as an addend -/

/-- What the right operand is in 64 bits, before it is extended. -/
inductive Addend
  | exact
  | garbage
  | below
  | above

/-- A register is exact if extending it changes nothing. -/
def Operand.addend (w : ℕ) : Operand → Addend
  | reg r => if r.val = r.full then .exact else .garbage
  | const imm =>
    match (Operand.const imm).range w with
    | .lt => .below
    | .eq => .exact
    | .gt => .above

/-- How the addend compares with the signed numbers of the width, once the flag of the first
addition is joined. -/
def Addend.range : Addend → Ordering
  | exact => .eq
  | garbage => .gt
  | below => .lt
  | above => .gt

section Addend

variable {w : ℕ} (hw : w ∈ widths) {rhs : Operand} {b : BitVec w} (c : Bool)

theorem toInt_bit (c : Bool) : (bit c).toInt = c.toNat := by
  cases c <;> rfl

/-- The sum of a number of 64 bits and a carry. -/
theorem toInt_add_bit (x : BitVec 64) (c : Bool) :
    (x + bit c).toInt = x.toInt + c.toNat ∨
      (x.toInt + c.toNat = 2 ^ 63 ∧ (x + bit c).toInt = -2 ^ 63) := by
  have hsum := toInt_add_cases (by decide) x (bit c)
  have hx := x.toInt_lt
  have hx' := x.le_toInt
  have hc := c.toNat_le
  rw [toInt_bit] at hsum
  omega

include hw in
/-- What the first addition gives, in terms of the extended right operand and of the value it
carries. -/
theorem addend_cases (h : rhs.Carries b) :
    let T := (rhs.materialise.val + bit c).toInt
    let F := rhs.materialise.full.toInt
    match rhs.addend w with
    | .exact => F = b.toInt ∧ (T = F + c.toNat ∨ (F + c.toNat = 2 ^ 63 ∧ T = -2 ^ 63))
    | .garbage => F = b.toInt ∧ (2 ^ (w - 1) < T ∨ T < -2 ^ (w - 1) ∨
        (T = 2 ^ (w - 1) ∧ F = -2 ^ (w - 1) ∧ c.toNat = 0) ∨
        (T = -2 ^ (w - 1) ∧ F = 2 ^ (w - 1) - 1 ∧ c.toNat = 1))
    | .below => F < -2 ^ (w - 1) ∧ T = F + c.toNat
    | .above => 2 ^ (w - 1) ≤ F ∧ (T = F + c.toNat ∨ (F + c.toNat = 2 ^ 63 ∧ T = -2 ^ 63)) := by
  obtain ⟨hpos, hle⟩ := le_of_mem_widths hw
  have hH : (2 : ℤ) ^ (w - 1) ≤ 2 ^ 63 := pow_le_pow_right₀ (by decide) (by omega)
  have hcontent := h.content hw
  have hsum := toInt_add_bit rhs.materialise.val c
  have hc := c.toNat_le
  cases rhs with
  | reg r =>
    have hF : r.full.toInt = b.toInt := hcontent.eq rfl
    by_cases hval : r.val = r.full
    · simp only [Operand.addend, if_pos hval]
      refine ⟨hF, ?_⟩
      change _ = r.full.toInt + _ ∨ r.full.toInt + _ = _ ∧ _
      rw [← hval]
      exact hsum
    · simp only [Operand.addend, if_neg hval]
      refine ⟨hF, ?_⟩
      have hturn := toInt_cases_of_setWidth hpos hle r.val
      have hlow : r.val.setWidth w = b := hcontent.low
      have hne : r.val.toInt ≠ b.toInt := fun he => hval (BitVec.eq_of_toInt_eq (he.trans hF.symm))
      have hB := r.val.le_toInt
      have hB' := r.val.toInt_lt
      have hb := b.le_toInt
      have hb' := b.toInt_lt
      rw [hlow] at hturn
      change (_ < (r.val + bit c).toInt) ∨ (r.val + bit c).toInt < _ ∨
        ((r.val + bit c).toInt = _ ∧ r.full.toInt = _ ∧ _) ∨
        ((r.val + bit c).toInt = _ ∧ r.full.toInt = _ ∧ _)
      change (r.val + bit c).toInt = r.val.toInt + _ ∨ r.val.toInt + _ = _ ∧
        (r.val + bit c).toInt = _ at hsum
      generalize (r.val + bit c).toInt = T at *
      omega
  | const imm =>
    have hlt := hcontent.lt
    have heq := hcontent.eq
    have hgt := hcontent.gt
    rw [Operand.full_const] at hlt heq hgt
    have hval : (Operand.const imm).materialise.val = imm := rfl
    rw [hval] at hsum
    rw [Operand.full_const, hval]
    generalize (imm + bit c).toInt = T at *
    have hHpos : (0 : ℤ) < 2 ^ (w - 1) := by positivity
    cases hr : (Operand.const imm).range w with
    | lt =>
      have := hlt hr
      simp only [Operand.addend, hr]
      omega
    | eq =>
      have := heq hr
      simp only [Operand.addend, hr]
      omega
    | gt =>
      have := hgt hr
      simp only [Operand.addend, hr]
      omega

include hw in
/-- Comparing the addend with a number of the width. The overflow of the first addition makes
up for its wrapped sum. -/
theorem addend_decide_lt (h : rhs.Carries b) {n : ℤ} (hl : -2 ^ (w - 1) < n)
    (hr : n ≤ 2 ^ (w - 1)) :
    (decide ((rhs.materialise.val + bit c).toInt < n) !=
        (rhs.materialise.val + bit c).slt rhs.materialise.full) =
      (decide (b.toInt + c.toNat < n) !=
        misread (rhs.addend w).range (b.toInt + c.toNat < n)) := by
  have hle := (le_of_mem_widths hw).2
  have hH : (2 : ℤ) ^ (w - 1) ≤ 2 ^ 63 := pow_le_pow_right₀ (by decide) (by omega)
  have hcases := addend_cases hw c h
  have hb := b.le_toInt
  have hb' := b.toInt_lt
  have hc := c.toNat_le
  rw [slt_eq]
  generalize (rhs.materialise.val + bit c).toInt = T at *
  generalize rhs.materialise.full.toInt = F at *
  cases ha : rhs.addend w with
  | exact =>
    simp only [ha] at hcases
    simp only [Addend.range, misread, Bool.bne_false, decide_bne_decide]
    exact decide_eq_decide.2 (by omega)
  | garbage =>
    simp only [ha] at hcases
    simp only [Addend.range, misread, bne_self_eq_false, decide_bne_decide]
    exact decide_eq_false (by omega)
  | below =>
    simp only [ha] at hcases
    have hT : T < n ∧ ¬ T < F := by omega
    simp [Addend.range, misread, hT]
  | above =>
    simp only [ha] at hcases
    simp only [Addend.range, misread, bne_self_eq_false, decide_bne_decide]
    exact decide_eq_false (by omega)

end Addend

/-! ## The flags -/

/-- The overflow flag is right. If the operands are exact, it is. -/
def AdcSbb.overflowRight {w : ℕ} (op : AdcSbb) (lhs rhs : Operand) (a b : BitVec w) (c : Bool) :
    Bool :=
  match op with
  | adc =>
    misread (rhs.addend w).range
        ((0 ≤ a.toInt && op.exact a.toInt b.toInt c < 2 ^ (w - 1)) ||
          op.exact a.toInt b.toInt c < -2 ^ (w - 1)) ==
      misread (lhs.range w) (a.toInt < 0)
  | sbb =>
    misread (lhs.range w)
        ((b.toInt + c.toNat ≤ 0 && op.exact a.toInt b.toInt c < 2 ^ (w - 1)) ||
          op.exact a.toInt b.toInt c < -2 ^ (w - 1)) ==
      misread (rhs.addend w).range (b.toInt + c.toNat ≤ 0)

/-- The carry flag is right. If the operands are exact, it is. -/
def AdcSbb.carryRight {w : ℕ} (op : AdcSbb) (lhs rhs : Operand) (a b : BitVec w) (c : Bool) :
    Bool :=
  let t := op.exact a.toNat b.toNat c
  match op, rhs.addend w, lhs.range w == .eq with
  | adc, .exact, _ => true
  | adc, .garbage, _ => if b.toInt < 0 then 2 ^ w ≤ t else 2 ^ (w - 1) ≤ t
  | adc, .below, _ | adc, .above, _ => 2 ^ (w - 1) ≤ t && t < 2 ^ w + 2 ^ (w - 1)
  | sbb, .exact, true => true
  | sbb, .garbage, true => 0 ≤ b.toInt || t < 0
  | sbb, .below, true | sbb, .above, true => (b.toNat + c.toNat : ℤ) != 2 ^ w
  | sbb, .exact, false => (b.toNat + c.toNat : ℤ) == 2 ^ w || -2 ^ (w - 1) ≤ t && t < 2 ^ (w - 1)
  | sbb, .garbage, false => if b.toInt < 0 then t < 0 else -2 ^ (w - 1) ≤ t && t < 2 ^ (w - 1)
  | sbb, .below, false | sbb, .above, false => -2 ^ (w - 1) ≤ t && t < 2 ^ (w - 1)

section Compare

variable {w : ℕ} (hw : w ∈ widths) {lhs rhs : Operand} {a b : BitVec w} (c : Bool)

theorem bne_right_comm (x y z : Bool) : ((x != y) != z) = ((x != z) != y) := by
  revert x y z
  decide

include hw in
theorem adcOverflow_iff (hlhs : lhs.Content a) (hrhs : rhs.Carries b) {o : BitVec 64}
    (ho : o = (AdcSbb.adc.value a b c).signExtend 64) :
    (((o.slt (rhs.materialise.val + bit c) != lhs.materialise.full.slt 0) !=
        (rhs.materialise.val + bit c).slt rhs.materialise.full) = AdcSbb.adc.overflow a b c) ↔
      AdcSbb.adc.overflowRight lhs rhs a b c := by
  obtain ⟨hpos, hle⟩ := le_of_mem_widths hw
  have hvalue := AdcSbb.adc.toInt_value_cases hpos a b c
  have hS := (AdcSbb.adc.value a b c).le_toInt
  have hS' := (AdcSbb.adc.value a b c).toInt_lt
  have ha := a.le_toInt
  have ha' := a.toInt_lt
  have hb := b.le_toInt
  have hb' := b.toInt_lt
  have hc := c.toNat_le
  have hHpos : (0 : ℤ) < 2 ^ (w - 1) := by positivity
  rw [bne_right_comm, slt_eq o, slt_eq lhs.materialise.full, ho, toInt_signExtend hle,
    toInt_zero64, not_lt_succ, ← not_bne, addend_decide_lt hw c hrhs (by omega) (by omega),
    hlhs.decide_lt hw (by omega) (by omega), not_bne]
  have hexact : AdcSbb.adc.exact a.toInt b.toInt c = a.toInt + (b.toInt + c.toNat) := rfl
  simp only [AdcSbb.overflowRight, AdcSbb.overflow]
  generalize (AdcSbb.adc.value a b c).toInt = S at *
  generalize AdcSbb.adc.exact a.toInt b.toInt c = t at *
  have hbelow : decide (b.toInt + c.toNat < S + 1) =
      ((0 ≤ a.toInt && t < 2 ^ (w - 1)) || t < -2 ^ (w - 1)) := by
    simp only [← Bool.decide_and, ← Bool.decide_or]
    exact decide_eq_decide.2 (by omega)
  have hflag : ((!decide (b.toInt + c.toNat < S + 1)) != decide (a.toInt < 0)) =
      (decide (t < -2 ^ (w - 1)) || decide (2 ^ (w - 1) ≤ t)) := by
    rw [← decide_not, decide_bne_decide, ← Bool.decide_or]
    exact decide_eq_decide.2 (by omega)
  rw [← hbelow, bne_misread_iff hflag, beq_iff_eq]

include hw in
theorem sbbOverflow_iff (hlhs : lhs.Content a) (hrhs : rhs.Carries b) {o : BitVec 64}
    (ho : o = (AdcSbb.sbb.value a b c).signExtend 64) :
    (((o.slt lhs.materialise.full != decide (0 < (rhs.materialise.val + bit c).toInt)) !=
        (rhs.materialise.val + bit c).slt rhs.materialise.full) = AdcSbb.sbb.overflow a b c) ↔
      AdcSbb.sbb.overflowRight lhs rhs a b c := by
  obtain ⟨hpos, hle⟩ := le_of_mem_widths hw
  have hvalue := AdcSbb.sbb.toInt_value_cases hpos a b c
  have hS := (AdcSbb.sbb.value a b c).le_toInt
  have hS' := (AdcSbb.sbb.value a b c).toInt_lt
  have ha := a.le_toInt
  have ha' := a.toInt_lt
  have hb := b.le_toInt
  have hb' := b.toInt_lt
  have hc := c.toNat_le
  have hHpos : (0 : ℤ) < 2 ^ (w - 1) := by positivity
  rw [Bool.bne_assoc, slt_eq o, ho, toInt_signExtend hle, not_lt_succ, not_lt_succ 0,
    ← not_bne (decide ((rhs.materialise.val + bit c).toInt < 0 + 1)),
    addend_decide_lt hw c hrhs (by omega) (by omega), hlhs.decide_lt hw (by omega) (by omega),
    not_bne, not_bne]
  have hexact : AdcSbb.sbb.exact a.toInt b.toInt c = a.toInt - (b.toInt + c.toNat) := rfl
  simp only [AdcSbb.overflowRight, AdcSbb.overflow]
  generalize (AdcSbb.sbb.value a b c).toInt = S at *
  generalize AdcSbb.sbb.exact a.toInt b.toInt c = t at *
  have hbelow : decide (a.toInt < S + 1) =
      ((b.toInt + c.toNat ≤ 0 && t < 2 ^ (w - 1)) || t < -2 ^ (w - 1)) := by
    simp only [← Bool.decide_and, ← Bool.decide_or]
    exact decide_eq_decide.2 (by omega)
  have hneg : decide (b.toInt + c.toNat < 0 + 1) = decide (b.toInt + c.toNat ≤ 0) :=
    decide_eq_decide.2 (by omega)
  have hflag : ((!decide (a.toInt < S + 1)) != (!decide (b.toInt + c.toNat < 0 + 1))) =
      (decide (t < -2 ^ (w - 1)) || decide (2 ^ (w - 1) ≤ t)) := by
    rw [← decide_not, ← decide_not, decide_bne_decide, ← Bool.decide_or]
    exact decide_eq_decide.2 (by omega)
  rw [← hbelow, ← hneg, bne_misread_iff hflag, beq_iff_eq]

include hw in
theorem adcCarry_iff (hrhs : rhs.Carries b) {o : BitVec 64}
    (ho : o = (AdcSbb.adc.value a b c).signExtend 64) :
    ((o.ult (rhs.materialise.val + bit c) ||
        (rhs.materialise.val + bit c).ult rhs.materialise.full) = AdcSbb.adc.carry a b c) ↔
      AdcSbb.adc.carryRight lhs rhs a b c := by
  obtain ⟨hpos, hle⟩ := le_of_mem_widths hw
  have hvalue := AdcSbb.adc.toInt_value_cases hpos a b c
  have hcases := addend_cases hw c hrhs
  have ha := a.le_toInt
  have ha' := a.toInt_lt
  have hb := b.le_toInt
  have hb' := b.toInt_lt
  have hc := c.toNat_le
  have han := toNat_cases hpos a
  have hbn := toNat_cases hpos b
  have hon := toNat_cases (by decide) o
  have hTn := toNat_cases (by decide) (rhs.materialise.val + bit c)
  have hFn := toNat_cases (by decide) rhs.materialise.full
  have hT := (rhs.materialise.val + bit c).le_toInt
  have hT' := (rhs.materialise.val + bit c).toInt_lt
  have hF := rhs.materialise.full.le_toInt
  have hF' := rhs.materialise.full.toInt_lt
  have hHpos : (0 : ℤ) < 2 ^ (w - 1) := by positivity
  have hH : (2 : ℤ) ^ (w - 1) ≤ 2 ^ 63 := pow_le_pow_right₀ (by decide) (by omega)
  have ho' : o.toInt = (AdcSbb.adc.value a b c).toInt := by rw [ho, toInt_signExtend hle]
  have hexact : AdcSbb.adc.exact a.toInt b.toInt c = a.toInt + (b.toInt + c.toNat) := rfl
  have hexact' : AdcSbb.adc.exact a.toNat b.toNat c = a.toNat + (b.toNat + c.toNat) := rfl
  rw [ult_eq, ult_eq, AdcSbb.carry, ← Bool.decide_or, ← Bool.decide_or, decide_eq_decide]
  unfold AdcSbb.carryRight
  rw [two_pow_eq hpos]
  generalize (AdcSbb.adc.value a b c).toInt = S at *
  generalize AdcSbb.adc.exact a.toInt b.toInt c = t at *
  generalize AdcSbb.adc.exact a.toNat b.toNat c = u at *
  generalize (rhs.materialise.val + bit c).toInt = T at *
  generalize ((rhs.materialise.val + bit c).toNat : ℤ) = T' at *
  generalize rhs.materialise.full.toInt = F at *
  generalize (rhs.materialise.full.toNat : ℤ) = F' at *
  cases hadd : rhs.addend w with
  | exact =>
    simp only [hadd] at hcases ⊢
    simp only [iff_true]
    omega
  | garbage =>
    simp only [hadd] at hcases ⊢
    split <;> rw [decide_eq_true_iff] <;> omega
  | below =>
    simp only [hadd] at hcases ⊢
    simp only [Bool.and_eq_true, decide_eq_true_iff]
    omega
  | above =>
    simp only [hadd] at hcases ⊢
    simp only [Bool.and_eq_true, decide_eq_true_iff]
    omega

include hw in
/-- The carry of the first addition. -/
theorem addend_ult (hrhs : rhs.Carries b) :
    (rhs.materialise.val + bit c).ult rhs.materialise.full =
      match rhs.addend w with
      | .exact => decide ((b.toNat + c.toNat : ℤ) = 2 ^ w)
      | .garbage => decide (b.toInt < 0)
      | _ => false := by
  obtain ⟨hpos, hle⟩ := le_of_mem_widths hw
  have hcases := addend_cases hw c hrhs
  have hb := b.le_toInt
  have hb' := b.toInt_lt
  have hc := c.toNat_le
  have hbn := toNat_cases hpos b
  have hTn := toNat_cases (by decide) (rhs.materialise.val + bit c)
  have hFn := toNat_cases (by decide) rhs.materialise.full
  have hT := (rhs.materialise.val + bit c).le_toInt
  have hT' := (rhs.materialise.val + bit c).toInt_lt
  have hF := rhs.materialise.full.le_toInt
  have hF' := rhs.materialise.full.toInt_lt
  have hHpos : (0 : ℤ) < 2 ^ (w - 1) := by positivity
  have hH : (2 : ℤ) ^ (w - 1) ≤ 2 ^ 63 := pow_le_pow_right₀ (by decide) (by omega)
  rw [ult_eq, two_pow_eq hpos]
  cases hadd : rhs.addend w with
  | exact =>
    simp only [hadd] at hcases ⊢
    exact decide_eq_decide.2 (by omega)
  | garbage =>
    simp only [hadd] at hcases ⊢
    exact decide_eq_decide.2 (by omega)
  | below =>
    simp only [hadd] at hcases ⊢
    exact decide_eq_false (by omega)
  | above =>
    simp only [hadd] at hcases ⊢
    exact decide_eq_false (by omega)

include hw in
/-- The borrow of the second subtraction. -/
theorem sbb_ult (hlhs : lhs.Content a) {o : BitVec 64}
    (ho : o = (AdcSbb.sbb.value a b c).signExtend 64) :
    lhs.materialise.full.ult o =
      if lhs.range w == .eq then
        decide (AdcSbb.sbb.exact a.toNat b.toNat c < 0 ∧ (b.toNat + c.toNat : ℤ) ≠ 2 ^ w)
      else decide ((AdcSbb.sbb.exact a.toNat b.toNat c < 0) ↔
        (-2 ^ (w - 1) ≤ AdcSbb.sbb.exact a.toNat b.toNat c ∧
          AdcSbb.sbb.exact a.toNat b.toNat c < 2 ^ (w - 1))) := by
  obtain ⟨hpos, hle⟩ := le_of_mem_widths hw
  have hvalue := AdcSbb.sbb.toInt_value_cases hpos a b c
  have hlt := hlhs.lt
  have heq := hlhs.eq
  have hgt := hlhs.gt
  have ha := a.le_toInt
  have ha' := a.toInt_lt
  have hb := b.le_toInt
  have hb' := b.toInt_lt
  have hc := c.toNat_le
  have han := toNat_cases hpos a
  have hbn := toNat_cases hpos b
  have hon := toNat_cases (by decide) o
  have hLn := toNat_cases (by decide) lhs.materialise.full
  have hL := lhs.materialise.full.le_toInt
  have hL' := lhs.materialise.full.toInt_lt
  have hHpos : (0 : ℤ) < 2 ^ (w - 1) := by positivity
  have hH : (2 : ℤ) ^ (w - 1) ≤ 2 ^ 63 := pow_le_pow_right₀ (by decide) (by omega)
  have ho' : o.toInt = (AdcSbb.sbb.value a b c).toInt := by rw [ho, toInt_signExtend hle]
  have hexact : AdcSbb.sbb.exact a.toInt b.toInt c = a.toInt - (b.toInt + c.toNat) := rfl
  have hexact' : AdcSbb.sbb.exact a.toNat b.toNat c = a.toNat - (b.toNat + c.toNat) := rfl
  rw [ult_eq, two_pow_eq hpos]
  generalize (AdcSbb.sbb.value a b c).toInt = S at *
  generalize AdcSbb.sbb.exact a.toInt b.toInt c = t at *
  generalize AdcSbb.sbb.exact a.toNat b.toNat c = u at *
  cases hrange : lhs.range w with
  | lt =>
    have := hlt hrange
    exact decide_eq_decide.2 (by omega)
  | eq =>
    have := heq hrange
    exact decide_eq_decide.2 (by omega)
  | gt =>
    have := hgt hrange
    exact decide_eq_decide.2 (by omega)

include hw in
theorem sbbCarry_iff (hlhs : lhs.Content a) (hrhs : rhs.Carries b) {o : BitVec 64}
    (ho : o = (AdcSbb.sbb.value a b c).signExtend 64) :
    ((lhs.materialise.full.ult o ||
        (rhs.materialise.val + bit c).ult rhs.materialise.full) = AdcSbb.sbb.carry a b c) ↔
      AdcSbb.sbb.carryRight lhs rhs a b c := by
  obtain ⟨hpos, hle⟩ := le_of_mem_widths hw
  have ha := a.isLt
  have hexact : AdcSbb.sbb.exact a.toNat b.toNat c = a.toNat - (b.toNat + c.toNat) := rfl
  rw [sbb_ult hw c hlhs ho, addend_ult hw c hrhs, AdcSbb.carry]
  unfold AdcSbb.carryRight
  generalize AdcSbb.sbb.exact a.toNat b.toNat c = u at *
  have hpow : ((2 ^ w : ℕ) : ℤ) = 2 ^ w := by push_cast; rfl
  have hcarry : (decide (u < 0) || decide ((2 : ℤ) ^ w ≤ u)) = decide (u < 0) := by
    rw [← Bool.decide_or]
    exact decide_eq_decide.2 (by omega)
  have hturn : (b.toNat + c.toNat : ℤ) = 2 ^ w → u < 0 ∧ b.toInt < 0 := by
    have hbn := toNat_cases hpos b
    have hb' := b.toInt_lt
    have hc := c.toNat_le
    have hHpos : (0 : ℤ) < 2 ^ (w - 1) := by positivity
    have htwo := two_pow_eq hpos
    omega
  rw [hcarry]
  clear hcarry hpow hexact ha
  cases rhs.addend w <;> cases (lhs.range w == .eq) <;> grind

end Compare

/-! ## Results -/

/-- The zero and the sign flag of a register that may still have to be extended. -/
theorem zeroSignFlag_ok {out : TypedRegister} (hout : out.width ∈ widths) (zf sf : Bool)
    (of cf : Option (BitVec 64)) :
    ∃ out', zeroSignFlag out zf sf ⟨none, of, cf, none⟩ =
      .ok (out', ⟨if zf then some (seqz out.full) else none, of, cf,
        if sf then some (sltz out.full) else none⟩) ∧ out.Extends out' := by
  obtain ⟨o, ho, howidth, hoval, -⟩ := extendTo64_ok hout
  cases hany : zf || sf with
  | true =>
    refine ⟨o, ?_, .inr ⟨howidth, hoval⟩⟩
    simp [zeroSignFlag, hany, ho, hoval, pure, Except.pure]
  | false =>
    simp only [Bool.or_eq_false_iff] at hany
    obtain ⟨rfl, rfl⟩ := hany
    exact ⟨out, rfl, .inl rfl⟩

/-- The flags of the two steps, joined. -/
theorem pick_join (want : Wanted) (z o c s z' o' c' s' : BitVec 64) :
    (want.carries.pick z o c s).join (want.carries.pick z' o' c' s') =
      ⟨none, if want.of then some (o ^^^ o') else none, if want.cf then some (c ||| c') else none,
        none⟩ := by
  obtain ⟨zf, of, cf, sf⟩ := want
  cases of <;> cases cf <;> rfl

section Right

variable {w : ℕ} (hw : w ∈ widths) {lhs rhs top : Operand} {a b : BitVec w} {c : Bool}

theorem setWidth_bit (hle : w ≤ 64) (c : Bool) :
    (bit c).setWidth w = BitVec.ofNat w c.toNat := by
  have hbit : bit c = BitVec.ofNat 64 c.toNat := by cases c <;> rfl
  rw [hbit, BitVec.setWidth_ofNat_of_le hle]

/-- The first step : its sum, and its flags. -/
theorem addend_eq (hrhs : rhs.materialise.width ∈ widths) (htop : top.materialise.val = bit c)
    (want : Wanted) :
    ∃ temp temp', add 64 rhs.materialise top.materialise = .ok temp ∧
      addiFlags temp rhs.materialise 1 want = .ok (temp', want.pick
        (seqz (rhs.materialise.val + bit c))
        (slt (rhs.materialise.val + bit c) rhs.materialise.full)
        (sltu (rhs.materialise.val + bit c) rhs.materialise.full)
        (sltz (rhs.materialise.val + bit c))) ∧
      temp'.width ∈ widths ∧ temp'.val = rhs.materialise.val + bit c ∧
      temp'.full = rhs.materialise.val + bit c := by
  obtain ⟨temp, htemp⟩ : ∃ temp : TypedRegister, temp =
    { TypedRegister.fresh 64 with val := rhs.materialise.val + bit c } := ⟨_, rfl⟩
  have hcarries : temp.Carries (rhs.materialise.val + bit c) := by
    rw [htemp]
    exact carries_of_setWidth (by simp [TypedRegister.fresh, widths]) rfl (BitVec.setWidth_eq _)
  have hfull : temp.full = rhs.materialise.val + bit c := by simpa using hcarries.full_eq
  obtain ⟨temp', hflags, hext⟩ := addiFlags_eq hcarries.mem hrhs 1 want
  have hone : bit (decide ((1 : BitVec 64).toInt < 0)) = 0 := by decide
  refine ⟨temp, temp', ?_, ?_, hext.mem hcarries.mem, ?_, hext.full_eq.trans hfull⟩
  · rw [htemp, ← htop]
    rfl
  · rw [hflags, hfull, hone]
    simp
  · simpa using hcarries.setWidth_of_extends hext

/-- The result and the flags are the reference ones where `overflowRight` and `carryRight` say
so. The result, and the zero and the sign flag, always are. -/
theorem materialiseTernaryArith_right_iff (hw : w ∈ widths) (op : AdcSbb)
    (hlhs : lhs.Carries a) (hrhs : rhs.Carries b) (htop : top.materialise.val = bit c)
    (want : Wanted) :
    Yields (materialiseTernaryArith op w lhs rhs top want) want (op.value a b c)
        (op.value a b c == 0) (op.overflow a b c) (op.carry a b c) (op.value a b c).msb ↔
      (want.of → op.overflowRight lhs rhs a b c) ∧ (want.cf → op.carryRight lhs rhs a b c) := by
  have hl := hlhs.content hw
  have hr := hrhs.content hw
  have hle := (le_of_mem_widths hw).2
  obtain ⟨temp, temp', htemp, htmp, hmem, hval, hfull⟩ := addend_eq hr.width htop want.carries
  have hlow : temp'.val.setWidth w = b + BitVec.ofNat w c.toNat := by
    rw [hval, BitVec.setWidth_add _ _ hle, hr.low, setWidth_bit hle]
  cases op with
  | adc =>
    obtain ⟨out, hadd, hout⟩ := add_carries hw hl.low hlow
    rw [← BitVec.add_assoc] at hout
    obtain ⟨out', hflags, hext⟩ := addFlags_eq hout.mem hl.width hmem want.carries
    obtain ⟨out'', hzs, hext'⟩ := zeroSignFlag_ok (hext.mem hout.mem) want.zf want.sf
      (if want.of then some (bit ((out.full.slt temp'.full != lhs.materialise.full.slt 0) !=
        temp'.full.slt rhs.materialise.full)) else none)
      (if want.cf then some (bit (out.full.ult temp'.full ||
        temp'.full.ult rhs.materialise.full)) else none)
    have hres : materialiseTernaryArith .adc w lhs rhs top want = .ok (out'', want.pick
        (seqz out.full) (bit ((out.full.slt temp'.full != lhs.materialise.full.slt 0) !=
          temp'.full.slt rhs.materialise.full))
        (bit (out.full.ult temp'.full || temp'.full.ult rhs.materialise.full))
        (sltz out.full)) := by
      simp only [materialiseTernaryArith, htemp, htmp, hadd, hflags, ok_bind, pick_join]
      rw [hext.full_eq] at hzs
      simp only [slt, sltz, sltu, bit_xor, bit_or, ← hfull]
      exact hzs
    rw [hfull] at hres
    rw [AdcSbb.value, yields_iff hw hout hres (hext.trans hext')]
    refine and_congr (imp_congr_right fun _ => ?_) (imp_congr_right fun _ => ?_)
    · exact adcOverflow_iff hw c hl hrhs hout.full_eq
    · exact adcCarry_iff hw c hrhs hout.full_eq
  | sbb =>
    obtain ⟨out, hsub, hout⟩ := sub_carries hw hl.low hlow
    rw [sub_add_eq_sub_sub] at hout
    obtain ⟨out', hflags, hext⟩ := subFlags_eq hout.mem hl.width hmem want.carries
    obtain ⟨out'', hzs, hext'⟩ := zeroSignFlag_ok (hext.mem hout.mem) want.zf want.sf
      (if want.of then some (bit ((out.full.slt lhs.materialise.full !=
        decide (0 < temp'.full.toInt)) != temp'.full.slt rhs.materialise.full)) else none)
      (if want.cf then some (bit (lhs.materialise.full.ult out.full ||
        temp'.full.ult rhs.materialise.full)) else none)
    have hres : materialiseTernaryArith .sbb w lhs rhs top want = .ok (out'', want.pick
        (seqz out.full) (bit ((out.full.slt lhs.materialise.full !=
          decide (0 < temp'.full.toInt)) != temp'.full.slt rhs.materialise.full))
        (bit (lhs.materialise.full.ult out.full || temp'.full.ult rhs.materialise.full))
        (sltz out.full)) := by
      simp only [materialiseTernaryArith, htemp, htmp, hsub, hflags, ok_bind, pick_join]
      rw [hext.full_eq] at hzs
      simp only [slt, sltz, sgtz, sltu, bit_xor, bit_or, ← hfull]
      exact hzs
    rw [hfull] at hres
    rw [AdcSbb.value, yields_iff hw hout hres (hext.trans hext')]
    refine and_congr (imp_congr_right fun _ => ?_) (imp_congr_right fun _ => ?_)
    · exact sbbOverflow_iff hw c hl hrhs hout.full_eq
    · exact sbbCarry_iff hw c hl hrhs hout.full_eq

end Right

/-- `adc rax, rbx` where the carry wraps the right operand around. -/
theorem right_adcWrap :
    Yields (materialiseTernaryArith .adc 64 (.reg ⟨5, 64, 0⟩) (.reg ⟨-1, 64, 0⟩) (.const 1)
        ⟨true, true, true, true⟩) ⟨true, true, true, true⟩ (5 : BitVec 64)
        false false true false :=
  have hlhs : (Operand.reg ⟨5, 64, 0⟩).Carries (5 : BitVec 64) := ⟨by decide, le_rfl, rfl⟩
  have hrhs : (Operand.reg ⟨-1, 64, 0⟩).Carries (-1 : BitVec 64) := ⟨by decide, le_rfl, rfl⟩
  (materialiseTernaryArith_right_iff (w := 64) (c := true) (by decide) .adc hlhs hrhs rfl
    ⟨true, true, true, true⟩).2 ⟨by decide, by decide⟩

/-- `adc al, bl` of one and one, where the register of `bl` holds `0x101`. The sum of the first
step is larger than the right operand, extended, and the overflow flag is set. -/
theorem not_right_adcGarbage :
    ¬ ∀ (op : AdcSbb) (lhs rhs top : Operand) (a b : BitVec 8) (c : Bool), lhs.Carries a →
      rhs.Carries b → top.materialise.val = bit c → ∀ want,
        Yields (materialiseTernaryArith op 8 lhs rhs top want) want (op.value a b c)
          (op.value a b c == 0) (op.overflow a b c) (op.carry a b c) (op.value a b c).msb := by
  intro h
  have hlhs : (Operand.reg ⟨1, 8, 0⟩).Carries (1 : BitVec 8) := ⟨by decide, le_rfl, rfl⟩
  have hrhs : (Operand.reg ⟨0x101, 8, 0⟩).Carries (1 : BitVec 8) := ⟨by decide, le_rfl, rfl⟩
  obtain ⟨out, f, hres, -, -, hof, -, -⟩ :=
    h .adc _ _ (.const 0) 1 1 false hlhs hrhs rfl ⟨false, true, false, false⟩
  cases hres
  exact absurd (hof rfl) (by decide)

end Arancini.Riscv
