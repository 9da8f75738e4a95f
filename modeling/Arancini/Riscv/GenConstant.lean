import Mathlib.Logic.Function.Basic
import Arancini.Riscv.Typed

/-!
# Constants in a register

`gen_constant` puts a number of 64 bits into a register. A number that `lui` and `addiw`
reach, or `li` alone, is the base case. Another number loses its low twelve bits, which an
`addi` adds at the end, and the zeros below what is left, which an `slli` brings back : what
remains is generated first, by the same function.

The low twelve bits count as signed, so the number may grow by `2^11` before it is shifted.
It still loses twelve bits at each level (`natAbs_upper_le`), which bounds the recursion.
-/

namespace Arancini.Riscv

/-! ## Instructions -/

/-- `Utils::IsInt`. -/
def isInt (n : ℕ) (value : ℤ) : Bool :=
  -2 ^ (n - 1) ≤ value && value < 2 ^ (n - 1)

/-- `IsUTypeImm`. -/
def isUTypeImm (imm : ℤ) : Bool :=
  isInt 32 imm && imm % 2 ^ 12 == 0

/-- The instructions of `gen_constant`, on virtual registers. An immediate is an `intptr_t`. -/
inductive ConstInstr
  | lui (rd : ℕ) (imm : BitVec 64)
  | li (rd : ℕ) (imm : BitVec 64)
  | addi (rd rs1 : ℕ) (imm : BitVec 64)
  | addiw (rd rs1 : ℕ) (imm : BitVec 64)
  | slli (rd rs1 shamt : ℕ)
  deriving DecidableEq

namespace ConstInstr

/-- The immediate is one that the field of the instruction holds. -/
def fits : ConstInstr → Bool
  | lui _ imm => isUTypeImm imm.toInt
  | li _ imm | addi _ _ imm | addiw _ _ imm => isITypeImm imm.toInt
  | slli _ _ shamt => 0 < shamt && shamt < 64

/-- The instruction as it is encoded : the field takes the low bits of an immediate. -/
def exec : ConstInstr → (ℕ → BitVec 64) → ℕ → BitVec 64
  | lui rd imm, regs => Function.update regs rd (sext 32 (imm >>> 12 <<< 12))
  | li rd imm, regs => Function.update regs rd (sext 12 imm)
  | addi rd rs1 imm, regs => Function.update regs rd (regs rs1 + sext 12 imm)
  | addiw rd rs1 imm, regs => Function.update regs rd (sextw (regs rs1 + sext 12 imm))
  | slli rd rs1 shamt, regs => Function.update regs rd (Riscv.slli (regs rs1) (shamt % 64))

end ConstInstr

/-- A sequence of instructions. -/
def execAll (is : List ConstInstr) (regs : ℕ → BitVec 64) : ℕ → BitVec 64 :=
  is.foldl (fun regs i => i.exec regs) regs

@[simp] theorem execAll_nil (regs : ℕ → BitVec 64) : execAll [] regs = regs := rfl

@[simp] theorem execAll_cons (i : ConstInstr) (is : List ConstInstr) (regs : ℕ → BitVec 64) :
    execAll (i :: is) regs = execAll is (i.exec regs) := rfl

@[simp] theorem execAll_append (is js : List ConstInstr) (regs : ℕ → BitVec 64) :
    execAll (is ++ js) regs = execAll js (execAll is regs) :=
  List.foldl_append

/-! ## The function -/

/-- `(int32_t)imm`. -/
def immLo32 (imm : BitVec 64) : BitVec 32 := imm.setWidth 32

/-- The low twelve bits, sign-extended. -/
def immLo12 (imm : BitVec 64) : BitVec 32 :=
  (immLo32 imm <<< (32 - 12)).sshiftRight (32 - 12)

/-- What `gen_constant` generates first when the number does not fit in 32 bits, and the shift
that follows. -/
def upper (imm : BitVec 64) : BitVec 64 × ℕ :=
  let val := imm - (immLo12 imm).signExtend 64
  if isInt 32 val.toInt then (val, 0)
  else
    let shiftAmnt := val.ctz.toNat
    let val := val.sshiftRight shiftAmnt
    if 12 < shiftAmnt && !isITypeImm val.toInt && isInt 32 (val <<< 12).toInt then
      (val <<< 12, shiftAmnt - 12)
    else (val, shiftAmnt)

/-- `gen_constant` of a number that is an `int32_t`. The subtraction wraps. -/
def genConstant32 (reg : ℕ) (imm : BitVec 64) : List ConstInstr :=
  let imm32Hi20 := immLo32 imm - immLo12 imm
  if imm32Hi20 ≠ 0 then
    .lui reg (imm32Hi20.signExtend 64) ::
      if immLo12 imm ≠ 0 then [.addiw reg reg ((immLo12 imm).signExtend 64)] else []
  else [.li reg imm]

/-! ## One level -/

theorem signExtend_immLo12 (imm : BitVec 64) : (immLo12 imm).signExtend 64 = sext 12 imm := by
  rw [immLo12, sshiftRight_shiftLeft (by decide) (by decide), immLo32, sext, sext,
    BitVec.setWidth_setWidth_of_le _ (by decide)]
  refine BitVec.eq_of_toInt_eq ?_
  rw [toInt_signExtend (by decide), toInt_signExtend (by decide), toInt_signExtend (by decide)]

theorem toInt_sext12_bounds (imm : BitVec 64) :
    -2048 ≤ (sext 12 imm).toInt ∧ (sext 12 imm).toInt ≤ 2047 := by
  rw [sext, toInt_signExtend (by decide)]
  have hl := BitVec.le_toInt (imm.setWidth 12)
  have hu := BitVec.toInt_lt (x := imm.setWidth 12)
  omega

/-- What is left when the low twelve bits are taken. -/
theorem toInt_sub_sext12_cases (imm : BitVec 64) :
    4096 ∣ (imm - sext 12 imm).toInt ∧
      (imm - sext 12 imm).toInt.natAbs ≤ imm.toInt.natAbs + 2048 := by
  constructor
  · refine dvd_toInt_of_setWidth_eq_zero (show 12 ≤ 64 by decide) ?_
    rw [setWidth_sub (by decide), setWidth_sext (by decide)]
    exact BitVec.sub_self _
  · have hlo := toInt_sext12_bounds imm
    have hl := BitVec.le_toInt imm
    have hu := BitVec.toInt_lt (x := imm)
    have hsub := toInt_sub_cases (show 0 < 64 by decide) imm (sext 12 imm)
    omega

theorem toInt_shiftLeft_12 {x : BitVec 64} (h : x.toInt.natAbs < 2 ^ 51) :
    (x <<< 12).toInt = x.toInt * 2 ^ 12 := by
  rw [BitVec.shiftLeft_eq_mul_twoPow, BitVec.toInt_mul,
    show (BitVec.twoPow 64 12).toInt = 2 ^ 12 from rfl]
  exact Int.bmod_eq_of_le_mul_two (by omega) (by omega)

/-- Shifting out `k` bits divides by `2 ^ k` at least. -/
theorem natAbs_mul_le {v val : ℤ} {s k : ℕ} (h : v * 2 ^ s = val) (hk : k ≤ s) :
    v.natAbs * 2 ^ k ≤ val.natAbs := by
  rw [← h, Int.natAbs_mul, Int.natAbs_pow]
  exact Nat.mul_le_mul_left _ (Nat.pow_le_pow_right (by decide) hk)

/-- Shifting the number that is generated first gives back what is above the low bits. It is an
`int32_t`, or has lost twelve bits. -/
theorem upper_spec (imm : BitVec 64) :
    (upper imm).1.toInt * 2 ^ (upper imm).2 = (imm - sext 12 imm).toInt ∧ (upper imm).2 < 64 ∧
      (isInt 32 (upper imm).1.toInt ∨ 12 ≤ (upper imm).2) := by
  simp only [upper, signExtend_immLo12]
  generalize hval : imm - sext 12 imm = val
  split
  case isTrue h => exact ⟨by simp, by simp, .inl h⟩
  case isFalse h =>
    have hne : val ≠ 0 := by
      rintro rfl
      exact h rfl
    have hlow : val.setWidth 12 = 0 := by
      rw [← hval, setWidth_sub (by decide), setWidth_sext (by decide)]
      exact BitVec.sub_self _
    have hdiv := toInt_sshiftRight_ctz hne
    have hlt := toNat_ctz_lt hne
    split
    case isFalse => exact ⟨hdiv, hlt, .inr (le_ctz hne hlow)⟩
    case isTrue hfit =>
      simp only [Bool.and_eq_true, decide_eq_true_eq] at hfit
      obtain ⟨⟨hc, -⟩, hint⟩ := hfit
      refine ⟨?_, by omega, .inl hint⟩
      have hbound := natAbs_mul_le hdiv (show 13 ≤ val.ctz.toNat by omega)
      have hval64 := BitVec.le_toInt val
      have hval64' := BitVec.toInt_lt (x := val)
      have hpow : (2 : ℤ) ^ val.ctz.toNat = 2 ^ 12 * 2 ^ (val.ctz.toNat - 12) := by
        rw [← pow_add]
        congr 1
        omega
      rw [toInt_shiftLeft_12 (by omega), ← hdiv, hpow, mul_assoc]

/-- The number that is generated first is smaller. -/
theorem natAbs_upper_lt {imm : BitVec 64} (h : imm ≠ sext 32 imm) :
    (upper imm).1.toInt.natAbs < imm.toInt.natAbs := by
  obtain ⟨hshift, -, hfit⟩ := upper_spec imm
  obtain ⟨-, hval⟩ := toInt_sub_sext12_cases imm
  have hbig : ¬(-2 ^ 31 ≤ imm.toInt ∧ imm.toInt < 2 ^ 31) := fun hr =>
    h ((sext_eq_self_iff (by decide) (by decide)).2 hr).symm
  rcases Nat.eq_zero_or_pos (upper imm).2 with hs | hs
  · -- nothing is shifted out, so what is left is an `int32_t`
    rw [hs] at hshift hfit
    have hint : isInt 32 (upper imm).1.toInt := by simpa using hfit
    simp only [isInt, Bool.and_eq_true, decide_eq_true_eq] at hint
    have hlo := toInt_sext12_bounds imm
    have hsub := toInt_sub_cases (show 0 < 64 by decide) imm (sext 12 imm)
    omega
  · have hhalf := natAbs_mul_le hshift hs
    omega

/-- `gen_constant`. -/
def genConstant (reg : ℕ) (imm : BitVec 64) : List ConstInstr :=
  if imm = (immLo32 imm).signExtend 64 then genConstant32 reg imm
  else
    genConstant reg (upper imm).1 ++
      (if (upper imm).2 ≠ 0 then [.slli reg reg (upper imm).2] else []) ++
        if immLo12 imm ≠ 0 then [.addi reg reg ((immLo12 imm).signExtend 64)] else []
termination_by imm.toInt.natAbs
decreasing_by exact natAbs_upper_lt ‹_›

/-! ## What the sequence does -/

theorem sext12_eq_zero {imm : BitVec 64} (h : immLo12 imm = 0) : sext 12 imm = 0#64 := by
  rw [← signExtend_immLo12, h]
  rfl

/-- The immediate of `lui`. -/
theorem signExtend_imm32Hi20 (imm : BitVec 64) :
    (immLo32 imm - immLo12 imm).signExtend 64 = sext 32 (imm - sext 12 imm) := by
  rw [sext, setWidth_sub (by decide), ← signExtend_immLo12, setWidth_signExtend (by decide)]
  rfl

theorem setWidth_imm32Hi20 (imm : BitVec 64) :
    (sext 32 (imm - sext 12 imm)).setWidth 12 = 0 := by
  rw [← BitVec.setWidth_setWidth_of_le _ (show 12 ≤ 32 by decide), setWidth_sext (by decide),
    BitVec.setWidth_setWidth_of_le _ (by decide), setWidth_sub (by decide),
    setWidth_sext (by decide)]
  exact BitVec.sub_self _

/-- `li` alone is enough when `lui` has nothing to load. -/
theorem eq_sext12_of_imm32Hi20_eq_zero {imm : BitVec 64} (himm : imm = sext 32 imm)
    (h : immLo32 imm - immLo12 imm = 0) : imm = sext 12 imm := by
  have hlo : immLo12 imm = immLo32 imm := by
    simpa using BitVec.eq_sub_iff_add_eq.1 h.symm
  rw [← signExtend_immLo12, hlo]
  exact himm

/-- What `addiw` makes of the number that `lui` has loaded. -/
theorem sext_imm32Hi20_add {imm : BitVec 64} (himm : imm = sext 32 imm) :
    sext 32 (sext 32 (imm - sext 12 imm) + sext 12 imm) = imm := by
  conv_rhs => rw [himm]
  refine congrArg (BitVec.signExtend 64) ?_
  rw [BitVec.setWidth_add _ _ (by decide), setWidth_sext (by decide),
    ← BitVec.setWidth_add _ _ (by decide), BitVec.sub_add_cancel]

/-- The field of `lui` holds its immediate. -/
theorem sext_imm32Hi20 (imm : BitVec 64) :
    sext 32 (sext 32 (imm - sext 12 imm) >>> 12 <<< 12) = sext 32 (imm - sext 12 imm) := by
  rw [shiftLeft_ushiftRight_of_setWidth_eq_zero (setWidth_imm32Hi20 imm), sext_sext (by decide)]

theorem execAll_genConstant32 {imm : BitVec 64} (himm : imm = sext 32 imm) (reg : ℕ)
    (regs : ℕ → BitVec 64) :
    execAll (genConstant32 reg imm) regs = Function.update regs reg imm := by
  simp only [genConstant32, signExtend_immLo12, signExtend_imm32Hi20]
  split
  case isFalse h =>
    have hli := eq_sext12_of_imm32Hi20_eq_zero himm (not_not.1 h)
    simp [ConstInstr.exec, ← hli]
  case isTrue h =>
    split
    case isFalse hlo =>
      have hzero : sext 12 imm = 0#64 := sext12_eq_zero (not_not.1 hlo)
      rw [execAll_cons, execAll_nil, ConstInstr.exec, sext_imm32Hi20, hzero, BitVec.sub_zero,
        ← himm]
    case isTrue hlo =>
      rw [execAll_cons, execAll_cons, execAll_nil, ConstInstr.exec, ConstInstr.exec, sext_imm32Hi20,
        Function.update_self, Function.update_idem, sext_sext (by decide), sextw,
        sext_imm32Hi20_add himm]

theorem fits_genConstant32 {imm : BitVec 64} (himm : imm = sext 32 imm) (reg : ℕ) :
    ∀ i ∈ genConstant32 reg imm, i.fits := by
  simp only [genConstant32, signExtend_immLo12, signExtend_imm32Hi20]
  have hlo := toInt_sext12_bounds imm
  have hdvd := dvd_toInt_of_setWidth_eq_zero (by decide) (setWidth_imm32Hi20 imm)
  have hbounds := (sext_eq_self_iff (show 0 < 32 by decide) (by decide)).1
    (sext_sext (show 32 ≤ 64 by decide) (imm - sext 12 imm))
  split
  case isFalse h =>
    have hli := eq_sext12_of_imm32Hi20_eq_zero himm (not_not.1 h)
    rw [← hli] at hlo
    simpa [ConstInstr.fits, isITypeImm] using hlo
  case isTrue h =>
    have hlui : isUTypeImm (sext 32 (imm - sext 12 imm)).toInt := by
      simp only [isUTypeImm, isInt, Bool.and_eq_true, decide_eq_true_eq, beq_iff_eq]
      omega
    have haddiw : isITypeImm (sext 12 imm).toInt := by
      simpa [isITypeImm] using hlo
    split <;> simp [ConstInstr.fits, hlui, haddiw]

theorem length_genConstant32 (reg : ℕ) (imm : BitVec 64) : (genConstant32 reg imm).length ≤ 2 := by
  simp only [genConstant32]
  split
  · split <;> simp
  · simp

/-- What the shift and the addition at the end of a level make of the number above them. -/
theorem shiftLeft_upper_add (imm : BitVec 64) :
    (upper imm).1 <<< (upper imm).2 + sext 12 imm = imm := by
  rw [shiftLeft_eq_ofInt, (upper_spec imm).1, BitVec.ofInt_toInt, BitVec.sub_add_cancel]

theorem execAll_genConstant (reg : ℕ) (imm : BitVec 64) (regs : ℕ → BitVec 64) :
    execAll (genConstant reg imm) regs = Function.update regs reg imm := by
  fun_induction genConstant reg imm with
  | case1 imm himm => exact execAll_genConstant32 himm reg regs
  | case2 imm himm ih =>
    obtain ⟨-, hlt, -⟩ := upper_spec imm
    have hslli : execAll (if (upper imm).2 ≠ 0 then [.slli reg reg (upper imm).2] else [])
        (Function.update regs reg (upper imm).1) =
          Function.update regs reg ((upper imm).1 <<< (upper imm).2) := by
      split
      case isTrue =>
        simp [ConstInstr.exec, slli, Nat.mod_eq_of_lt hlt]
      case isFalse h => simp [not_not.1 h]
    rw [execAll_append, execAll_append, ih, hslli]
    split
    case isTrue =>
      simp [ConstInstr.exec, signExtend_immLo12, sext_sext, shiftLeft_upper_add]
    case isFalse h =>
      have hlast := shiftLeft_upper_add imm
      rw [sext12_eq_zero (not_not.1 h), BitVec.add_zero] at hlast
      rw [execAll_nil, hlast]

theorem fits_genConstant (reg : ℕ) (imm : BitVec 64) : ∀ i ∈ genConstant reg imm, i.fits := by
  fun_induction genConstant reg imm with
  | case1 imm himm => exact fits_genConstant32 himm reg
  | case2 imm himm ih =>
    obtain ⟨-, hlt, -⟩ := upper_spec imm
    have hlo := toInt_sext12_bounds imm
    intro i hi
    rcases List.mem_append.1 hi with hi | hi
    · rcases List.mem_append.1 hi with hi | hi
      · exact ih i hi
      · split at hi
        · obtain rfl := List.mem_singleton.1 hi
          simp only [ConstInstr.fits, Bool.and_eq_true, decide_eq_true_eq]
          omega
        · cases hi
    · split at hi
      · obtain rfl := List.mem_singleton.1 hi
        simpa [ConstInstr.fits, signExtend_immLo12, isITypeImm] using hlo
      · cases hi

/-- A level takes twelve bits, or is followed by the last one. -/
theorem natAbs_upper_le {imm : BitVec 64} {k : ℕ} (h : imm.toInt.natAbs ≤ 2 ^ (k + 12)) :
    isInt 32 (upper imm).1.toInt ∨ (upper imm).1.toInt.natAbs ≤ 2 ^ k := by
  obtain ⟨hshift, -, hfit | hs⟩ := upper_spec imm
  · exact .inl hfit
  · obtain ⟨hdvd, hval⟩ := toInt_sub_sext12_cases imm
    have hbound := natAbs_mul_le hshift hs
    right
    rw [pow_add] at h
    omega

theorem length_genConstant_of_isInt {imm : BitVec 64} (h : isInt 32 imm.toInt) (reg : ℕ) :
    (genConstant reg imm).length ≤ 2 := by
  have himm : imm = (immLo32 imm).signExtend 64 := by
    simp only [isInt, Bool.and_eq_true, decide_eq_true_eq] at h
    exact ((sext_eq_self_iff (by decide) (by decide)).2 h).symm
  rw [genConstant, if_pos himm]
  exact length_genConstant32 reg imm

/-- Each level of the recursion adds two instructions at most. -/
theorem length_genConstant_le {n : ℕ} (reg : ℕ) {imm : BitVec 64}
    (h : imm.toInt.natAbs ≤ 2 ^ (27 + 12 * n)) : (genConstant reg imm).length ≤ 2 + 2 * n := by
  induction n generalizing imm with
  | zero =>
    refine length_genConstant_of_isInt ?_ reg
    simp only [isInt, Bool.and_eq_true, decide_eq_true_eq]
    omega
  | succ n ih =>
    rw [genConstant]
    split
    case isTrue =>
      have := length_genConstant32 reg imm
      omega
    case isFalse =>
      have hupper : (genConstant reg (upper imm).1).length ≤ 2 + 2 * n := by
        rcases natAbs_upper_le (k := 27 + 12 * n) h with hfit | hle
        · have := length_genConstant_of_isInt hfit reg
          omega
        · exact ih hle
      rw [List.length_append, List.length_append]
      split <;> split <;> simp <;> omega

/-- The sequence for a number leaves it in the register and touches no other register. Each of its
immediates is one its instruction can hold, and the recursion ends after three levels. -/
theorem genConstant_right (reg : ℕ) (imm : BitVec 64) :
    (∀ regs, execAll (genConstant reg imm) regs = Function.update regs reg imm) ∧
      (∀ i ∈ genConstant reg imm, i.fits) ∧ (genConstant reg imm).length ≤ 8 := by
  refine ⟨execAll_genConstant reg imm, fits_genConstant reg imm, ?_⟩
  refine length_genConstant_le (n := 3) reg ?_
  have hl := BitVec.le_toInt imm
  have hu := BitVec.toInt_lt (x := imm)
  omega

end Arancini.Riscv
