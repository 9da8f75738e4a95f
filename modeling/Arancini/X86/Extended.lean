import Arancini.X86.X87

/-!
# The format of 80 bits

`FSTP` of ten bytes moves the fields of a double to where the extended format has them. The four
bits of the exponent that a double does not have are always zero and the integer bit is never set,
so that only a zero is stored as it should be (`extended_right_iff`). `FLD` takes the fields back
from the same places, so that it always gives what was stored.
-/

namespace Arancini.X86.X87

open Ir

/-! ## The reference -/

/-- The exponent of a double, with its bias. -/
def exponent (v : BitVec 64) : BitVec 11 :=
  v.extractLsb' 52 11

def fraction (v : BitVec 64) : BitVec 52 :=
  v.extractLsb' 0 52

/-- A zero, a normal number or an infinity. -/
def Encodable (v : BitVec 64) : Prop :=
  exponent v = 0 ∨ exponent v = 0x7FF → fraction v = 0

/-- The exponent in the extended format. The biases are 1023 and 16383. -/
def extendedExponent (v : BitVec 64) : BitVec 15 :=
  if exponent v = 0 then 0
  else if exponent v = 0x7FF then 0x7FFF
  else (exponent v).setWidth 15 + 15360

/-- The encoding of such a double : its sign, the exponent, the integer bit and the fraction. -/
def extended (v : BitVec 64) : BitVec 80 :=
  let sign := v.extractLsb' 63 1
  let integerBit := BitVec.ofBool (exponent v != 0)
  insertField (insertField (insertField (insertField 0 79 1 sign) 64 15 (extendedExponent v))
    63 1 integerBit) 11 52 (fraction v)

/-- `FSTP` of ten bytes leaves the encoding of `ST(0)` in memory, and `FLD` of these gives `ST(0)`
back. -/
def ExtendedRight (F : Functions) (s : CpuMem) (addr : BitVec 64) : Prop :=
  let stored := (Inst.fst true (.m80 addr)).exec F s
  let loaded := (Inst.fld (.m80 addr)).exec F stored
  readMem 10 addr stored = extended ((stack s).st 0) ∧ (stack loaded).st 0 = (stack s).st 0

/-! ## The fields -/

/-- A mask of the bits from `lo` to `hi`. -/
theorem getLsbD_mask (mask : BitVec 64) (lo hi : ℕ) (hhi : hi ≤ 64)
    (h : ∀ i : Fin 64, mask.getLsbD i = decide (lo ≤ i.val ∧ i.val < hi)) (i : ℕ) :
    mask.getLsbD i = decide (lo ≤ i ∧ i < hi) := by
  by_cases hi64 : i < 64
  · exact h ⟨i, hi64⟩
  · rw [BitVec.getLsbD_of_ge _ _ (by omega), decide_eq_false (by omega)]

/-- The bits that `FSTP` stores. -/
theorem getLsbD_fstM80 {v : BitVec 64} {i : ℕ} (hi : i < 80) :
    (fstM80 v).getLsbD i =
      if 78 ≤ i then v.getLsbD (i - 16)
      else if 64 ≤ i ∧ i < 74 then v.getLsbD (i - 12)
      else decide (11 ≤ i ∧ i < 63) && v.getLsbD (i - 11) := by
  have hfrac := getLsbD_mask 0x000FFFFFFFFFFFFF 0 52 (by decide) (by decide)
  have hexp := getLsbD_mask 0x3FF0000000000000 52 62 (by decide) (by decide)
  have hsign := getLsbD_mask 0xC000000000000000 62 64 (by decide) (by decide)
  simp only [fstM80, BitVec.getLsbD_or, BitVec.getLsbD_shiftLeft, BitVec.getLsbD_setWidth,
    BitVec.getLsbD_and, hfrac, hexp, hsign]
  grind

/-- What is loaded is what was stored. -/
theorem fldM80_fstM80 (v : BitVec 64) : fldM80 (fstM80 v) = v := by
  refine BitVec.eq_of_getLsbD_eq fun i hi => ?_
  rw [fldM80, getLsbD_insertField hi, getLsbD_insertField hi, getLsbD_insertField hi]
  simp only [BitVec.getLsbD_extractLsb']
  split_ifs with hfrac hexp hsign
  · rw [getLsbD_fstM80 (by omega), if_neg (by omega), if_neg (by omega)]
    grind
  · rw [getLsbD_fstM80 (by omega), if_neg (by omega), if_pos (by omega)]
    grind
  · rw [getLsbD_fstM80 (by omega), if_pos (by omega)]
    grind
  · omega

/-- The integer bit is not stored. -/
theorem exponent_eq_zero_of_stored {v : BitVec 64} (h : fstM80 v = extended v) :
    exponent v = 0 := by
  have hbit : (fstM80 v).getLsbD 63 = (extended v).getLsbD 63 := by rw [h]
  rw [getLsbD_fstM80 (by decide), extended, getLsbD_insertField (by decide),
    getLsbD_insertField (by decide)] at hbit
  simpa using hbit

/-- A zero has no bits but its sign. -/
theorem fstM80_of_zero {v : BitVec 64} (hexp : exponent v = 0) (hfrac : fraction v = 0) :
    fstM80 v = extended v := by
  have hlow : ∀ i < 52, v.getLsbD i = false := fun i hi => by
    have hbit := congrArg (BitVec.getLsbD · i) hfrac
    simpa [fraction, hi] using hbit
  have hmid : ∀ i, 52 ≤ i → i < 63 → v.getLsbD i = false := fun i hi hi' => by
    have hbit := congrArg (BitVec.getLsbD · (i - 52)) hexp
    simpa [exponent, show i - 52 < 11 by omega, show 52 + (i - 52) = i by omega] using hbit
  refine BitVec.eq_of_getLsbD_eq fun i hi => ?_
  rw [getLsbD_fstM80 hi, extended, extendedExponent, if_pos hexp, hexp, hfrac,
    getLsbD_insertField hi, getLsbD_insertField hi, getLsbD_insertField hi, getLsbD_insertField hi]
  by_cases hsign : i = 79
  · subst hsign
    simp
  · have hstored : (if 78 ≤ i then v.getLsbD (i - 16)
        else if 64 ≤ i ∧ i < 74 then v.getLsbD (i - 12)
        else decide (11 ≤ i ∧ i < 63) && v.getLsbD (i - 11)) = false := by
      grind
    have hsplit : ¬(79 ≤ i ∧ i < 79 + 1) := by omega
    rw [hstored, if_neg hsplit]
    simp

/-- A double that is encodable is stored as it should be exactly if it is zero. -/
theorem fstM80_eq_extended_iff {v : BitVec 64} (h : Encodable v) :
    fstM80 v = extended v ↔ exponent v = 0 :=
  ⟨exponent_eq_zero_of_stored, fun hexp => fstM80_of_zero hexp (h (.inl hexp))⟩

/-! ## The round trip -/

/-- What is pushed after a pop. -/
theorem stack_push_pop (val : BitVec 64) (s : CpuMem) :
    (stack (fpuPush val (fpuPop s))).st 0 = val := by
  have hempty : (stack (fpuPop s)).holds 7 = false := by
    rw [stack_fpuPop]
    rfl
  rw [stack_fpuPush, hempty]
  rfl

theorem exec_fst_m80 (F : Functions) (s : CpuMem) (addr : BitVec 64) :
    (Inst.fst true (.m80 addr)).exec F s =
      fpuPop (writeMem addr (fstM80 ((stack s).st 0)) s) :=
  congrArg (fun v => fpuPop (writeMem addr (fstM80 v) s)) (fpuStackGet_eq 0 s)

theorem readMem_fst_m80 (F : Functions) (s : CpuMem) (addr : BitVec 64) :
    readMem 10 addr ((Inst.fst true (.m80 addr)).exec F s) = fstM80 ((stack s).st 0) := by
  rw [exec_fst_m80]
  exact readMem_writeMem_self (by decide) addr _

/-- What is loaded is what was stored, whatever that is. -/
theorem st_fld_fst_m80 (F : Functions) (s : CpuMem) (addr : BitVec 64) :
    (stack ((Inst.fld (.m80 addr)).exec F ((Inst.fst true (.m80 addr)).exec F s))).st 0 =
      (stack s).st 0 := by
  have hread := readMem_fst_m80 F s addr
  rw [exec_fst_m80] at hread ⊢
  rw [Inst.exec, stack_push_pop]
  exact (congrArg fldM80 hread).trans (fldM80_fstM80 _)

/-- Exactly a zero goes through memory as it should. -/
theorem extended_right_iff (F : Functions) (s : CpuMem) (addr : BitVec 64)
    (h : Encodable ((stack s).st 0)) :
    ExtendedRight F s addr ↔ exponent ((stack s).st 0) = 0 := by
  rw [← fstM80_eq_extended_iff h, ExtendedRight, readMem_fst_m80]
  exact and_iff_left (st_fld_fst_m80 F s addr)

theorem st_fpuStackSet (val : BitVec 64) (s : CpuMem) :
    (stack (fpuStackSet 0 val s)).st 0 = val := by
  have hset : stack (fpuStackSet 0 val s) = (stack s).setSt 0 val := stack_fpuStackSet 0 val
  rw [hset]
  exact Function.update_self (0 : Fin 8) val (stack s).st

/-- A negative zero. -/
theorem extended_right_negative_zero :
    ExtendedRight noFunctions (fpuStackSet 0 0x8000000000000000 start) 0x2000 := by
  refine (extended_right_iff noFunctions _ 0x2000 ?_).2 ?_
  · intro _
    rw [st_fpuStackSet]
    decide
  · rw [st_fpuStackSet]
    decide

/-- A one. Neither the integer bit nor the middle of the exponent is stored. -/
theorem not_extended_right :
    ¬ExtendedRight noFunctions (fpuStackSet 0 0x3FF0000000000000 start) 0x2000 := by
  rintro ⟨hstored, -⟩
  rw [readMem_fst_m80, st_fpuStackSet] at hstored
  exact absurd (exponent_eq_zero_of_stored hstored) (by decide)

end Arancini.X86.X87
