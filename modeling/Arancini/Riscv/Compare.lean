import Arancini.Riscv.Typed

/-!
# Comparison and selection on RISC-V

`cmpeq` and `cmpne` compare the host registers of the two operands in 64 bits, and what is above
the width of the values takes part in it. `csel` and `cond_br` extend the register of the
condition first, so they go by the bits that its type announces.

The values below are the low bits of arbitrary registers. `compare_right_iff` says for which
registers the code computes the result of the IR. A register that carries its value as the type
announces is one of those for `csel` and `cond_br` (`full_eq_zero_iff`), and need not be one for
`cmpeq`.
-/

namespace Arancini.Riscv

/-! ## The lowerings -/

/-- `is_gpr_or_flag`. -/
def isGprOrFlag (w : ℕ) : Bool :=
  w = 1 || w ∈ widths

/-- `get_minimal_type`. -/
def getMinimalType (lhs rhs : TypedRegister) : ℕ :=
  if lhs.width < rhs.width then lhs.width else rhs.width

/-- The type and the actual width of a result that is as accurate as the narrower operand. -/
def narrower (lhs rhs : TypedRegister) (val : BitVec 64) : TypedRegister :=
  ⟨val, getMinimalType lhs rhs,
    if lhs.actual < rhs.actual then lhs.actualWidth else rhs.actualWidth⟩

/-- The comparisons of `binary_arith` that are lowered. -/
inductive Cmp
  | cmpeq
  | cmpne
  deriving DecidableEq

/-- `materialise_binary_arith` of a comparison of integers of width `w`. A constant zero is in
the register `ZERO`, and is not compared with. -/
def materialiseCmp (op : Cmp) (w : ℕ) (lhs rhs : Operand) : Except String TypedRegister :=
  if isGprOrFlag w then
    let src1 := lhs.materialise
    let src2 := rhs.materialise
    let tmp := if rhs = .const 0 then src1.val else src1.val ^^^ src2.val
    .ok (narrower src1 src2 (match op with
      | .cmpeq => seqz tmp
      | .cmpne => snez tmp))
  else .error "unsupported width on binary arith operation"

/-- `materialise_csel` of two values of width `n` under a condition of width `w`. -/
def materialiseCsel (w n : ℕ) (cond trueval falseval : Operand) : Except String TypedRegister :=
  if n ∈ widths && isGprOrFlag w then do
    let cond ← extendTo64 cond.materialise
    let trueval := trueval.materialise
    let falseval := falseval.materialise
    return narrower trueval falseval (if cond.val = 0 then falseval.val else trueval.val)
  else throw "unsupported width on csel operation"

/-- `materialise_cond_br` : whether the branch is taken. -/
def materialiseCondBr (cond : Operand) : Except String Bool := do
  let cond ← extendTo64 cond.materialise
  return cond.val != 0

/-! ## What they compute -/

/-- The value of width `w` that is in the low bits of the register. -/
def Operand.low (w : ℕ) (o : Operand) : BitVec w :=
  o.materialise.val.setWidth w

/-- What a comparison means. -/
def Cmp.holds {w : ℕ} : Cmp → BitVec w → BitVec w → Bool
  | .cmpeq, x, y => x == y
  | .cmpne, x, y => x != y

/-- The register of a comparison is one or zero, as the comparison of the values is. -/
def CmpRight (op : Cmp) (w : ℕ) (lhs rhs : Operand) : Prop :=
  ∃ out, materialiseCmp op w lhs rhs = .ok out ∧ out.val = bit (op.holds (lhs.low w) (rhs.low w))

/-- Of any two values, the first is selected exactly when the condition is not zero. -/
def CselRight (w n : ℕ) (cond : Operand) : Prop :=
  ∀ trueval falseval : Operand, ∃ out, materialiseCsel w n cond trueval falseval = .ok out ∧
    out.val.setWidth n = if cond.low w = 0 then falseval.low n else trueval.low n

/-- The branch is taken exactly when the condition is not zero. -/
def CondBrRight (w : ℕ) (cond : Operand) : Prop :=
  materialiseCondBr cond = .ok (decide (cond.low w ≠ 0))

theorem materialiseCmp_eq (op : Cmp) {w : ℕ} (hw : isGprOrFlag w) (lhs rhs : Operand) :
    materialiseCmp op w lhs rhs = .ok (narrower lhs.materialise rhs.materialise
      (bit (op.holds lhs.materialise.val rhs.materialise.val))) := by
  have htmp : (if rhs = .const 0 then lhs.materialise.val
      else lhs.materialise.val ^^^ rhs.materialise.val) =
        lhs.materialise.val ^^^ rhs.materialise.val := by
    split
    · next h =>
      subst h
      exact BitVec.xor_zero.symm
    · rfl
  have hzero : ∀ x y : BitVec 64, (x ^^^ y == 0) = (x == y) := by
    intro x y
    rw [Bool.eq_iff_iff, beq_iff_eq, beq_iff_eq]
    exact BitVec.xor_eq_zero_iff
  simp only [materialiseCmp, hw, if_true, htmp]
  cases op with
  | cmpeq => simp only [seqz, hzero, Cmp.holds]
  | cmpne => simp only [snez, bne, hzero, Cmp.holds]

/-- A comparison is right if the host registers agree whenever the values do. -/
theorem cmpRight_iff (op : Cmp) (w : ℕ) (lhs rhs : Operand) :
    CmpRight op w lhs rhs ↔ isGprOrFlag w ∧
      (lhs.low w = rhs.low w → lhs.materialise.val = rhs.materialise.val) := by
  by_cases hw : isGprOrFlag w
  · have hmono : lhs.materialise.val = rhs.materialise.val → lhs.low w = rhs.low w :=
      congrArg (BitVec.setWidth w)
    have hbits : op.holds lhs.materialise.val rhs.materialise.val =
          op.holds (lhs.low w) (rhs.low w) ↔
        (lhs.materialise.val = rhs.materialise.val ↔ lhs.low w = rhs.low w) := by
      cases op with
      | cmpeq => exact Bool.eq_iff_iff.trans (iff_congr beq_iff_eq beq_iff_eq)
      | cmpne =>
        exact Bool.eq_iff_iff.trans ((iff_congr bne_iff_ne bne_iff_ne).trans not_iff_not)
    simp only [CmpRight, materialiseCmp_eq op hw, Except.ok.injEq, exists_eq_left', narrower,
      bit_inj, hbits, hw, true_and]
    exact ⟨fun h => h.2, fun h => ⟨hmono, h⟩⟩
  · refine iff_of_false ?_ fun h => hw h.1
    rintro ⟨out, hout, -⟩
    simp [materialiseCmp, hw] at hout

/-- A register of another type is not extended. -/
theorem extendTo64_of_not_mem {r : TypedRegister} (hr : r.width ∉ widths) :
    extendTo64 r = .error "not implemented" := by
  simp only [widths, List.mem_cons, List.not_mem_nil, or_false, not_or] at hr
  unfold extendTo64
  split <;> simp_all

/-- An extended register is zero if the bits of its type are. -/
theorem full_eq_zero_iff_low {o : Operand} (hwidth : o.materialise.width ∈ widths) :
    o.materialise.full = 0 ↔ o.low o.materialise.width = 0 := by
  obtain ⟨-, hle⟩ := le_of_mem_widths hwidth
  constructor
  · intro h
    have hlow := congrArg (BitVec.setWidth o.materialise.width) h
    rw [TypedRegister.full, setWidth_sext hle] at hlow
    exact hlow.trans (BitVec.setWidth_zero _ _)
  · intro h
    have hfull : o.materialise.full = (o.low o.materialise.width).signExtend 64 := rfl
    rw [hfull, h]
    exact signExtend_zero

theorem condBrRight_iff (w : ℕ) (cond : Operand) :
    CondBrRight w cond ↔ cond.materialise.width ∈ widths ∧
      (cond.low cond.materialise.width = 0 ↔ cond.low w = 0) := by
  by_cases hwidth : cond.materialise.width ∈ widths
  · obtain ⟨r, hr, -, hval⟩ := extendTo64_eq hwidth
    rw [← full_eq_zero_iff_low hwidth]
    simp only [CondBrRight, materialiseCondBr, hr, ok_bind, hval, hwidth, true_and]
    rw [pure_eq_ok, Bool.eq_iff_iff, bne_iff_ne, decide_eq_true_iff, not_iff_not]
  · refine iff_of_false ?_ fun h => hwidth h.1
    rw [CondBrRight, materialiseCondBr, extendTo64_of_not_mem hwidth]
    exact nofun

/-- Two values that differ tell which one is selected. -/
theorem cselRight_iff (w n : ℕ) (cond : Operand) :
    CselRight w n cond ↔ n ∈ widths ∧ isGprOrFlag w ∧ cond.materialise.width ∈ widths ∧
      (cond.low cond.materialise.width = 0 ↔ cond.low w = 0) := by
  by_cases hn : n ∈ widths
  case neg =>
    refine iff_of_false (fun h => ?_) fun h => hn h.1
    obtain ⟨out, hout, -⟩ := h (.const 0) (.const 0)
    simp [materialiseCsel, hn] at hout
  by_cases hw : isGprOrFlag w
  case neg =>
    refine iff_of_false (fun h => ?_) fun h => hw h.2.1
    obtain ⟨out, hout, -⟩ := h (.const 0) (.const 0)
    simp [materialiseCsel, hw] at hout
  by_cases hwidth : cond.materialise.width ∈ widths
  case neg =>
    refine iff_of_false (fun h => ?_) fun h => hwidth h.2.2.1
    obtain ⟨out, hout, -⟩ := h (.const 0) (.const 0)
    simp [materialiseCsel, hn, hw, extendTo64_of_not_mem hwidth] at hout
  obtain ⟨r, hr, -, hval⟩ := extendTo64_eq hwidth
  rw [← full_eq_zero_iff_low hwidth]
  simp only [CselRight, materialiseCsel, hn, hw, hr, hval, hwidth, ok_bind, decide_true,
    Bool.and_self, if_true, true_and, narrower, pure_eq_ok, exists_eq_left']
  constructor
  · intro h
    have hne : (1 : BitVec 64).setWidth n ≠ (0 : BitVec 64).setWidth n := by
      simp only [widths, List.mem_cons, List.not_mem_nil, or_false] at hn
      rcases hn with rfl | rfl | rfl | rfl <;> decide
    have hsel := h (.const 1) (.const 0)
    by_cases hfull : cond.materialise.full = 0 <;> by_cases hlow : cond.low w = 0 <;>
      simp only [hfull, hlow, if_true, if_false] at hsel ⊢
    · exact absurd hsel.symm hne
    · exact absurd hsel hne
  · intro h trueval falseval
    simp only [h]
    split <;> rfl

/-- A register that carries its value is extended to zero exactly if the value is zero, so `csel`
and `cond_br` go by the value. -/
theorem low_eq_zero_iff_of_carries {w : ℕ} {v : BitVec w} {r : TypedRegister} (h : r.Carries v) :
    (Operand.reg r).low r.width = 0 ↔ (Operand.reg r).low w = 0 := by
  have hmem : (Operand.reg r).materialise.width ∈ widths := h.mem
  refine (full_eq_zero_iff_low hmem).symm.trans ?_
  change r.full = 0 ↔ r.val.setWidth w = 0
  rw [h.full_eq, h.setWidth_eq]
  constructor
  · intro hv
    rw [← setWidth_signExtend (h.le.trans (le_of_mem_widths h.mem).2) v, hv]
    exact BitVec.setWidth_zero _ _
  · rintro rfl
    exact signExtend_zero

/-- The lowering of a comparison is right for host registers that are equal whenever the values
are, and those of a selection and of a branch for a condition that is zero whenever the bits of
its type are. -/
theorem compare_right_iff (w n : ℕ) (op : Cmp) (lhs rhs cond : Operand) :
    (CmpRight op w lhs rhs ↔ isGprOrFlag w ∧
      (lhs.low w = rhs.low w → lhs.materialise.val = rhs.materialise.val)) ∧
    (CselRight w n cond ↔ n ∈ widths ∧ isGprOrFlag w ∧ cond.materialise.width ∈ widths ∧
      (cond.low cond.materialise.width = 0 ↔ cond.low w = 0)) ∧
    (CondBrRight w cond ↔ cond.materialise.width ∈ widths ∧
      (cond.low cond.materialise.width = 0 ↔ cond.low w = 0)) :=
  ⟨cmpRight_iff op w lhs rhs, cselRight_iff w n cond, condBrRight_iff w cond⟩

/-- A register that `add` leaves for `0x7f + 0x7f`, against one that `lb` fills with `0xfe`. -/
theorem not_cmpRight_sum : ¬∀ (op : Cmp) (w : ℕ) (lhs rhs : Operand), 0 < w → w ≤ 128 →
    CmpRight op w lhs rhs := by
  intro h
  have hsum := (cmpRight_iff .cmpeq 8 (.reg ⟨0xfe, 8, 0⟩) (.reg ⟨-2, 8, 0⟩)).1
    (h _ _ _ _ (by decide) (by decide))
  exact absurd (hsum.2 (by decide)) (by decide)

end Arancini.Riscv
