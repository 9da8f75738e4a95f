import Arancini.Lib.Lanes
import Arancini.Llvm.Instr
import Arancini.Riscv.AdcSbb
import Arancini.Riscv.Mul

/-!
# Flags of the arithmetic nodes in LLVM

`materialise_port` rebuilds each flag of a `binary_arith` node from the operands and the value, with
comparisons of LLVM. Overflow of a subtraction is the one of the sum with the negated operand, the
flags of a product are left out but for the sign, and all flags of a `ternary_arith` node are zero.

The flags they are compared with are those the RISC-V back-end is compared with. `flags_right_iff`
says for which operands each flag is right.
-/

namespace Arancini.Llvm

open Riscv (AddSub AdcSbb)

variable {w : ℕ}

/-! ## The lowering -/

/-- `binary_arith_op`, of the operations that translators ask for flags. -/
inductive BinaryOp
  | add
  | sub
  | mul
  | band
  | bor
  | bxor
  deriving DecidableEq

def BinaryOp.value (op : BinaryOp) (lhs rhs : BitVec w) : BitVec w :=
  match op with
  | add => lhs + rhs
  | sub => lhs - rhs
  | mul => lhs * rhs
  | band => lhs &&& rhs
  | bor => lhs ||| rhs
  | bxor => lhs ^^^ rhs

/-- The ports of the flags. -/
inductive FlagPort
  | zero
  | negative
  | overflow
  | carry
  deriving DecidableEq

def materialiseZero (op : BinaryOp) (lhs rhs : BitVec w) : Except String (BitVec 8) :=
  let valuePort := op.value lhs rhs
  match op with
  | .band | .bor | .bxor | .sub | .add => .ok (zextBit (icmp .eq valuePort 0#w))
  | .mul => .error "unsupported binary operator for zero flag"

def materialiseNegative (op : BinaryOp) (lhs rhs : BitVec w) : BitVec 8 :=
  zextBit (icmp .slt (op.value lhs rhs) 0#w)

def materialiseCarry (op : BinaryOp) (lhs rhs : BitVec w) : BitVec 8 :=
  let valuePort := op.value lhs rhs
  match op with
  | .sub => zextBit (icmp .ult lhs rhs)
  | .add => zextBit (icmp .ugt lhs valuePort)
  | _ => 0

def materialiseOverflow (op : BinaryOp) (lhs rhs : BitVec w) : BitVec 8 :=
  let valuePort := op.value lhs rhs
  match op with
  | .sub =>
    let rhs := -rhs
    let sum := lhs + rhs
    let posArgs := icmp .sge lhs 0#w && (icmp .sge rhs 0#w && icmp .slt sum 0#w)
    let negArgs := icmp .slt lhs 0#w && (icmp .slt rhs 0#w && icmp .sge sum 0#w)
    zextBit (posArgs || negArgs)
  | .add =>
    let posArgs := icmp .sgt lhs 0#w && (icmp .sgt rhs 0#w && icmp .slt valuePort 0#w)
    let negArgs := icmp .slt lhs 0#w && (icmp .slt rhs 0#w && icmp .sge valuePort 0#w)
    zextBit (posArgs || negArgs)
  | _ => 0

/-- `materialise_port` of a flag of a `binary_arith` node. -/
def materialiseBinaryArith (op : BinaryOp) (p : FlagPort) (lhs rhs : BitVec w) :
    Except String (BitVec 8) :=
  match p with
  | .zero => materialiseZero op lhs rhs
  | .negative => .ok (materialiseNegative op lhs rhs)
  | .carry => .ok (materialiseCarry op lhs rhs)
  | .overflow => .ok (materialiseOverflow op lhs rhs)

/-- `materialise_port` of a flag of a `ternary_arith` node. -/
def materialiseTernaryArith (_op : AdcSbb) (_p : FlagPort) (_lhs _rhs _top : BitVec w) :
    Except String (BitVec 8) :=
  .ok 0 -- TODO: Flags

/-- An arithmetic node with its operands. `cls` is the class of the type of a product, and `top` the
carry that comes in. -/
inductive FlagNode (w : ℕ)
  | addSub (op : AddSub) (lhs rhs : BitVec w)
  | mul (cls : Riscv.Class) (lhs rhs : BitVec w)
  | logic (op : BinaryOp) (h : op ∈ [.band, .bor, .bxor]) (lhs rhs : BitVec w)
  | ternary (op : AdcSbb) (lhs rhs : BitVec w) (top : Bool)

namespace FlagNode

theorem band_logic : BinaryOp.band ∈ [.band, .bor, .bxor] := by
  decide

theorem bor_logic : BinaryOp.bor ∈ [.band, .bor, .bxor] := by
  decide

theorem bxor_logic : BinaryOp.bxor ∈ [.band, .bor, .bxor] := by
  decide

end FlagNode

/-- The operation of a sum or a difference. -/
def addSubOp : AddSub → BinaryOp
  | .add => .add
  | .sub => .sub

namespace FlagNode

def materialise (p : FlagPort) : FlagNode w → Except String (BitVec 8)
  | addSub op lhs rhs => materialiseBinaryArith (addSubOp op) p lhs rhs
  | mul _ lhs rhs => materialiseBinaryArith .mul p lhs rhs
  | logic op _ lhs rhs => materialiseBinaryArith op p lhs rhs
  | ternary op lhs rhs top => materialiseTernaryArith op p lhs rhs (BitVec.ofNat w top.toNat)

/-! ## The reference -/

def value : FlagNode w → BitVec w
  | addSub op lhs rhs => op.value lhs rhs
  | mul _ lhs rhs => lhs * rhs
  | logic op _ lhs rhs => op.value lhs rhs
  | ternary op lhs rhs top => op.value lhs rhs top

/-- The product does not fit in half of the width. -/
def wide (cls : Riscv.Class) (lhs rhs : BitVec w) : Bool :=
  ¬cls.Fits (w / 2) (cls.toInt lhs * cls.toInt rhs)

def carry : FlagNode w → Bool
  | addSub op lhs rhs => op.carry lhs rhs
  | mul cls lhs rhs => wide cls lhs rhs
  | logic .. => false
  | ternary op lhs rhs top => op.carry lhs rhs top

def overflow : FlagNode w → Bool
  | addSub op lhs rhs => op.overflow lhs rhs
  | mul cls lhs rhs => wide cls lhs rhs
  | logic .. => false
  | ternary op lhs rhs top => op.overflow lhs rhs top

def flag (p : FlagPort) (node : FlagNode w) : Bool :=
  match p with
  | .zero => node.value == 0
  | .negative => node.value.msb
  | .carry => node.carry
  | .overflow => node.overflow

/-- The zero flag of a product is not there. The others of a product and those of a sum with a carry
are not set, and a subtrahend whose overflow is asked for can be negated. -/
def fits (p : FlagPort) : FlagNode w → Prop
  | addSub .add _ _ => True
  | addSub .sub _ rhs => p = .overflow → rhs ≠ BitVec.intMin w
  | mul cls lhs rhs => p ≠ .zero ∧ (p ≠ .negative → wide cls lhs rhs = false)
  | logic .. => True
  | ternary op lhs rhs top => (ternary op lhs rhs top).flag p = false

end FlagNode

/-! ## When the flags are right -/

section Overflow

variable (x y : BitVec w)

theorem carry_add : icmp .ugt x (x + y) = x.uaddOverflow y := by
  rw [icmp, BitVec.ult, BitVec.uaddOverflow, BitVec.toNat_add, decide_eq_decide]
  have hx := x.isLt
  have hy := y.isLt
  rcases Nat.lt_or_ge (x.toNat + y.toNat) (2 ^ w) with hlt | hge
  · rw [Nat.mod_eq_of_lt hlt]
    omega
  · rw [Nat.mod_eq_sub_mod hge, Nat.mod_eq_of_lt (by omega)]
    omega

theorem overflow_add :
    materialiseOverflow .add x y = zextBit (x.saddOverflow y) := by
  rw [materialiseOverflow, BitVec.saddOverflow_eq]
  simp only [icmp_slt_zero, icmp_sgt_zero, icmp_sge_zero, BinaryOp.value, zextBit_inj]
  by_cases hx : x = 0#w
  · subst hx
    rw [BitVec.zero_add]
    cases y.msb <;> simp
  by_cases hy : y = 0#w
  · subst hy
    rw [BitVec.add_zero]
    cases x.msb <;> simp
  rw [bne_iff_ne.2 hx, bne_iff_ne.2 hy]
  cases x.msb <;> cases y.msb <;> cases (x + y).msb <;> rfl

/-- The top bit of the other operand is turned by the most negative one. -/
theorem msb_sub_intMin (hw : 0 < w) : (x - BitVec.intMin w).msb = !x.msb := by
  have htop : BitVec.intMin w = topBit w := rfl
  rw [BitVec.sub_eq_add_neg, BitVec.neg_intMin, htop, add_topBit_eq_xor x hw, BitVec.msb_xor,
    ← htop, BitVec.msb_intMin, decide_eq_true hw, Bool.xor_true]

theorem overflow_sub (hw : 0 < w) :
    materialiseOverflow .sub x y =
      zextBit (if y = BitVec.intMin w then !x.ssubOverflow y else x.ssubOverflow y) := by
  rw [materialiseOverflow, BitVec.ssubOverflow_eq, ← BitVec.sub_eq_add_neg]
  simp only [icmp_slt_zero, icmp_sge_zero, zextBit_inj, BitVec.msb_neg]
  by_cases hmin : y = BitVec.intMin w
  · subst hmin
    rw [if_pos rfl, msb_sub_intMin x hw, BitVec.msb_intMin, decide_eq_true hw]
    cases x.msb <;> simp
  rw [if_neg hmin, bne_iff_ne.2 hmin]
  by_cases hy : y = 0#w
  · subst hy
    rw [BitVec.sub_zero]
    cases x.msb <;> simp
  · rw [bne_iff_ne.2 hy]
    cases x.msb <;> cases y.msb <;> cases (x - y).msb <;> rfl

end Overflow

theorem zero_eq_zextBit_iff {b : Bool} : (0 : BitVec 8) = zextBit b ↔ b = false := by
  revert b
  decide

namespace FlagNode

/-- The node gives the flag of the reference. -/
def Right (p : FlagPort) (node : FlagNode w) : Prop :=
  node.materialise p = .ok (zextBit (node.flag p))

/-- A flag is right exactly if it is one of a sum or a logical operation, if the subtrahend is not
the most negative number, or if it is left out and not set. -/
theorem flags_right_iff (hw : 0 < w) (p : FlagPort) (node : FlagNode w) :
    node.Right p ↔ node.fits p := by
  cases node with
  | addSub op lhs rhs =>
    cases op with
    | add =>
      refine iff_of_true ?_ trivial
      cases p with
      | zero => rfl
      | negative => exact congrArg (Except.ok ∘ zextBit) (icmp_slt_zero _)
      | carry => exact congrArg (Except.ok ∘ zextBit) (carry_add lhs rhs)
      | overflow => exact congrArg Except.ok (overflow_add lhs rhs)
    | sub =>
      cases p with
      | zero => exact iff_of_true rfl nofun
      | negative => exact iff_of_true (congrArg (Except.ok ∘ zextBit) (icmp_slt_zero _)) nofun
      | carry => exact iff_of_true rfl nofun
      | overflow =>
        have hcode : (addSub .sub lhs rhs).materialise .overflow = _ :=
          congrArg Except.ok (overflow_sub lhs rhs hw)
        rw [Right, hcode, Except.ok.injEq, zextBit_inj, fits]
        by_cases hmin : rhs = BitVec.intMin w
        · rw [if_pos hmin]
          refine iff_of_false ?_ fun h => h rfl hmin
          exact Bool.not_ne_self _
        · rw [if_neg hmin]
          exact iff_of_true rfl fun _ => hmin
  | mul cls lhs rhs =>
    cases p with
    | zero => exact iff_of_false nofun fun h => h.1 rfl
    | negative =>
      exact iff_of_true (congrArg (Except.ok ∘ zextBit) (icmp_slt_zero _))
        ⟨nofun, fun h => absurd rfl h⟩
    | carry | overflow =>
      have hflag : (0 : BitVec 8) = zextBit (wide cls lhs rhs) ↔ wide cls lhs rhs = false :=
        zero_eq_zextBit_iff
      simp only [Right, materialise, materialiseBinaryArith, materialiseCarry, materialiseOverflow,
        flag, carry, overflow, Except.ok.injEq, hflag, fits]
      exact ⟨fun h => ⟨nofun, fun _ => h⟩, fun h => h.2 nofun⟩
  | logic op h lhs rhs =>
    refine iff_of_true ?_ trivial
    simp only [List.mem_cons, List.not_mem_nil, or_false] at h
    cases p with
    | zero => rcases h with rfl | rfl | rfl <;> rfl
    | negative =>
      rcases h with rfl | rfl | rfl <;> exact congrArg (Except.ok ∘ zextBit) (icmp_slt_zero _)
    | carry | overflow => rcases h with rfl | rfl | rfl <;> rfl
  | ternary op lhs rhs top =>
    rw [Right, fits, materialise, materialiseTernaryArith, Except.ok.injEq, zero_eq_zextBit_iff]

/-- The overflow of `5 - 7`. -/
theorem flags_right_sub : (addSub .sub 5 7 : FlagNode 32).Right .overflow :=
  (flags_right_iff (by decide) .overflow (addSub .sub 5 7)).2 fun _ => by decide

/-- The overflow of `0 - (-128)`. -/
theorem not_flags_right : ¬(addSub .sub 0 0x80 : FlagNode 8).Right .overflow := by
  intro h
  have hflag : zextBit false = zextBit true := Except.ok.inj h
  exact absurd hflag (by decide)

end FlagNode

end Arancini.Llvm
