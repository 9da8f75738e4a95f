import Arancini.Lib.Bits

/-!
# Integer instructions of LLVM

The instructions on integers of `w` bits. A shift by the width or more has no value (it is poison),
and a division whose quotient does not exist or does not fit is undefined : both are `none` here. An
integer type has no sign, the instruction says how it takes its operands.
-/

namespace Arancini.Llvm

variable {w : ℕ}

/-- `icmp`. -/
inductive Predicate
  | eq
  | ult
  | ugt
  | slt
  | sgt
  | sge
  deriving DecidableEq

def icmp (pred : Predicate) (lhs rhs : BitVec w) : Bool :=
  match pred with
  | .eq => lhs == rhs
  | .ult => lhs.ult rhs
  | .ugt => rhs.ult lhs
  | .slt => lhs.slt rhs
  | .sgt => rhs.slt lhs
  | .sge => rhs.sle lhs

/-- `zext` of an `i1` to an `i8`. -/
def zextBit (b : Bool) : BitVec 8 :=
  (BitVec.ofBool b).setWidth 8

@[simp] theorem zextBit_inj {b c : Bool} : zextBit b = zextBit c ↔ b = c := by
  revert b c
  decide

/-- `udiv`. -/
def udiv (lhs rhs : BitVec w) : Option (BitVec w) :=
  if rhs = 0#w then none else some (lhs / rhs)

/-- `urem`. -/
def urem (lhs rhs : BitVec w) : Option (BitVec w) :=
  if rhs = 0#w then none else some (lhs % rhs)

/-- `srem`. It is undefined where the quotient is, also if that is only too large. -/
def srem (lhs rhs : BitVec w) : Option (BitVec w) :=
  if rhs = 0#w ∨ (lhs = BitVec.intMin w ∧ rhs = BitVec.allOnes w) then none
  else some (lhs.srem rhs)

/-- The number that `sitofp` rounds. -/
def sitofp (x : BitVec w) : ℤ :=
  x.toInt

/-- The number that `uitofp` rounds. -/
def uitofp (x : BitVec w) : ℤ :=
  x.toNat

/-- `shl`. -/
def shl (x amount : BitVec w) : Option (BitVec w) :=
  if amount.toNat < w then some (x <<< amount.toNat) else none

/-- `lshr`. -/
def lshr (x amount : BitVec w) : Option (BitVec w) :=
  if amount.toNat < w then some (x >>> amount.toNat) else none

/-- `ashr`. -/
def ashr (x amount : BitVec w) : Option (BitVec w) :=
  if amount.toNat < w then some (x.sshiftRight amount.toNat) else none

/-! ## Comparisons with zero -/

section Zero

variable (x : BitVec w)

@[simp] theorem icmp_slt_zero : icmp .slt x 0#w = x.msb :=
  BitVec.slt_zero_eq_msb

@[simp] theorem icmp_sge_zero : icmp .sge x 0#w = !x.msb :=
  BitVec.zero_sle_eq_not_msb

@[simp] theorem icmp_sgt_zero : icmp .sgt x 0#w = (!x.msb && x != 0#w) := by
  rw [icmp, BitVec.slt_eq_sle_and_ne, BitVec.zero_sle_eq_not_msb, bne_comm]

end Zero

end Arancini.Llvm
