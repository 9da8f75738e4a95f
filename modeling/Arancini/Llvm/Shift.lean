import Arancini.Ir.Node
import Arancini.Llvm.Instr
import Arancini.X86.Shifts

/-!
# Shifts in LLVM

`materialise_port` lowers a shift to an instruction of LLVM, after the amount has been brought to
the width of the operand. The instruction has no value for an amount of the width or more. The ports
for zero and sign compare the value, and have none either then.

The translators mask the amount to six bits for operands of 64 bits and to five otherwise, so it can
be too large for operands of 8 and of 16 bits (`shiftNode_masked_right_iff`).
-/

namespace Arancini.Llvm

open Ir (ShiftOp)

variable {w n : ℕ}

/-! ## The lowering -/

/-- `CreateZExtOrTrunc`. -/
def zextOrTrunc (w : ℕ) (x : BitVec n) : BitVec w :=
  x.setWidth w

/-- `materialise_port` of the value of a `bit_shift` node. -/
def materialiseShift (op : ShiftOp) (input : BitVec w) (amount : BitVec n) : Option (BitVec w) :=
  let amount := zextOrTrunc w amount
  match op with
  | .asr => ashr input amount
  | .lsr => lshr input amount
  | .lsl => shl input amount

def materialiseShiftZero (op : ShiftOp) (input : BitVec w) (amount : BitVec n) :
    Option (BitVec 8) := do
  let valuePort ← materialiseShift op input amount
  return zextBit (icmp .eq valuePort 0#w)

def materialiseShiftNegative (op : ShiftOp) (input : BitVec w) (amount : BitVec n) :
    Option (BitVec 8) := do
  let valuePort ← materialiseShift op input amount
  return zextBit (icmp .slt valuePort 0#w)

/-! ## The reference -/

/-- The result of a shift. Bits that come from outside are zero, or copies of the sign. -/
def shifted (op : ShiftOp) (input : BitVec w) (amount : ℕ) : BitVec w :=
  match op with
  | .asr => input.sshiftRight amount
  | .lsr => input >>> amount
  | .lsl => input <<< amount

/-- The value and the two ports are those of the result. -/
structure ShiftRight (op : ShiftOp) (input : BitVec w) (amount : BitVec n) : Prop where
  value : materialiseShift op input amount = some (shifted op input amount.toNat)
  zero : materialiseShiftZero op input amount =
    some (zextBit (shifted op input amount.toNat == 0#w))
  negative : materialiseShiftNegative op input amount =
    some (zextBit (shifted op input amount.toNat).msb)

/-! ## When the shifts are right -/

/-- An amount that is a number of the width of the operand stays what it is. -/
theorem materialiseShift_eq (op : ShiftOp) (input : BitVec w) {amount : BitVec n}
    (h : amount.toNat < 2 ^ w) :
    materialiseShift op input amount =
      if amount.toNat < w then some (shifted op input amount.toNat) else none := by
  have hamount : (zextOrTrunc w amount).toNat = amount.toNat := by
    rw [zextOrTrunc, BitVec.toNat_setWidth, Nat.mod_eq_of_lt h]
  cases op with
  | asr => rw [materialiseShift, ashr, hamount, shifted]
  | lsr => rw [materialiseShift, lshr, hamount, shifted]
  | lsl => rw [materialiseShift, shl, hamount, shifted]

/-- A shift is right if the instruction has a value. -/
theorem shiftRight_iff (op : ShiftOp) (input : BitVec w) {amount : BitVec n}
    (h : amount.toNat < 2 ^ w) : ShiftRight op input amount ↔ amount.toNat < w := by
  have hvalue := materialiseShift_eq op input h
  by_cases hlt : amount.toNat < w
  · rw [if_pos hlt] at hvalue
    refine iff_of_true ⟨hvalue, ?_, ?_⟩ hlt
    · rw [materialiseShiftZero, hvalue]
      rfl
    · rw [materialiseShiftNegative, hvalue]
      exact congrArg (some ∘ zextBit) (icmp_slt_zero _)
  · rw [if_neg hlt] at hvalue
    refine iff_of_false (fun hright => ?_) hlt
    have hsome := hright.value
    rw [hvalue] at hsome
    cases hsome

/-- An amount of up to 63 fits in eight bits. -/
theorem lt_two_pow_of_le (hw : 8 ≤ w) {k : ℕ} (hk : k ≤ 63) : k < 2 ^ w := by
  have hpow : 2 ^ 8 ≤ 2 ^ w := Nat.pow_le_pow_right (by decide) hw
  omega

/-- A shift of an operand by up to 63 is right exactly if the amount is less than the width. -/
theorem shiftNode_right_iff (hw : 8 ≤ w) (op : ShiftOp) (input : BitVec w) {amount : BitVec n}
    (hamount : amount.toNat ≤ 63) : ShiftRight op input amount ↔ amount.toNat < w :=
  shiftRight_iff op input (lt_two_pow_of_le hw hamount)

/-- `shl` of 16 bits by 15. -/
theorem shiftNode_right_fifteen : ShiftRight .lsl 0x8001#16 15#8 :=
  (shiftNode_right_iff (by decide) .lsl _ (by decide)).2 (by decide)

/-- `shr` of eight bits by eight. -/
theorem not_shiftNode_right : ¬ShiftRight .lsr 0xFF#8 8#8 := by
  intro h
  cases h.value

/-- The amounts of the translators are too large only for operands of 8 and of 16 bits. -/
theorem shiftNode_masked_right_iff (hw : w ∈ X86.gprWidths) (op : ShiftOp) (input : BitVec w)
    {amount : BitVec n} {b : BitVec 8} (hamount : amount.toNat = X86.maskedCount w b) :
    ShiftRight op input amount ↔ w = 32 ∨ w = 64 ∨ b.toNat % 32 < w := by
  have hbound := X86.le_of_mem_gprWidths hw
  have hlt := X86.maskedCount_lt w b
  rw [shiftRight_iff op input (lt_two_pow_of_le hbound.1 (by omega)), hamount, X86.maskedCount]
  simp only [X86.gprWidths, List.mem_cons, List.not_mem_nil, or_false] at hw
  rcases hw with rfl | rfl | rfl | rfl
  · simp
  · simp
  · exact iff_of_true (Nat.mod_lt _ (by decide)) (.inl rfl)
  · exact iff_of_true (Nat.mod_lt _ (by decide)) (.inr (.inl rfl))

end Arancini.Llvm
