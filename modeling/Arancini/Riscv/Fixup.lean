import Arancini.Riscv.Mul

/-!
# Extension to the width of a type

`fixup` extends a register to 64 bits, with its sign or with zeros as the class of the type asks.
It goes by the type of the register when the class is signed, and by the actual width when it is
unsigned. A shift to the right may be folded into the extension, which then shifts back less.

The multiplication uses it in place for signed types and into a fresh register for unsigned ones,
without a shift (`fixupSigned_eq_fixup`, `fixupUnsigned_eq_fixup`).
-/

namespace Arancini.Riscv

/-- The shift amount of an instruction, as the assembler asserts it. -/
def shamt (bound : ℕ) (amt : ℤ) : Except String ℕ :=
  if 0 < amt ∧ amt < bound then .ok amt.toNat
  else .error "expected: (shamt > 0) && (shamt < XLEN)"

theorem shamt_of_mem {bound : ℕ} {amt : ℤ} (h : 0 < amt ∧ amt < bound) :
    shamt bound amt = .ok amt.toNat :=
  if_pos h

theorem shamt_of_not_mem {bound : ℕ} {amt : ℤ} (h : ¬(0 < amt ∧ amt < bound)) :
    shamt bound amt = .error "expected: (shamt > 0) && (shamt < XLEN)" :=
  if_neg h

/-- `fixup` to a type of width `width`, into `out` or in place, and whether the shift was
applied. -/
def fixup (cls : Class) (width : ℕ) (out src : TypedRegister) (inPlace : Bool) (shiftBy : ℤ) :
    Except String (TypedRegister × Bool) :=
  match cls with
  | .signed =>
    if width ≤ src.width ∧ inPlace then .ok (src, false)
    else match src.width with
      | 8 | 16 => do
        let val := slli src.val (64 - src.width)
        let n ← shamt 64 (64 - src.width - shiftBy)
        return (⟨srai val n, 64, out.width⟩, true)
      | 32 => .ok (⟨sextw src.val, 64, 32⟩, false)
      | 64 => .ok ({ out with val := src.val }, false)
      | _ => .error "not implemented"
  | .unsigned =>
    if width ≤ src.actual ∧ inPlace then .ok (src, false)
    else match src.actual with
      | 8 => .ok (⟨src.val &&& 0xff, 64, 0⟩, false)
      | 16 | 32 => do
        let val := slli src.val (64 - src.actual)
        let n ← shamt 64 (64 - src.actual - shiftBy)
        return (⟨srli val n, 64, 0⟩, true)
      | 64 => .ok ({ out with val := src.val }, false)
      | _ => .error "not implemented"

theorem fixupSigned_eq_fixup (w : ℕ) (r : TypedRegister) :
    fixupSigned w r = (fixup .signed w r r true 0).map Prod.fst := by
  obtain ⟨val, width, actual⟩ := r
  simp only [fixupSigned, fixup, and_true]
  split
  · rfl
  · unfold extendTo64
    dsimp only
    split
    case h_5 => simp_all [Except.map]
    all_goals rfl

theorem fixupUnsigned_eq_fixup (w : ℕ) (r : TypedRegister) :
    fixupUnsigned w r = (fixup .unsigned w (.fresh w) r false 0).map Prod.fst := by
  simp only [fixupUnsigned, fixup, Bool.false_eq_true, and_false, if_false]
  split <;> simp_all [shamt, Except.map, pure, Except.pure, bind, Except.bind]

end Arancini.Riscv
