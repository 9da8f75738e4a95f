import Arancini.Lib.Bits
import Arancini.Lib.Except

/-!
# Typed registers of the RISC-V back-end

The host computes in 64-bit registers, the IR in widths of 8 to 64 bits. A `TypedRegister`
says how far its host register is accurate : the value is there as a signed number of the
width of the type, and what is above that width is garbage. An operation that needs the
full register extends it in place, `extendTo64`.

A constant is an operand of another kind. `materialise_constant` puts the number of the
node into a register that counts as accurate to 64 bits, and does not look at the width
the constant has in the IR.
-/

namespace Arancini.Riscv

/-! ## Instructions -/

/-- An instruction that sets its register to one or zero. -/
def bit (b : Bool) : BitVec 64 :=
  if b then 1 else 0

def addw (x y : BitVec 64) : BitVec 64 := sext 32 (x + y)

def subw (x y : BitVec 64) : BitVec 64 := sext 32 (x - y)

def slli (x : BitVec 64) (n : ℕ) : BitVec 64 := x <<< n

def srli (x : BitVec 64) (n : ℕ) : BitVec 64 := x >>> n

def srai (x : BitVec 64) (n : ℕ) : BitVec 64 := x.sshiftRight n

def sextw (x : BitVec 64) : BitVec 64 := sext 32 x

def slt (x y : BitVec 64) : BitVec 64 := bit (x.slt y)

def sltu (x y : BitVec 64) : BitVec 64 := bit (x.ult y)

def seqz (x : BitVec 64) : BitVec 64 := bit (x == 0)

def snez (x : BitVec 64) : BitVec 64 := bit (x != 0)

def sltz (x : BitVec 64) : BitVec 64 := slt x 0

def sgtz (x : BitVec 64) : BitVec 64 := slt 0 x

@[simp] theorem bit_xor (a b : Bool) : bit a ^^^ bit b = bit (a != b) := by
  revert a b
  decide

@[simp] theorem bit_or (a b : Bool) : bit a ||| bit b = bit (a || b) := by
  revert a b
  decide

@[simp] theorem bit_inj {a b : Bool} : bit a = bit b ↔ a = b := by
  revert a b
  decide

/-- The immediate of an instruction of type I. -/
def isITypeImm (imm : ℤ) : Bool :=
  -2048 ≤ imm && imm ≤ 2047

/-! ## Registers -/

/-- The widths of general registers. -/
def widths : List ℕ :=
  [8, 16, 32, 64]

theorem le_of_mem_widths {w : ℕ} (hw : w ∈ widths) : 0 < w ∧ w ≤ 64 := by
  simp only [widths, List.mem_cons, List.not_mem_nil, or_false] at hw
  omega

/-- A `TypedRegister` that holds an integer : its host register, and the widths `vt_` and
`actual_width_`, of which zero is not set. -/
structure TypedRegister where
  val : BitVec 64
  width : ℕ
  actualWidth : ℕ
  deriving DecidableEq

namespace TypedRegister

/-- A register `allocate_register` gives for a port of the width. -/
def fresh (width : ℕ) : TypedRegister :=
  ⟨0, width, 0⟩

/-- `actual_width()`. The field alone is `actual_width_0()`. -/
def actual (r : TypedRegister) : ℕ :=
  if r.actualWidth = 0 then r.width else r.actualWidth

/-- The register counts as accurate to 64 bits, with the width it had. -/
def widen (r : TypedRegister) (val : BitVec 64) : TypedRegister :=
  ⟨val, 64, r.width⟩

/-- The register carries a value of the IR : as a signed number of the width of its type. What
is above is garbage. -/
structure Carries {w : ℕ} (r : TypedRegister) (v : BitVec w) : Prop where
  mem : r.width ∈ widths
  le : w ≤ r.width
  low : r.val.setWidth r.width = v.signExtend r.width

/-- The number in a register when it has been extended. -/
def full (r : TypedRegister) : BitVec 64 :=
  sext r.width r.val

end TypedRegister

/-- `extend_to_64` of a register in place. -/
def extendTo64 (r : TypedRegister) : Except String TypedRegister :=
  match r.width with
  | 8 => .ok (r.widen (srai (slli r.val (64 - 8)) (64 - 8)))
  | 16 => .ok (r.widen (srai (slli r.val (64 - 16)) (64 - 16)))
  | 32 => .ok (r.widen (sextw r.val))
  | 64 => .ok r
  | _ => .error "not implemented"

/-- A register is extended to the signed number of 64 bits that it carries. -/
theorem extendTo64_eq {r : TypedRegister} (hr : r.width ∈ widths) :
    ∃ r', extendTo64 r = .ok r' ∧ r'.width = 64 ∧ r'.val = r.full := by
  obtain ⟨val, width, actual⟩ := r
  simp only [widths, List.mem_cons, List.not_mem_nil, or_false] at hr
  rcases hr with rfl | rfl | rfl | rfl
  · exact ⟨_, rfl, rfl, sshiftRight_shiftLeft (by decide) (by decide) val⟩
  · exact ⟨_, rfl, rfl, sshiftRight_shiftLeft (by decide) (by decide) val⟩
  · exact ⟨_, rfl, rfl, rfl⟩
  · exact ⟨_, rfl, rfl, by simp [TypedRegister.full, sext]⟩

/-- Extending a register again does nothing. -/
theorem extendTo64_of_width {r : TypedRegister} (hr : r.width = 64) : extendTo64 r = .ok r := by
  obtain ⟨val, width, actual⟩ := r
  obtain rfl : width = 64 := hr
  rfl

/-- The register `r'` is `r`, or `r` extended. -/
def TypedRegister.Extends (r r' : TypedRegister) : Prop :=
  r' = r ∨ (r'.width = 64 ∧ r'.val = r.full)

namespace TypedRegister.Extends

variable {r r' r'' : TypedRegister}

theorem mem (h : r.Extends r') (hr : r.width ∈ widths) : r'.width ∈ widths := by
  rcases h with rfl | ⟨hwidth, -⟩
  · exact hr
  · simp [hwidth, widths]

theorem full_eq (h : r.Extends r') : r'.full = r.full := by
  rcases h with rfl | ⟨hwidth, hval⟩
  · rfl
  · rw [full, hwidth, hval]
    simp [sext]

theorem trans (h : r.Extends r') (h' : r'.Extends r'') : r.Extends r'' := by
  rcases h' with rfl | ⟨hwidth, hval⟩
  · exact h
  · exact .inr ⟨hwidth, hval.trans h.full_eq⟩

end TypedRegister.Extends

section Carries

variable {w : ℕ} {r : TypedRegister} {v : BitVec w}

/-- A register that carries a value holds its sign extension when it has been extended. -/
theorem TypedRegister.Carries.full_eq (h : r.Carries v) : r.full = v.signExtend 64 := by
  rw [full, sext, h.low]
  refine BitVec.eq_of_toInt_eq ?_
  have hle := (le_of_mem_widths h.mem).2
  rw [toInt_signExtend hle, toInt_signExtend h.le, toInt_signExtend (h.le.trans hle)]

theorem TypedRegister.Carries.setWidth_eq (h : r.Carries v) : r.val.setWidth w = v := by
  have hlow := congrArg (BitVec.setWidth w) h.low
  rwa [BitVec.setWidth_setWidth_of_le _ h.le, setWidth_signExtend h.le] at hlow

/-- Extending a register keeps the low bits. -/
theorem TypedRegister.Carries.setWidth_of_extends (h : r.Carries v) {r' : TypedRegister}
    (h' : r.Extends r') : r'.val.setWidth w = v := by
  rcases h' with rfl | ⟨-, hval⟩
  · exact h.setWidth_eq
  · rw [hval, h.full_eq, setWidth_signExtend (h.le.trans (le_of_mem_widths h.mem).2)]

/-- The low bits of a register of the width of the value are the value. -/
theorem carries_of_setWidth (hw : r.width ∈ widths) (hwidth : r.width = w)
    (h : r.val.setWidth w = v) : r.Carries v := by
  subst hwidth
  exact ⟨hw, le_rfl, by simpa using h⟩

theorem carries_of_eq_signExtend (hw : w ≤ 64) (hwidth : r.width = 64)
    (h : r.val = v.signExtend 64) : r.Carries v := by
  obtain ⟨val, width, actual⟩ := r
  obtain rfl : width = 64 := hwidth
  exact ⟨by simp [widths], hw, by simpa using h⟩

end Carries

/-! ## Operands -/

/-- What a node gives an operation : a register, or a number that is known when the code is
generated. -/
inductive Operand
  | reg (r : TypedRegister)
  | const (imm : BitVec 64)
  deriving DecidableEq

namespace Operand

/-- `materialise` of an operand. A constant goes through `materialise_constant`. -/
def materialise : Operand → TypedRegister
  | reg r => r
  | const imm => ⟨imm, 64, 0⟩

/-- The operand has the value `v` in the IR. A constant may be any number with these low
bits. -/
def Carries {w : ℕ} (v : BitVec w) : Operand → Prop
  | reg r => r.Carries v
  | const imm => imm.setWidth w = v

/-- Where the number of an operand is to the signed numbers of a width. -/
def range (w : ℕ) : Operand → Ordering
  | reg _ => .eq
  | const imm =>
    if imm.toInt < -2 ^ (w - 1) then .lt else if imm.toInt < 2 ^ (w - 1) then .eq else .gt

/-- What an operand puts into 64 bits : the signed number of its value, if it is in range. -/
structure Content {w : ℕ} (o : Operand) (v : BitVec w) : Prop where
  width : o.materialise.width ∈ widths
  low : o.materialise.val.setWidth w = v
  lt : o.range w = .lt → o.materialise.full.toInt < -2 ^ (w - 1)
  eq : o.range w = .eq → o.materialise.full.toInt = v.toInt
  gt : o.range w = .gt → 2 ^ (w - 1) ≤ o.materialise.full.toInt

theorem full_const (imm : BitVec 64) : (const imm).materialise.full = imm := by
  simp [materialise, TypedRegister.full, sext]

theorem Carries.content {w : ℕ} (hw : w ∈ widths) {o : Operand} {v : BitVec w}
    (h : o.Carries v) : o.Content v := by
  obtain ⟨hpos, hle⟩ := le_of_mem_widths hw
  cases o with
  | reg r =>
    have h : r.Carries v := h
    refine ⟨h.mem, h.setWidth_eq, nofun, fun _ => ?_, nofun⟩
    change r.full.toInt = _
    rw [h.full_eq, toInt_signExtend hle]
  | const imm =>
    have h : imm.setWidth w = v := h
    refine ⟨by simp [materialise, widths], h, fun hr => ?_, fun hr => ?_, fun hr => ?_⟩ <;>
      rw [full_const] <;> simp only [range] at hr <;> split at hr <;> try split at hr
    all_goals try cases hr
    · assumption
    · rw [← h]
      exact (toInt_setWidth_of_range hpos hle (by omega) (by omega)).symm
    · omega

end Operand

end Arancini.Riscv
