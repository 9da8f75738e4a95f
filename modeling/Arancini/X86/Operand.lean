import Arancini.Lib.Field
import Arancini.X86.RegNames

/-!
# Register operands

`read_operand` and `write_operand` reach a register operand through the largest register that has it
in it, and that one through its offset. What is written to a general purpose register depends on the
width of the value, and what is written to a vector register on the width of the value and on
whether the instruction is one of the SSE instructions.

Writing is right for every view of a general purpose register. The high bytes are read at the place
of the low ones, and `LEA` always writes an address of 64 bits (`gpr_coherent_iff`). The vector
registers are written and read as they should be (`vec_coherent`).
-/

namespace Arancini.X86

open Ir

/-! ## Registers -/

/-- The guest registers. A register has its content in the low bits. -/
abbrev CpuState :=
  Reg → BitVec 512

/-- The general purpose registers in the order of the encoding. -/
def gprRegs : List Reg :=
  [.RAX, .RCX, .RDX, .RBX, .RSP, .RBP, .RSI, .RDI, .R8, .R9, .R10, .R11, .R12, .R13, .R14, .R15]

def gprReg (num : Fin 16) : Reg :=
  gprRegs.get num

theorem gprReg_ne {r : Reg} (h : r ∉ gprRegs) (num : Fin 16) : gprReg num ≠ r := by
  rintro rfl
  exact h (List.get_mem _ _)

def CpuState.gpr (s : CpuState) (num : Fin 16) : BitVec 64 :=
  (s (gprReg num)).setWidth 64

/-- A register of one bit. -/
def CpuState.flag (s : CpuState) (r : Reg) : Bool :=
  (s r).getLsbD 0

def CpuState.zmm (s : CpuState) (num : Fin 32) : BitVec 512 :=
  s (.ZMM num)

/-- The views of a general purpose register. -/
inductive GprPart
  | full
  | dword
  | word
  | low
  | high
  deriving DecidableEq

/-- `xed_get_register_width_bits`. -/
def GprPart.width : GprPart → ℕ
  | full => 64
  | dword => 32
  | word => 16
  | low => 8
  | high => 8

/-- The lowest bit of the register that belongs to the view. -/
def GprPart.start : GprPart → ℕ
  | full => 0
  | dword => 0
  | word => 0
  | low => 0
  | high => 8

/-- A register of class `XED_REG_CLASS_GPR`. The first four have a high byte. -/
structure GprReg where
  num : Fin 16
  part : GprPart
  valid : part = .high → num.val < 4

/-- The widths of an operand. -/
inductive OpWidth
  | byte
  | word
  | dword
  | qword
  deriving DecidableEq

namespace OpWidth

def part : OpWidth → GprPart
  | byte => .low
  | word => .word
  | dword => .dword
  | qword => .full

/-- The register of this width. -/
abbrev reg (ow : OpWidth) (num : Fin 16) : GprReg :=
  ⟨num, ow.part, fun h => by cases ow <;> cases h⟩

abbrev bits (ow : OpWidth) : ℕ :=
  ow.part.width

end OpWidth

inductive VecClass
  | XMM
  | YMM
  | ZMM
  deriving DecidableEq

def VecClass.width : VecClass → ℕ
  | XMM => 128
  | YMM => 256
  | ZMM => 512

/-- A register of class `XED_REG_CLASS_XMM`, `XED_REG_CLASS_YMM` or `XED_REG_CLASS_ZMM`. -/
structure VecReg where
  num : Fin 32
  cls : VecClass

/-- `xed_get_largest_enclosing_register`. -/
inductive LargestReg
  | gpr (num : Fin 16)
  | zmm (num : Fin 32)

def GprReg.largest (reg : GprReg) : LargestReg :=
  .gpr reg.num

def VecReg.largest (reg : VecReg) : LargestReg :=
  .zmm reg.num

/-- `xed_get_register_width_bits64` of such a register. -/
def LargestReg.width : LargestReg → ℕ
  | gpr _ => 64
  | zmm _ => 512

/-- `xedreg_to_offset`. The registers are numbered from `XED_REG_RAX` and from `XED_REG_ZMM0` on. -/
def xedregToOffset : LargestReg → ℕ
  | .gpr num => num * 8 + Reg.RAX.offset
  | .zmm num => num * 64 + (Reg.ZMM 0).offset

def readReg (width off : ℕ) (s : CpuState) : Except String (BitVec width) :=
  match Reg.ofOffset off with
  | some r => .ok ((s r).setWidth width)
  | none => .error "out_of_range"

def writeReg {n : ℕ} (off : ℕ) (value : BitVec n) (s : CpuState) : Except String CpuState :=
  match Reg.ofOffset off with
  | some r => .ok (Function.update s r (insertField (s r) 0 n value))
  | none => .error "out_of_range"

/-! ## Operands -/

/-- `read_operand`. The type that is read has the width of the register, and the offset is the one
of the register without a FIXME for `AH`, `CH`, `DH` and `BH`. -/
def readGpr (reg : GprReg) (s : CpuState) : Except String (BitVec reg.part.width) :=
  readReg reg.part.width (xedregToOffset reg.largest) s

def readVec (reg : VecReg) (s : CpuState) : Except String (BitVec reg.cls.width) :=
  readReg reg.cls.width (xedregToOffset reg.largest) s

section Write

variable {n : ℕ}

def insertBitcast (width : ℕ) (value : BitVec n) : Except String (BitVec width) :=
  if width = n then .ok (value.setWidth width)
  else .error "cannot bitcast between types with different sizes"

/-- The register is between `XED_REG_AL` and `XED_REG_R15B`. -/
def GprReg.isLow (reg : GprReg) : Bool :=
  reg.part = .low

/-- `write_operand` to a general purpose register. -/
def writeGpr (reg : GprReg) (typeClass : TypeClass) (value : BitVec n) (s : CpuState) :
    Except String CpuState :=
  let off := xedregToOffset reg.largest
  match n with
  | 64 =>
    if typeClass = .signedInteger then do
      let value ← insertBitcast 64 value
      writeReg off value s
    else writeReg off value s
  | 32 => writeReg off (value.setWidth 64) s
  | 16 => do
    let orig ← readReg 64 off s
    writeReg off (insertField orig 0 16 value) s
  | 8 => do
    let orig ← readReg 64 off s
    if reg.isLow then writeReg off (insertField orig 0 8 value) s
    else writeReg off (insertField orig 8 8 value) s
  | _ => .error "unsupported general purpose register size"

/-- The widths of the values that are written to a vector register. -/
def vecWidths : List ℕ :=
  [32, 64, 128, 256, 512]

/-- A vector of as many values as there are in the register, with its first element replaced. -/
def insertFirst {w : ℕ} (enc : BitVec w) (value : BitVec n) : Except String (BitVec w) := do
  let vec ← insertBitcast (n * (w / n)) enc
  let vec := insertField vec 0 n value
  return vec.setWidth w

/-- `write_operand` to a vector register. `sse` is `xed_classify_sse`. -/
def writeVec (sse : Bool) (reg : VecReg) (value : BitVec n) (s : CpuState) :
    Except String CpuState :=
  let off := xedregToOffset reg.largest
  let width := reg.largest.width
  if sse then do
    let enc ← readReg width off s
    if n ∈ vecWidths then do
      let enc ← insertFirst enc value
      writeReg off enc s
    else writeReg off enc s
  else if n ∈ vecWidths then do
    let flat ← insertBitcast n value
    writeReg off (flat.setWidth width) s
  else .error "unsupported value width when writing X/Y/ZMM registers"

end Write

/-- An operand of `w` bits that is read : a general purpose register, or what is in memory. -/
inductive RegOrMem (w : ℕ)
  | reg (reg : GprReg) (h : reg.part.width = w)
  | mem (value : BitVec w)

/-- `read_operand` of such an operand. -/
def RegOrMem.read {w : ℕ} (s : CpuState) : RegOrMem w → Except String (BitVec w)
  | reg r h => do
    let value ← readGpr r s
    return value.cast h
  | mem value => .ok value

/-- `LEA`, where the address is `addr`. -/
def lea (reg : GprReg) (addr : BitVec 64) (s : CpuState) : Except String CpuState :=
  writeGpr reg .unsignedInteger addr s

/-! ## What is there -/

theorem ofOffset_gpr (num : Fin 16) :
    Reg.ofOffset (xedregToOffset (.gpr num)) = some (gprReg num) := by
  have hoff : ∀ num : Fin 16, xedregToOffset (.gpr num) = (gprReg num).offset := by decide
  rw [hoff, Reg.ofOffset_offset]

theorem ofOffset_zmm (num : Fin 32) :
    Reg.ofOffset (xedregToOffset (.zmm num)) = some (.ZMM num) := by
  have hoff : ∀ num : Fin 32, xedregToOffset (.zmm num) = (Reg.ZMM num).offset := by
    decide
  rw [hoff, Reg.ofOffset_offset]

theorem writeReg_offset {n : ℕ} (r : Reg) (value : BitVec n) (s : CpuState) :
    writeReg r.offset value s = .ok (Function.update s r (insertField (s r) 0 n value)) := by
  rw [writeReg, Reg.ofOffset_offset]

theorem readReg_gpr (width : ℕ) (num : Fin 16) (s : CpuState) :
    readReg width (xedregToOffset (.gpr num)) s = .ok ((s (gprReg num)).setWidth width) := by
  rw [readReg, ofOffset_gpr]

theorem readReg_zmm (width : ℕ) (num : Fin 32) (s : CpuState) :
    readReg width (xedregToOffset (.zmm num)) s = .ok ((s.zmm num).setWidth width) := by
  rw [readReg, ofOffset_zmm]
  rfl

theorem writeReg_zmm (num : Fin 32) (value : BitVec 512) (s : CpuState) :
    writeReg (xedregToOffset (.zmm num)) value s = .ok (Function.update s (.ZMM num) value) := by
  have hall := insertField_all (s (.ZMM num)) value
  simp only [writeReg, ofOffset_zmm, hall]

/-- The state with another content in a general purpose register. -/
def CpuState.setGpr (s : CpuState) (num : Fin 16) (x : BitVec 64) : CpuState :=
  Function.update s (gprReg num) (insertField (s (gprReg num)) 0 64 x)

theorem gpr_setGpr (s : CpuState) (num : Fin 16) (x : BitVec 64) :
    (s.setGpr num x).gpr num = x := by
  rw [CpuState.gpr, CpuState.setGpr, Function.update_self, setWidth_insertField (by decide),
    insertField_all]

theorem gprReg_inj {a b : Fin 16} : gprReg a = gprReg b ↔ a = b := by
  revert a b
  decide

theorem gpr_setGpr_of_ne {a b : Fin 16} (h : a ≠ b) (s : CpuState) (x : BitVec 64) :
    (s.setGpr a x).gpr b = s.gpr b := by
  rw [CpuState.gpr, CpuState.setGpr, Function.update_of_ne fun heq => h (gprReg_inj.1 heq).symm,
    CpuState.gpr]

theorem writeReg_gpr (num : Fin 16) (value : BitVec 64) (s : CpuState) :
    writeReg (xedregToOffset (.gpr num)) value s = .ok (s.setGpr num value) := by
  rw [writeReg, ofOffset_gpr]
  rfl

/-- The same for the low bits. -/
theorem writeReg_gpr_of_le {n : ℕ} (hn : n ≤ 64) (num : Fin 16) (value : BitVec n) (s : CpuState) :
    writeReg (xedregToOffset (.gpr num)) value s =
      .ok (s.setGpr num (insertField (s.gpr num) 0 n value)) := by
  have hfield : insertField (s (gprReg num)) 0 n value =
      insertField (s (gprReg num)) 0 64 (insertField (s.gpr num) 0 n value) := by
    refine BitVec.eq_of_getLsbD_eq fun i hi => ?_
    rw [getLsbD_insertField hi, getLsbD_insertField hi, Nat.sub_zero]
    by_cases hin : i < 64
    · rw [if_pos (show 0 ≤ i ∧ i < 0 + 64 by omega), getLsbD_insertField hin, Nat.sub_zero,
        CpuState.gpr, BitVec.getLsbD_setWidth, decide_eq_true hin, Bool.true_and]
    · rw [if_neg (by omega), if_neg (by omega)]
  rw [writeReg, ofOffset_gpr]
  exact congrArg (fun x => Except.ok (Function.update s (gprReg num) x)) hfield

/-- The low bits of a general purpose register. -/
theorem setWidth_gprReg (s : CpuState) (num : Fin 16) {width : ℕ} (h : width ≤ 64) :
    (s (gprReg num)).setWidth width = (s.gpr num).setWidth width := by
  rw [CpuState.gpr, BitVec.setWidth_setWidth_of_le _ h]

/-! ## General purpose registers -/

namespace GprReg

/-- The part of a content that the view shows. -/
def view (reg : GprReg) (content : BitVec 64) : BitVec reg.part.width :=
  content.extractLsb' reg.part.start reg.part.width

/-- The content `x` becomes `y` when `value` is written to the view. Above 32 bits there are zeros
then, and outside a view of 8 or 16 bits nothing changes. -/
def Written (reg : GprReg) (value : BitVec reg.part.width) (x y : BitVec 64) : Prop :=
  ∀ i < 64, y.getLsbD i =
    if reg.part.start ≤ i ∧ i < reg.part.start + reg.part.width then
      value.getLsbD (i - reg.part.start)
    else decide (reg.part ≠ .dword) && x.getLsbD i

/-- The view is read as it is. It is written, no other register is, and what was written is read
afterwards. -/
structure Coherent (reg : GprReg) (typeClass : TypeClass) (value : BitVec reg.part.width)
    (s : CpuState) : Prop where
  reads : readGpr reg s = .ok (reg.view (s.gpr reg.num))
  writes : ∃ s', writeGpr reg typeClass value s = .ok s' ∧
    reg.Written value (s.gpr reg.num) (s'.gpr reg.num) ∧ (∀ r ≠ gprReg reg.num, s' r = s r) ∧
    readGpr reg s' = .ok value

/-- A high byte is the low one as well, and is left as it is. -/
def fits (reg : GprReg) (value : BitVec reg.part.width) (content : BitVec 64) : Prop :=
  reg.part = .high → content.setWidth 8 = content.extractLsb' 8 8 ∧
    value = content.setWidth reg.part.width

/-- `LEA` writes the address to the view. -/
def LeaRight (reg : GprReg) (addr : BitVec 64) (s : CpuState) : Prop :=
  ∃ s', lea reg addr s = .ok s' ∧
    reg.Written (addr.setWidth reg.part.width) (s.gpr reg.num) (s'.gpr reg.num)

/-- What the address has above the view is there already, or zero. -/
def leaFits (reg : GprReg) (addr content : BitVec 64) : Prop :=
  addr >>> reg.part.width = if reg.part = .dword then 0 else content >>> reg.part.width

/-- What is read is at the place of the low bits. -/
theorem readGpr_eq (reg : GprReg) (s : CpuState) :
    readGpr reg s = .ok ((s.gpr reg.num).setWidth reg.part.width) := by
  have hle : reg.part.width ≤ 64 := by cases reg.part <;> decide
  rw [readGpr, largest, readReg_gpr, setWidth_gprReg _ _ hle]

theorem writeGpr_64 (reg : GprReg) (typeClass : TypeClass) (value : BitVec 64) (s : CpuState) :
    writeGpr reg typeClass value s = .ok (s.setGpr reg.num value) := by
  have hcast : insertBitcast 64 value = .ok value := congrArg Except.ok (BitVec.setWidth_eq value)
  simp only [writeGpr, largest, hcast, ok_bind, writeReg_gpr, ite_self]

theorem writeGpr_32 (reg : GprReg) (typeClass : TypeClass) (value : BitVec 32) (s : CpuState) :
    writeGpr reg typeClass value s = .ok (s.setGpr reg.num (value.setWidth 64)) :=
  writeReg_gpr ..

theorem writeGpr_16 (reg : GprReg) (typeClass : TypeClass) (value : BitVec 16) (s : CpuState) :
    writeGpr reg typeClass value s =
      .ok (s.setGpr reg.num (insertField (s.gpr reg.num) 0 16 value)) := by
  simp only [writeGpr, largest, readReg_gpr, ok_bind, writeReg_gpr]
  rfl

theorem writeGpr_8 (reg : GprReg) (typeClass : TypeClass) (value : BitVec 8) (s : CpuState) :
    writeGpr reg typeClass value s = .ok (s.setGpr reg.num
      (insertField (s.gpr reg.num) (if reg.part = .low then 0 else 8) 8 value)) := by
  simp only [writeGpr, largest, readReg_gpr, ok_bind, writeReg_gpr, isLow, decide_eq_true_eq]
  split_ifs <;> rfl

/-- A write of a value of the width of the view. -/
theorem writeGpr_spec (reg : GprReg) (typeClass : TypeClass) (value : BitVec reg.part.width)
    (s : CpuState) :
    ∃ y, writeGpr reg typeClass value s = .ok (s.setGpr reg.num y) ∧
      reg.Written value (s.gpr reg.num) y := by
  obtain ⟨num, part, valid⟩ := reg
  cases part with
  | full =>
    refine ⟨value, writeGpr_64 .., fun i hi => ?_⟩
    rw [if_pos ⟨i.zero_le, by simpa [GprPart.start, GprPart.width] using hi⟩]
    rfl
  | dword =>
    refine ⟨value.setWidth 64, writeGpr_32 .., fun i hi => ?_⟩
    rw [BitVec.getLsbD_setWidth, decide_eq_true hi, Bool.true_and]
    by_cases hin : i < 32
    · rw [if_pos ⟨i.zero_le, by simpa [GprPart.start, GprPart.width] using hin⟩]
      rfl
    · rw [if_neg fun h => hin (by simpa [GprPart.start, GprPart.width] using h.2)]
      exact BitVec.getLsbD_of_ge value i (Nat.le_of_not_lt hin)
  | word => exact ⟨_, writeGpr_16 .., fun i hi => getLsbD_insertField hi⟩
  | low => exact ⟨_, writeGpr_8 .., fun i hi => getLsbD_insertField hi⟩
  | high => exact ⟨_, writeGpr_8 .., fun i hi => getLsbD_insertField hi⟩

/-- Writes of two registers. -/
theorem writeGpr_writeGpr_spec (reg reg' : GprReg) (hne : reg.num ≠ reg'.num)
    (typeClass : TypeClass)
    (value : BitVec reg.part.width) (value' : BitVec reg'.part.width) (s : CpuState) :
    ∃ s', (writeGpr reg typeClass value s >>= writeGpr reg' typeClass value') = .ok s' ∧
      reg.Written value (s.gpr reg.num) (s'.gpr reg.num) ∧
      reg'.Written value' (s.gpr reg'.num) (s'.gpr reg'.num) ∧
      ∀ r, r ≠ gprReg reg.num → r ≠ gprReg reg'.num → s' r = s r := by
  obtain ⟨y, hy, hwritten⟩ := writeGpr_spec reg typeClass value s
  obtain ⟨y', hy', hwritten'⟩ := writeGpr_spec reg' typeClass value' (s.setGpr reg.num y)
  rw [gpr_setGpr_of_ne hne] at hwritten'
  rw [hy, ok_bind, hy']
  refine ⟨_, rfl, ?_, by rwa [gpr_setGpr], fun r hr hr' => ?_⟩
  · rwa [gpr_setGpr_of_ne (Ne.symm hne), gpr_setGpr]
  · rw [CpuState.setGpr, Function.update_of_ne hr', CpuState.setGpr, Function.update_of_ne hr]

/-- A write of a flag, and after it a write of the view. -/
theorem writeReg_writeGpr_spec {n : ℕ} (hn : 0 < n) (reg : GprReg) (typeClass : TypeClass)
    (value : BitVec reg.part.width) {flag : Reg} (hflag : gprReg reg.num ≠ flag) (bit : BitVec n)
    (s : CpuState) :
    ∃ s', (writeReg flag.offset bit s >>= writeGpr reg typeClass value) = .ok s' ∧
      s'.flag flag = bit.getLsbD 0 ∧ reg.Written value (s.gpr reg.num) (s'.gpr reg.num) ∧
      ∀ r, r ≠ flag → r ≠ gprReg reg.num → s' r = s r := by
  obtain ⟨y, hy, hwritten⟩ :=
    writeGpr_spec reg typeClass value (Function.update s flag (insertField (s flag) 0 n bit))
  rw [CpuState.gpr, Function.update_of_ne hflag] at hwritten
  rw [writeReg_offset, ok_bind, hy]
  refine ⟨_, rfl, ?_, by rwa [gpr_setGpr], fun r hr hreg => ?_⟩
  · rw [CpuState.flag, CpuState.setGpr, Function.update_of_ne hflag.symm, Function.update_self,
      getLsbD_insertField (by decide), if_pos (by omega)]
  · rw [CpuState.setGpr, Function.update_of_ne hreg, Function.update_of_ne hr]

theorem start_eq_zero {reg : GprReg} (h : reg.part ≠ .high) : reg.part.start = 0 := by
  cases hpart : reg.part with
  | high => exact absurd hpart h
  | full | dword | word | low => rfl

theorem add_width_le (reg : GprReg) : reg.part.start + reg.part.width ≤ 64 := by
  cases reg.part <;> decide

/-- The low bits after a write. -/
theorem setWidth_of_written {reg : GprReg} {value : BitVec reg.part.width} {x y : BitVec 64}
    (h : reg.Written value x y) :
    y.setWidth reg.part.width = if reg.part = .high then x.setWidth reg.part.width else value := by
  have hle := reg.add_width_le
  refine BitVec.eq_of_getLsbD_eq fun i hi => ?_
  rw [BitVec.getLsbD_setWidth, decide_eq_true hi, Bool.true_and, h i (by omega)]
  split_ifs with hin hhigh hhigh
  · rw [hhigh, GprPart.start] at hin
    rw [hhigh, GprPart.width] at hi
    omega
  · rw [start_eq_zero hhigh, Nat.sub_zero]
  · rw [BitVec.getLsbD_setWidth, decide_eq_true hi, hhigh]
    rfl
  · rw [start_eq_zero hhigh] at hin
    omega

theorem view_eq_setWidth {reg : GprReg} (h : reg.part ≠ .high) (content : BitVec 64) :
    reg.view content = content.setWidth reg.part.width := by
  have hle := reg.add_width_le
  rw [view, start_eq_zero h]
  exact (BitVec.setWidth_eq_extractLsb' (by omega)).symm

theorem coherent_iff (reg : GprReg) (typeClass : TypeClass) (value : BitVec reg.part.width)
    (s : CpuState) : reg.Coherent typeClass value s ↔ reg.fits value (s.gpr reg.num) := by
  obtain ⟨y, hy, hwritten⟩ := writeGpr_spec reg typeClass value s
  have hlow := setWidth_of_written hwritten
  have hback : readGpr reg (s.setGpr reg.num y) = .ok (y.setWidth reg.part.width) := by
    rw [readGpr_eq, gpr_setGpr]
  have hframe : ∀ r ≠ gprReg reg.num, s.setGpr reg.num y r = s r := fun r hr =>
    Function.update_of_ne hr _ _
  by_cases hhigh : reg.part = .high
  · rw [if_pos hhigh] at hlow
    have hreads : readGpr reg s = .ok (reg.view (s.gpr reg.num)) ↔
        (s.gpr reg.num).setWidth 8 = (s.gpr reg.num).extractLsb' 8 8 := by
      rw [readGpr_eq, Except.ok.injEq, view, hhigh]
      rfl
    rw [fits]
    constructor
    · rintro ⟨hreadsRight, s', hs', -, -, hvalue⟩ -
      obtain rfl := Except.ok.inj (hy.symm.trans hs')
      refine ⟨hreads.1 hreadsRight, ?_⟩
      rw [hback, hlow] at hvalue
      exact (Except.ok.inj hvalue).symm
    · intro hfits
      obtain ⟨hsame, hvalue⟩ := hfits hhigh
      refine ⟨hreads.2 hsame, _, hy, ?_, hframe, ?_⟩
      · rwa [gpr_setGpr]
      · rw [hback, hlow, ← hvalue]
  · refine iff_of_true ⟨?_, _, hy, ?_, hframe, ?_⟩ fun h => absurd h hhigh
    · rw [readGpr_eq, view_eq_setWidth hhigh]
    · rwa [gpr_setGpr]
    · rw [hback, hlow, if_neg hhigh]

/-- A content is what a write of its low part leaves if what is above it is as it should. -/
theorem written_setWidth_iff {reg : GprReg} (h : reg.part ≠ .high) (x y : BitVec 64) :
    reg.Written (y.setWidth reg.part.width) x y ↔ reg.leaFits y x := by
  have hbelow : ∀ i < reg.part.width, y.getLsbD i = (y.setWidth reg.part.width).getLsbD i := by
    intro i hi
    rw [BitVec.getLsbD_setWidth, decide_eq_true hi, Bool.true_and]
  have hfits : reg.leaFits y x ↔
      y >>> reg.part.width = (if reg.part = .dword then 0#64 else x) >>> reg.part.width := by
    rw [leaFits]
    split_ifs with hdword
    · rw [BitVec.zero_ushiftRight]
      rfl
    · rfl
  rw [hfits, ushiftRight_eq_iff, Written, start_eq_zero h]
  refine forall₂_congr fun i hi => ?_
  by_cases hin : i < reg.part.width
  · rw [if_pos (by omega), Nat.sub_zero]
    exact iff_of_true (hbelow i hin) fun hle => absurd hin (Nat.not_lt.2 hle)
  · rw [if_neg (by omega), forall_prop_of_true (Nat.not_lt.1 hin)]
    split_ifs with hdword
    · rw [hdword, BitVec.getLsbD_zero]
      rfl
    · rw [decide_eq_true hdword, Bool.true_and]

theorem lea_right_iff {reg : GprReg} (h : reg.part ≠ .high) (addr : BitVec 64) (s : CpuState) :
    reg.LeaRight addr s ↔ reg.leaFits addr (s.gpr reg.num) := by
  rw [← written_setWidth_iff h, LeaRight, lea, writeGpr_64]
  simp only [Except.ok.injEq, exists_eq_left', gpr_setGpr]

end GprReg

namespace RegOrMem

variable {w : ℕ}

/-- What an operand has. -/
def content (s : CpuState) : RegOrMem w → BitVec w
  | .reg r h => (r.view (s.gpr r.num)).cast h
  | .mem value => value

/-- What is read of an operand. -/
def value (s : CpuState) : RegOrMem w → BitVec w
  | .reg r h => ((s.gpr r.num).setWidth r.part.width).cast h
  | .mem value => value

/-- The operand is a high byte. -/
def IsHigh : RegOrMem w → Prop
  | .reg r _ => r.part = .high
  | .mem _ => False

/-- Only a byte can be a high one. -/
theorem not_isHigh (hw : w ≠ 8) (src : RegOrMem w) : ¬src.IsHigh := by
  cases src with
  | reg r hr =>
    intro h
    exact hw (hr ▸ congrArg GprPart.width h)
  | mem value => exact id

theorem read_eq_value (src : RegOrMem w) (s : CpuState) : src.read s = .ok (src.value s) := by
  cases src with
  | reg r hr =>
    rw [RegOrMem.read, GprReg.readGpr_eq, ok_bind, value]
    rfl
  | mem value => rfl

theorem value_eq {src : RegOrMem w} (h : ¬src.IsHigh) (s : CpuState) :
    src.value s = src.content s := by
  cases src with
  | reg r hr => rw [value, content, GprReg.view_eq_setWidth h]
  | mem value => rfl

theorem read_eq {src : RegOrMem w} (h : ¬src.IsHigh) (s : CpuState) :
    src.read s = .ok (src.content s) := by
  rw [read_eq_value, value_eq h]

end RegOrMem

/-! ## Vector registers -/

/-- The content `x` of the largest register becomes `y` when `value` is written to its low bits. An
SSE instruction leaves the rest as it is, another one leaves zeros. -/
def VecWritten {n : ℕ} (sse : Bool) (value : BitVec n) (x y : BitVec 512) : Prop :=
  y.setWidth n = value ∧ ∀ i < 512, n ≤ i → y.getLsbD i = (sse && x.getLsbD i)

/-- A write leaves this in the largest register and nothing else changes, and every register in it
is then read as its low bits. -/
def VecReg.Coherent {n : ℕ} (sse : Bool) (reg : VecReg) (value : BitVec n) (s : CpuState) : Prop :=
  ∃ s', writeVec sse reg value s = .ok s' ∧ VecWritten sse value (s.zmm reg.num) (s'.zmm reg.num) ∧
    (∀ r ≠ .ZMM reg.num, s' r = s r) ∧
    ∀ cls : VecClass, readVec ⟨reg.num, cls⟩ s' = .ok ((s'.zmm reg.num).setWidth cls.width)

theorem le_of_mem_vecWidths {n : ℕ} (hn : n ∈ vecWidths) : n ≤ 512 ∧ n * (512 / n) = 512 := by
  simp only [vecWidths, List.mem_cons, List.not_mem_nil, or_false] at hn
  rcases hn with rfl | rfl | rfl | rfl | rfl <;> decide

theorem insertBitcast_self {n : ℕ} (value : BitVec n) : insertBitcast n value = .ok value := by
  rw [insertBitcast, if_pos rfl, BitVec.setWidth_eq]

/-- The elements fill the register. -/
theorem insertFirst_eq {n : ℕ} (hn : n ∈ vecWidths) (enc : BitVec 512) (value : BitVec n) :
    insertFirst enc value = .ok (insertField enc 0 n value) := by
  obtain ⟨-, hwidth⟩ := le_of_mem_vecWidths hn
  rw [insertFirst, hwidth, insertBitcast_self, ok_bind]
  exact congrArg Except.ok (BitVec.setWidth_eq _)

/-- What is written to the largest register. -/
theorem writeVec_eq {n : ℕ} (hn : n ∈ vecWidths) (sse : Bool) (reg : VecReg) (value : BitVec n)
    (s : CpuState) :
    writeVec sse reg value s = .ok (Function.update s (.ZMM reg.num)
      (if sse then insertField (s.zmm reg.num) 0 n value else value.setWidth 512)) := by
  have hread : readReg 512 (xedregToOffset (.zmm reg.num)) s = .ok (s.zmm reg.num) :=
    (readReg_zmm ..).trans (congrArg _ (BitVec.setWidth_eq _))
  simp only [writeVec, VecReg.largest, LargestReg.width, if_pos hn, hread, ok_bind,
    insertFirst_eq hn, insertBitcast_self, writeReg_zmm]
  split_ifs <;> rfl

/-- A write and what it leaves alone. -/
theorem writeVec_spec {n : ℕ} (hn : n ∈ vecWidths) (sse : Bool) (reg : VecReg) (value : BitVec n)
    (s : CpuState) :
    ∃ s', writeVec sse reg value s = .ok s' ∧
      VecWritten sse value (s.zmm reg.num) (s'.zmm reg.num) ∧ ∀ r ≠ .ZMM reg.num, s' r = s r := by
  obtain ⟨hle, -⟩ := le_of_mem_vecWidths hn
  refine ⟨_, writeVec_eq hn sse reg value s, ?_, fun r hr => Function.update_of_ne hr _ _⟩
  rw [CpuState.zmm, CpuState.zmm, Function.update_self]
  cases sse with
  | true =>
    refine ⟨?_, fun i hi hge => ?_⟩
    · rw [if_pos rfl, setWidth_insertField hle, insertField_all]
    · rw [if_pos rfl, getLsbD_insertField hi, if_neg (by omega), Bool.true_and]
  | false =>
    refine ⟨?_, fun i hi hge => ?_⟩
    · rw [if_neg (by decide), BitVec.setWidth_setWidth_of_le _ hle, BitVec.setWidth_eq]
    · rw [if_neg (by decide), BitVec.getLsbD_setWidth, BitVec.getLsbD_of_ge value i hge,
        Bool.and_false, Bool.false_and]

/-- Values of every width are written as they should be, and read in every register. -/
theorem vec_coherent {n : ℕ} (hn : n ∈ vecWidths) (sse : Bool) (reg : VecReg) (value : BitVec n)
    (s : CpuState) : reg.Coherent sse value s := by
  obtain ⟨s', hs', hwritten, hframe⟩ := writeVec_spec hn sse reg value s
  exact ⟨s', hs', hwritten, hframe, fun cls => readReg_zmm ..⟩

/-- A value of 64 bits, written to `XMM1` by an SSE instruction. -/
theorem vec_coherent_xmm :
    (⟨1, .XMM⟩ : VecReg).Coherent true (0x0123456789ABCDEF#64) (fun _ => BitVec.allOnes 512) :=
  vec_coherent (by decide) true ⟨1, .XMM⟩ _ _

end Arancini.X86
