import Arancini.Ir.Node
import Arancini.Lib.Except

/-!
# Downcasts to a constant

`shifts_translator` takes the node of a count for a `constant_node` and asks it for its constant,
with a cast that checks nothing. Here a node is its kind and its type, and a translation is the
list of the kinds of the nodes that it casts.

An immediate is read as a constant. `SHL`, `SHR` and `SAR` mask it before they cast it, and what
they cast is the mask. `ROL` and `ROR` cast the count in any case, and a count in `CL` is a read of
a register. The other casts are of constants, or never made (`downcasts_constant_iff`).
-/

namespace Arancini.X86

open Ir

/-! ## Operands -/

/-- `node_kinds`, as far as `read_operand` and the shifts have them. -/
inductive NodeKind
  | constant
  | binaryArith
  | readReg
  | readMem
  | cast
  deriving DecidableEq

structure KindedNode where
  kind : NodeKind
  type : ValueType

/-- The name and the register class of an operand. `base` is the width of the base register of a
memory operand. -/
inductive Operand
  | gpr (width : ℕ)
  | xmm
  | ymm
  | zmm
  | x87
  | pseudoX87
  | otherReg
  | imm0 (signed : Bool) (width : ℕ)
  | imm1
  | mem (base : Option ℕ) (bytes : ℕ)
  | relbr
  | other

/-- `compute_address` throws for a base register of another size. -/
def baseValid (base : Option ℕ) : Bool :=
  base = none ∨ base = some 64

def readGprKind (width : ℕ) : Except String KindedNode :=
  if width ∈ [8, 16, 32, 64] then .ok ⟨.readReg, .u width⟩
  else .error "unsupported register size"

def readImmediateKind (signed : Bool) (width : ℕ) : Except String KindedNode :=
  if width ∈ [8, 16, 32, 64] then .ok ⟨.constant, if signed then .s width else .u width⟩
  else .error "unsupported immediate width"

def readMemKind (base : Option ℕ) (bytes : ℕ) : Except String KindedNode :=
  if ¬baseValid base then .error "base reg invalid size"
  else if bytes = 10 then .ok ⟨.readMem, .f 80⟩
  else if bytes ∈ [1, 2, 4, 8, 16] then .ok ⟨.readMem, .u (8 * bytes)⟩
  else .error "invalid memory width in read"

/-- `read_operand`. -/
def Operand.read : Operand → Except String KindedNode
  | gpr width => readGprKind width
  | xmm => .ok ⟨.readReg, .u 128⟩
  | ymm => .ok ⟨.readReg, .u 256⟩
  | zmm => .ok ⟨.readReg, .u 512⟩
  | x87 => .ok ⟨.cast, .f 64⟩
  | pseudoX87 => .ok ⟨.readReg, .u 16⟩
  | otherReg => .error "unsupported register class"
  | imm0 signed width => readImmediateKind signed width
  | mem base bytes => readMemKind base bytes
  | relbr => .ok ⟨.constant, .u 64⟩
  | imm1 | other => .error "unsupported read operand type"

/-- `is_immediate_operand`. -/
def Operand.isImmediate : Operand → Bool
  | imm0 .. | imm1 => true
  | _ => false

def operandAt (ops : List Operand) (opnum : ℕ) : Operand :=
  ops.getD opnum .other

def readOperandKind (ops : List Operand) (opnum : ℕ) : Except String KindedNode :=
  (operandAt ops opnum).read

def isImmediateOperand (ops : List Operand) (opnum : ℕ) : Bool :=
  (operandAt ops opnum).isImmediate

/-! ## The translator -/

/-- `xed_iclass_enum_t`, of the instructions that `shifts_translator` is for. -/
inductive ShiftClass
  | SAR | SHR | SHL
  | SHRD | SHLD
  | PSRLW | PSRLD | PSRLQ
  | PSLLDQ | PSRLDQ
  | ROR | ROL
  | PSLLD
  deriving DecidableEq

/-- The conjunction of the count with a constant of its type. -/
def insertMask (amt : KindedNode) : Except String KindedNode :=
  if amt.type.typeClass = .signedInteger ∨ amt.type.typeClass = .unsignedInteger then
    .ok ⟨.binaryArith, amt.type⟩
  else .error "constructing a constant node with an integer for a non-integer value type"

/-- The cast of a masked count, if the second operand is an immediate. -/
def maskedDowncasts (ops : List Operand) (amt : Except String KindedNode) : List NodeKind :=
  match amt with
  | .error _ => []
  | .ok amt => if isImmediateOperand ops 1 then [amt.kind] else []

/-- The kinds of the nodes that `do_translate` casts. Nothing is cast after an exception. -/
def downcasts (inst : ShiftClass) (ops : List Operand) : List NodeKind :=
  match readOperandKind ops 0, readOperandKind ops 1 with
  | .ok _, .ok amt =>
    match inst with
    | .SAR | .SHR | .SHL => maskedDowncasts ops (insertMask amt)
    | .SHRD | .SHLD => maskedDowncasts ops (readOperandKind ops 2 >>= insertMask)
    | .PSRLW | .PSRLD | .PSRLQ | .PSLLD => []
    | .PSLLDQ | .PSRLDQ | .ROR | .ROL => [amt.kind]
  | _, _ => []

/-! ## Decoded instructions -/

/-- The size of an operand, in bytes. -/
inductive OpSize
  | b
  | w
  | d
  | q
  deriving DecidableEq

def OpSize.bytes : OpSize → ℕ
  | b => 1
  | w => 2
  | d => 4
  | q => 8

/-- A register or a memory operand. -/
inductive RegMem
  | reg (size : OpSize)
  | mem (base : Option ℕ) (size : OpSize)

def RegMem.operand : RegMem → Operand
  | reg size => .gpr (8 * size.bytes)
  | mem base size => .mem base size.bytes

/-- Its address can be computed. -/
def RegMem.addressable : RegMem → Bool
  | reg _ => true
  | mem base _ => baseValid base

inductive CountForm
  | imm
  | cl
  deriving DecidableEq

def CountForm.operand : CountForm → Operand
  | imm => .imm0 false 8
  | cl => .gpr 8

/-- The count of a packed shift. -/
inductive PackedCount
  | imm
  | reg
  | mem (base : Option ℕ)

/-- A vector register or an MMX register. -/
def packedReg (mmx : Bool) : Operand :=
  if mmx then .otherReg else .xmm

def PackedCount.operand (mmx : Bool) : PackedCount → Operand
  | imm => .imm0 false 8
  | reg => packedReg mmx
  | mem base => .mem base (if mmx then 8 else 16)

/-- The shifts and rotations there are, each with the forms of its operands. -/
inductive DecodedShift
  | shift (inst : ShiftClass) (h : inst ∈ [.SAR, .SHR, .SHL]) (dst : RegMem) (count : CountForm)
  | double (inst : ShiftClass) (h : inst ∈ [.SHRD, .SHLD]) (dst : RegMem) (src : OpSize)
    (count : CountForm)
  | rotate (inst : ShiftClass) (h : inst ∈ [.ROR, .ROL]) (dst : RegMem) (count : CountForm)
  | packed (inst : ShiftClass) (h : inst ∈ [.PSRLW, .PSRLD, .PSRLQ, .PSLLD]) (mmx : Bool)
    (count : PackedCount)
  | bytes (inst : ShiftClass) (h : inst ∈ [.PSLLDQ, .PSRLDQ])

namespace DecodedShift

def iclass : DecodedShift → ShiftClass
  | shift inst .. | double inst .. | rotate inst .. | packed inst .. | bytes inst _ => inst

def operands : DecodedShift → List Operand
  | shift _ _ dst count => [dst.operand, count.operand]
  | double _ _ dst src count => [dst.operand, .gpr (8 * src.bytes), count.operand]
  | rotate _ _ dst count => [dst.operand, count.operand]
  | packed _ _ mmx count => [packedReg mmx, count.operand mmx]
  | bytes _ _ => [.xmm, .imm0 false 8]

/-- The count of a shift is in `CL` and the one of a rotation is not, or the destination is no
operand that can be read. -/
def fits : DecodedShift → Prop
  | shift _ _ dst count => count = .cl ∨ dst.addressable = false
  | rotate _ _ dst count => count = .imm ∨ dst.addressable = false
  | _ => True

end DecodedShift

/-! ## Which casts are right -/

/-- A destination of a shift is read by a node unless its address cannot be computed. -/
theorem read_operand_regMem (dst : RegMem) :
    if dst.addressable then ∃ node, dst.operand.read = .ok node
    else ∃ e, dst.operand.read = .error e := by
  cases dst with
  | reg size => cases size <;> exact ⟨_, rfl⟩
  | mem base size =>
    rw [RegMem.addressable, RegMem.operand, Operand.read, readMemKind]
    by_cases hbase : baseValid base
    · rw [if_pos hbase, if_neg (not_not.mpr hbase)]
      cases size <;> exact ⟨_, rfl⟩
    · rw [if_neg hbase, if_pos hbase]
      exact ⟨_, rfl⟩

theorem downcasts_of_error {inst : ShiftClass} {dst : Operand} {ops : List Operand} {e : String}
    (h : dst.read = .error e) : downcasts inst (dst :: ops) = [] := by
  have hread : readOperandKind (dst :: ops) 0 = .error e := h
  rw [downcasts, hread]

theorem read_count (count : CountForm) :
    count.operand.read = .ok ⟨if count = .imm then .constant else .readReg, .u 8⟩ := by
  cases count <;> rfl

/-- The count of a shift is masked before the cast. -/
theorem downcasts_shift {inst : ShiftClass} (h : inst ∈ [.SAR, .SHR, .SHL]) {dst : Operand}
    {node : KindedNode} (hdst : dst.read = .ok node) (count : CountForm) :
    downcasts inst [dst, count.operand] = if count = .imm then [.binaryArith] else [] := by
  have hread : readOperandKind [dst, count.operand] 0 = .ok node := hdst
  have hcount : readOperandKind [dst, count.operand] 1 = _ := read_count count
  simp only [List.mem_cons, List.not_mem_nil, or_false] at h
  rw [downcasts, hread, hcount]
  rcases h with rfl | rfl | rfl <;> cases count <;> rfl

theorem downcasts_rotate {inst : ShiftClass} (h : inst ∈ [.ROR, .ROL]) {dst : Operand}
    {node : KindedNode} (hdst : dst.read = .ok node) (count : CountForm) :
    downcasts inst [dst, count.operand] = [if count = .imm then .constant else .readReg] := by
  have hread : readOperandKind [dst, count.operand] 0 = .ok node := hdst
  have hcount : readOperandKind [dst, count.operand] 1 = _ := read_count count
  simp only [List.mem_cons, List.not_mem_nil, or_false] at h
  rw [downcasts, hread, hcount]
  rcases h with rfl | rfl <;> rfl

/-- The second operand of `SHLD` and `SHRD` is a register, and their count the third. -/
theorem downcasts_double {inst : ShiftClass} (h : inst ∈ [.SHRD, .SHLD]) (dst : Operand)
    (src : OpSize) (count : CountForm) :
    downcasts inst [dst, .gpr (8 * src.bytes), count.operand] = [] := by
  cases hdst : dst.read with
  | error e => exact downcasts_of_error hdst
  | ok node =>
    have hread : readOperandKind [dst, .gpr (8 * src.bytes), count.operand] 0 = .ok node := hdst
    obtain ⟨src', hsrc⟩ : ∃ src', readOperandKind [dst, .gpr (8 * src.bytes), count.operand] 1 =
        .ok src' := by
      cases src <;> exact ⟨_, rfl⟩
    have hcount : readOperandKind [dst, .gpr (8 * src.bytes), count.operand] 2 = _ :=
      read_count count
    simp only [List.mem_cons, List.not_mem_nil, or_false] at h
    rw [downcasts, hread, hsrc]
    rcases h with rfl | rfl <;> simp only [hcount] <;> rfl

theorem downcasts_packed {inst : ShiftClass} (h : inst ∈ [.PSRLW, .PSRLD, .PSRLQ, .PSLLD])
    (ops : List Operand) : downcasts inst ops = [] := by
  simp only [List.mem_cons, List.not_mem_nil, or_false] at h
  rw [downcasts]
  rcases h with rfl | rfl | rfl | rfl <;> split <;> rfl

/-- All nodes that are cast to a constant are constants exactly if the instruction is neither a
shift by an immediate nor a rotation by a count in `CL`. -/
theorem downcasts_constant_iff (d : DecodedShift) :
    (∀ kind ∈ downcasts d.iclass d.operands, kind = .constant) ↔ d.fits := by
  cases d with
  | shift inst h dst count =>
    have hdst := read_operand_regMem dst
    rw [DecodedShift.fits]
    split_ifs at hdst with haddr
    · obtain ⟨node, hdst⟩ := hdst
      rw [DecodedShift.iclass, DecodedShift.operands, downcasts_shift h hdst]
      cases count <;> simp [haddr]
    · obtain ⟨e, hdst⟩ := hdst
      rw [DecodedShift.iclass, DecodedShift.operands, downcasts_of_error hdst]
      simp [haddr]
  | rotate inst h dst count =>
    have hdst := read_operand_regMem dst
    rw [DecodedShift.fits]
    split_ifs at hdst with haddr
    · obtain ⟨node, hdst⟩ := hdst
      rw [DecodedShift.iclass, DecodedShift.operands, downcasts_rotate h hdst]
      cases count <;> simp [haddr]
    · obtain ⟨e, hdst⟩ := hdst
      rw [DecodedShift.iclass, DecodedShift.operands, downcasts_of_error hdst]
      simp [haddr]
  | double inst h dst src count =>
    rw [DecodedShift.iclass, DecodedShift.operands, downcasts_double h]
    simp [DecodedShift.fits]
  | packed inst h mmx count =>
    rw [DecodedShift.iclass, downcasts_packed h]
    simp [DecodedShift.fits]
  | bytes inst h =>
    simp only [List.mem_cons, List.not_mem_nil, or_false] at h
    rcases h with rfl | rfl <;>
      simp [DecodedShift.fits, DecodedShift.iclass, DecodedShift.operands, downcasts,
        readOperandKind, operandAt, Operand.read, readImmediateKind]

/-- `shl` of a register of 32 bits by an immediate. -/
theorem not_downcasts_constant :
    ¬∀ kind ∈ downcasts .SHL [.gpr 32, .imm0 false 8], kind = .constant := by
  decide

end Arancini.X86
