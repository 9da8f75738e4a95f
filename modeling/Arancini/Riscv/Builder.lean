import Arancini.Lib.Except
import Arancini.Lib.RegAlloc

/-!
# The instruction builder of the RISC-V back-end

The builder collects the instructions of a block on virtual registers and scans them backwards
once. The scan finds the last use of a variable first, gives it a register there, and takes the
register back at the definition. An instruction whose result nobody reads is killed.

A move from a variable without a register is linked : if the scan meets the definition of what it
copies before anything conflicts, the definition writes what the move would have copied to, and the
move is killed (`inlineLink`). On a conflict the move stays and is given its registers then
(`resolve`).

`A0` and `A1` are what a block returns. They are free before the last definition of them and not
after it.
-/

namespace Arancini.Riscv.Builder

open RegAlloc

/-! ## Instructions -/

/-- `RegisterOperand` : a host register, a mapped register of the guest, or a virtual one. -/
structure RegisterOperand where
  encoding : ℕ
  deriving DecidableEq, Repr

namespace RegisterOperand

def virtualBase : ℕ := 64

def functionalBase : ℕ := 32

def isVirtual (r : RegisterOperand) : Bool :=
  virtualBase ≤ r.encoding

def isFunctional (r : RegisterOperand) : Bool :=
  r.encoding < virtualBase && functionalBase ≤ r.encoding

def isPhysical (r : RegisterOperand) : Bool :=
  r.encoding < functionalBase

end RegisterOperand

def noneReg : RegisterOperand := ⟨RegisterOperand.virtualBase - 1⟩

def ZERO : RegisterOperand := ⟨0⟩
def RA : RegisterOperand := ⟨1⟩
def FP : RegisterOperand := ⟨8⟩
def A0 : RegisterOperand := ⟨10⟩
def A1 : RegisterOperand := ⟨11⟩

/-- `InstructionType`. -/
inductive InstructionType
  | dead
  | imm
  | label
  | rdImm
  | rdLabelNear
  | rdLabelFar
  | rdRs1Imm
  | rs1Rs2LabelNear
  | rs1Rs2LabelFar
  | rs1Rs2Label
  | rdAddr
  | rs2Addr
  | rdRs1Rs2
  | none
  | rdAddrOrder
  | rdRs2AddrOrder
  | rdImmKeepRs1
  | rdRs1ImmKeepRs2
  | noop
  deriving DecidableEq, Repr

/-- The method of the assembler. -/
inductive Func
  | addiNormal
  | add
  | auipc
  | jalr
  | other (name : String)
  deriving DecidableEq, Repr

/-- A label is the address of its object, and `alloc_label` gives none twice : the two that a write
of the PC has are no label of another node. -/
inductive Label
  | node (n : ℕ)
  | falseCalc
  | endPc
  deriving DecidableEq, Repr

/-- `Instruction`. -/
structure Instruction where
  type : InstructionType
  func : Func
  rd : RegisterOperand := noneReg
  rs1 : RegisterOperand := noneReg
  rs2 : RegisterOperand := noneReg
  imm : ℤ := 0
  label : Label := .node 0
  deriving DecidableEq, Repr

namespace Instruction

/-- `has_rd`. -/
def hasRd (i : Instruction) : Bool :=
  match i.type with
  | .rdImm | .rdLabelNear | .rdLabelFar | .rdRs1Imm | .rdAddr | .rdRs1Rs2 | .rdAddrOrder
  | .rdRs2AddrOrder | .rdImmKeepRs1 | .rdRs1ImmKeepRs2 | .noop => true
  | _ => false

/-- `is_rd_use`. -/
def isRdUse (i : Instruction) : Bool :=
  match i.type with
  | .rdRs1Imm | .rdAddr | .rdAddrOrder | .rdImmKeepRs1 => i.rd = i.rs1
  | .rdRs1Rs2 | .rdRs2AddrOrder | .rdRs1ImmKeepRs2 | .noop => i.rd = i.rs1 || i.rd = i.rs2
  | _ => false

def kill (i : Instruction) : Instruction :=
  { i with type := .dead }

def isDead (i : Instruction) : Bool :=
  i.type = .dead

/-- `is_mv`. -/
def isMv (i : Instruction) : Bool :=
  (i.type = .rdRs1ImmKeepRs2 || i.type = .rdRs1Imm) && i.func = .addiNormal && i.imm = 0 ||
    i.type = .rdRs1Rs2 && i.func = .add && (i.rs1 = ZERO || i.rs2 = ZERO)

/-- `is_control_flow`. -/
def isControlFlow (i : Instruction) : Bool :=
  match i.type with
  | .label | .rdLabelNear | .rdLabelFar | .rs1Rs2LabelNear | .rs1Rs2LabelFar | .rs1Rs2Label => true
  | _ => false

/-- The register that a move copies : `rs1 == ZERO ? rs2 ?: rs1 : rs1`. -/
def mvSource (i : Instruction) : RegisterOperand :=
  if i.rs1 = ZERO then if i.rs2 = noneReg then i.rs1 else i.rs2 else i.rs1

end Instruction

/-! ### Methods of the builder -/

def auipc (rd : RegisterOperand) (imm : ℤ) : Instruction :=
  { type := .rdImm, func := .auipc, rd, imm }

def auipcKeep (rd : RegisterOperand) (imm : ℤ) : Instruction :=
  { type := .rdImmKeepRs1, func := .auipc, rd, rs1 := rd, imm }

def li (rd : RegisterOperand) (imm : ℤ) : Instruction :=
  { type := .rdRs1Imm, func := .addiNormal, rd, rs1 := ZERO, imm }

def mv (rd rs : RegisterOperand) : Instruction :=
  { type := .rdRs1Imm, func := .addiNormal, rd, rs1 := rs }

def ret : Instruction :=
  { type := .rdRs1Imm, func := .jalr, rd := ZERO, rs1 := RA }

/-- `beqz` with `kNearJump`. -/
def beqzNear (rs : RegisterOperand) (label : Label) : Instruction :=
  { type := .rs1Rs2LabelNear, func := .other "beq", rs1 := rs, rs2 := ZERO, label }

/-- `j` with `kNearJump`. -/
def jNear (label : Label) : Instruction :=
  { type := .rdLabelNear, func := .other "jal", rd := ZERO, label }

def bind (label : Label) : Instruction :=
  { type := .label, func := .other "Bind", label }

def align (alignByte : ℤ) : Instruction :=
  { type := .imm, func := .other "Align", imm := alignByte }

/-- A store to an offset from `FP`. -/
def storeFP (name : String) (rs2 : RegisterOperand) (offset : ℕ) : Instruction :=
  { type := .rs2Addr, func := .other name, rs1 := FP, rs2, imm := offset }

/-! ## Tables -/

/-- `vreg_to_preg` and `avail_physregs`. -/
abbrev Registers := Table ℕ ℕ

namespace Registers

/-- The first eight mapped registers have `x16` to `x23`, and the others of the bits of
`0xFF00F2E8` are free. -/
def start : Registers where
  map v := if 32 ≤ v ∧ v < 40 then some (v - 16) else none
  free p := (0xFF00F2E8).testBit p

/-- Variable `v` gives back register `p`. -/
def forget (T : Registers) (v p : ℕ) : Registers where
  map := Function.update T.map v none
  free := Function.update T.free p true

/-- The first free register from `lo` on. -/
def findFrom (T : Registers) (lo : ℕ) : Option ℕ :=
  (List.range' lo (32 - lo)).find? T.free

/-- The preference, if it is free, or else the first free register, from `x8` on at first. -/
def allocation (T : Registers) (preference : RegisterOperand) : Option ℕ :=
  if preference ≠ noneReg ∧ T.free preference.encoding then some preference.encoding
  else (T.findFrom 8).or (T.findFrom 0)

/-- `allocate`. -/
def allocate (T : Registers) (o preference : RegisterOperand) :
    Except String (RegisterOperand × Registers) :=
  if o.isPhysical then .error "Trying to allocate non-virtual register operand"
  else
    match T.allocation preference with
    | some p => .ok (⟨p⟩, T.take o.encoding p)
    | none => .error "bitset::flip"

/-- The register of an operand that is read. -/
def use (T : Registers) (o rd : RegisterOperand) : Except String (RegisterOperand × Registers) :=
  match T.map o.encoding with
  | some p => .ok (⟨p⟩, T)
  | none => T.allocate o (if rd.isPhysical then rd else noneReg)

end Registers

/-! ## The scan -/

/-- The tables, the index of the linked instruction in the code from here on, and the register
that it copies. -/
structure Alloc where
  table : Registers
  linked : Option ℕ
  linkReg : RegisterOperand

/-- Give the instruction the register of the variable it defines, which is given back unless the
instruction reads it as well. Without one the instruction is killed. -/
def Instruction.define (i : Instruction) (T : Registers) : Instruction × Registers :=
  match T.map i.rd.encoding with
  | some p =>
    ({ i with rd := ⟨p⟩ },
      if i.isRdUse || i.rd.isFunctional then T else T.forget i.rd.encoding p)
  | none => (i.kill, T)

/-- Kill a move to itself or to `ZERO`. -/
def Instruction.killMv (i : Instruction) : Instruction :=
  if i.isMv && i.rd.isPhysical && i.mvSource.isPhysical && (i.rd = i.mvSource || i.rd = ZERO) then
    i.kill
  else i

/-- An operand that is read. -/
def useOperand (T : Registers) (o rd : RegisterOperand) :
    Except String (RegisterOperand × Registers) :=
  if o = noneReg ∨ o.isPhysical then .ok (o, T) else T.use o rd

/-- `allocate_instruction` of the linked instruction. -/
def allocateLinked (i : Instruction) (T : Registers) : Except String (Instruction × Registers) := do
  let (i, T) := i.define T
  if i.isDead then return (i, T)
  let (rs1, T) ← useOperand T i.rs1 i.rd
  let (rs2, T) ← useOperand T i.rs2 i.rd
  return ({ i with rs1, rs2 }.killMv, T)

/-- The linked instruction, if it is one of the instructions after this one. -/
def Alloc.pending (A : Alloc) (code : List Instruction) : Option (ℕ × Instruction) :=
  match A.linked with
  | some (k + 1) => code[k]?.map (k, ·)
  | _ => none

/-- On a conflict the linked instruction stays a move. -/
def resolve (conflict : Bool) (code : List Instruction) (A : Alloc) :
    Except String (List Instruction × Alloc) :=
  match conflict, A.pending code with
  | true, some (k, m) => do
    let (m, T) ← allocateLinked m A.table
    return (code.set k m, { A with table := T, linked := none })
  | _, _ => .ok (code, A)

/-- The definition of the link register defines what the linked instruction would copy it to. -/
def inlineLink (i : Instruction) (code : List Instruction) (A : Alloc) :
    Instruction × List Instruction × Alloc :=
  match A.pending code with
  | some (k, m) =>
    if A.linkReg = i.rd then
      ({ i with rd := m.rd }, code.set k m.kill,
        { A with
          linked := none
          table :=
            match A.table.map i.rd.encoding with
            | some p => A.table.forget i.rd.encoding p
            | none => A.table })
    else (i, code, A)
  | none => (i, code, A)

/-- The instruction can wait for the definition of what it copies. -/
def Instruction.links (i : Instruction) (T : Registers) : Bool :=
  i.isMv && i.rd ≠ ZERO && i.mvSource.isVirtual && (T.map i.mvSource.encoding).isNone

/-- The register the instruction writes. -/
def allocateDef (i : Instruction) (code : List Instruction) (A : Alloc) :
    Except String (Instruction × List Instruction × Alloc) :=
  if i.rd = noneReg then .ok (i, code, A)
  else if i.rd.isPhysical then
    .ok (i, code,
      if (i.rd = A0 ∨ i.rd = A1) ∧ !i.isRdUse then
        { A with table := A.table.release i.rd.encoding }
      else A)
  else
    let (i, code, A) := inlineLink i code A
    if i.links A.table then do
      let (code, A) ← resolve true code A
      return (i, code, { A with linked := some 0, linkReg := i.mvSource })
    else do
      let (code, A) ← resolve ((A.pending code).any (·.2.rd = i.rd)) code A
      let (i, T) := i.define A.table
      return (i, code, { A with table := T })

/-- A register the instruction reads. -/
def allocateUse (o rd : RegisterOperand) (code : List Instruction) (A : Alloc) :
    Except String (RegisterOperand × List Instruction × Alloc) :=
  if o = noneReg ∨ o.isPhysical then .ok (o, code, A)
  else do
    let (code, A) ←
      resolve ((A.pending code).any fun l => o = A.linkReg || o = l.2.rd) code A
    let (o, T) ← A.table.use o rd
    return (o, code, { A with table := T })

/-- `allocate_instruction`. -/
def allocateInstruction (i : Instruction) (code : List Instruction) (A : Alloc) :
    Except String (Instruction × List Instruction × Alloc) := do
  let (code, A) ← resolve i.isControlFlow code A
  let (i, code, A) ← allocateDef i code A
  if i.isDead then return (i, code, A)
  let (rs1, code, A) ← allocateUse i.rs1 i.rd code A
  let (rs2, code, A) ← allocateUse i.rs2 i.rd code A
  return ({ i with rs1, rs2 }.killMv, code, A)

/-- One more instruction before the code. -/
def Alloc.shift (A : Alloc) : Alloc :=
  { A with linked := A.linked.map (· + 1) }

/-- `InstructionBuilder::allocate`. -/
def allocateFrom (start : List Instruction × Alloc) :
    List Instruction → Except String (List Instruction × Alloc)
  | [] => .ok start
  | i :: code => do
    let (code, A) ← allocateFrom start code
    let (i, code, A) ← allocateInstruction i code A.shift
    return (i :: code, A)

def allocate (code : List Instruction) : Except String (List Instruction) := do
  let (code, _) ← allocateFrom ([], ⟨.start, none, noneReg⟩) code
  return code

end Arancini.Riscv.Builder
