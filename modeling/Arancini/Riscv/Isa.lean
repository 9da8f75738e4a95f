import Arancini.Riscv.Encoding

/-!
# The instruction set

The instructions of RV64IMAC that the back-end emits, as the architecture documents them : what the
processor makes of a word of 32 bits and of a compressed one. The formats of the immediates are
those of the assembler, read over all their bits.
-/

namespace Arancini.Riscv.Asm

/-! ## Instructions -/

inductive Opcode
  | lui | auipc | jal | jalr | branch | load | store | opImm | op | miscMem | system | op32
  | opImm32 | amo
  deriving DecidableEq

inductive Cond
  | beq | bne | blt | bge | bltu | bgeu
  deriving DecidableEq

inductive Load
  | lb | lh | lw | ld | lbu | lhu | lwu
  deriving DecidableEq

inductive Store
  | sb | sh | sw | sd
  deriving DecidableEq

inductive ImmOp
  | addi | slti | sltiu | xori | ori | andi
  deriving DecidableEq

inductive ShiftOp
  | slli | srli | srai
  deriving DecidableEq

inductive Op
  | add | sub | sll | slt | sltu | xor | srl | sra | or | and
  | mul | mulh | mulhsu | mulhu | div | divu | rem | remu
  deriving DecidableEq

inductive Op32
  | addw | subw | sllw | srlw | sraw | mulw | divw | divuw | remw | remuw
  deriving DecidableEq

inductive Amo
  | lr | sc | swap | add | xor | and | or | min | max | minu | maxu
  deriving DecidableEq

inductive AmoWidth
  | word | double
  deriving DecidableEq

/-- The bits of the memory order. -/
structure Order where
  acquire : Bool
  release : Bool
  deriving DecidableEq

inductive Insn
  | lui (rd : Register) (imm : ℤ)
  | auipc (rd : Register) (imm : ℤ)
  | jal (rd : Register) (offset : ℤ)
  | jalr (rd rs1 : Register) (offset : ℤ)
  | branch (c : Cond) (rs1 rs2 : Register) (offset : ℤ)
  | load (l : Load) (rd rs1 : Register) (offset : ℤ)
  | store (s : Store) (rs2 rs1 : Register) (offset : ℤ)
  | opImm (o : ImmOp) (rd rs1 : Register) (imm : ℤ)
  | shift (o : ShiftOp) (rd rs1 : Register) (shamt : ℤ)
  | addiw (rd rs1 : Register) (imm : ℤ)
  | shiftw (o : ShiftOp) (rd rs1 : Register) (shamt : ℤ)
  | op (o : Op) (rd rs1 rs2 : Register)
  | opw (o : Op32) (rd rs1 rs2 : Register)
  | amo (a : Amo) (width : AmoWidth) (order : Order) (rd rs2 rs1 : Register)
  | fencei
  | ecall
  | ebreak
  | trap
  deriving DecidableEq

/-! ## Codes -/

section Codes

/-- The member of a family that has the code. -/
def ofCode {α β : Type} [DecidableEq β] (family : List α) (code : α → β) (b : β) : Option α :=
  family.find? fun a => code a = b

def Opcode.code : Opcode → BitVec 7
  | lui => 0b0110111
  | auipc => 0b0010111
  | jal => 0b1101111
  | jalr => 0b1100111
  | branch => 0b1100011
  | load => 0b0000011
  | store => 0b0100011
  | opImm => 0b0010011
  | op => 0b0110011
  | miscMem => 0b0001111
  | system => 0b1110011
  | op32 => 0b0111011
  | opImm32 => 0b0011011
  | amo => 0b0101111

def Opcode.ofCode : BitVec 7 → Option Opcode :=
  Asm.ofCode [lui, auipc, jal, jalr, branch, load, store, opImm, op, miscMem, system, op32,
    opImm32, amo] code

@[simp] theorem Opcode.ofCode_code (o : Opcode) : ofCode o.code = some o := by
  cases o <;> rfl

def Cond.funct3 : Cond → BitVec 3
  | beq => 0b000
  | bne => 0b001
  | blt => 0b100
  | bge => 0b101
  | bltu => 0b110
  | bgeu => 0b111

def Cond.ofFunct3 : BitVec 3 → Option Cond :=
  ofCode [beq, bne, blt, bge, bltu, bgeu] funct3

@[simp] theorem Cond.ofFunct3_funct3 (c : Cond) : ofFunct3 c.funct3 = some c := by
  cases c <;> rfl

def Load.funct3 : Load → BitVec 3
  | lb => 0b000
  | lh => 0b001
  | lw => 0b010
  | lbu => 0b100
  | lhu => 0b101
  | lwu => 0b110
  | ld => 0b011

def Load.ofFunct3 : BitVec 3 → Option Load :=
  ofCode [lb, lh, lw, ld, lbu, lhu, lwu] funct3

@[simp] theorem Load.ofFunct3_funct3 (l : Load) : ofFunct3 l.funct3 = some l := by
  cases l <;> rfl

def Store.funct3 : Store → BitVec 3
  | sb => 0b000
  | sh => 0b001
  | sw => 0b010
  | sd => 0b011

def Store.ofFunct3 : BitVec 3 → Option Store :=
  ofCode [sb, sh, sw, sd] funct3

@[simp] theorem Store.ofFunct3_funct3 (s : Store) : ofFunct3 s.funct3 = some s := by
  cases s <;> rfl

def ImmOp.funct3 : ImmOp → BitVec 3
  | addi => 0b000
  | slti => 0b010
  | sltiu => 0b011
  | xori => 0b100
  | ori => 0b110
  | andi => 0b111

def ImmOp.ofFunct3 : BitVec 3 → Option ImmOp :=
  ofCode [addi, slti, sltiu, xori, ori, andi] funct3

@[simp] theorem ImmOp.ofFunct3_funct3 (o : ImmOp) : ofFunct3 o.funct3 = some o := by
  cases o <;> rfl

/-- `SLLI` or `SRI`. -/
def ShiftOp.funct3 : ShiftOp → BitVec 3
  | slli => 0b001
  | srli | srai => 0b101

/-- `F7_0` or `SRA`. -/
def ShiftOp.funct7 : ShiftOp → BitVec 7
  | slli | srli => 0
  | srai => 0b0100000

/-- In front of a shift amount of 64 bits there are six bits. -/
def ShiftOp.ofCodes (funct6 : BitVec 6) (funct3 : BitVec 3) : Option ShiftOp :=
  ofCode [slli, srli, srai] (fun o => (part 1 6 o.funct7, o.funct3)) (funct6, funct3)

def ShiftOp.ofCodes32 (funct7 : BitVec 7) (funct3 : BitVec 3) : Option ShiftOp :=
  ofCode [slli, srli, srai] (fun o => (o.funct7, o.funct3)) (funct7, funct3)

def Op.funct3 : Op → BitVec 3
  | add | sub | mul => 0b000
  | sll | mulh => 0b001
  | slt | mulhsu => 0b010
  | sltu | mulhu => 0b011
  | xor | div => 0b100
  | srl | sra | divu => 0b101
  | or | rem => 0b110
  | and | remu => 0b111

/-- `F7_0`, `SUB` or `MULDIV`. -/
def Op.funct7 : Op → BitVec 7
  | add | sll | slt | sltu | xor | srl | or | and => 0
  | sub | sra => 0b0100000
  | mul | mulh | mulhsu | mulhu | div | divu | rem | remu => 0b0000001

def Op.ofCodes (funct7 : BitVec 7) (funct3 : BitVec 3) : Option Op :=
  ofCode [add, sub, sll, slt, sltu, xor, srl, sra, or, and, mul, mulh, mulhsu, mulhu, div, divu,
    rem, remu] (fun o => (o.funct7, o.funct3)) (funct7, funct3)

@[simp] theorem Op.ofCodes_codes (o : Op) : ofCodes o.funct7 o.funct3 = some o := by
  cases o <;> rfl

def Op32.funct3 : Op32 → BitVec 3
  | addw | subw | mulw => 0b000
  | sllw => 0b001
  | divw => 0b100
  | srlw | sraw | divuw => 0b101
  | remw => 0b110
  | remuw => 0b111

def Op32.funct7 : Op32 → BitVec 7
  | addw | sllw | srlw => 0
  | subw | sraw => 0b0100000
  | mulw | divw | divuw | remw | remuw => 0b0000001

def Op32.ofCodes (funct7 : BitVec 7) (funct3 : BitVec 3) : Option Op32 :=
  ofCode [addw, subw, sllw, srlw, sraw, mulw, divw, divuw, remw, remuw]
    (fun o => (o.funct7, o.funct3)) (funct7, funct3)

@[simp] theorem Op32.ofCodes_codes (o : Op32) : ofCodes o.funct7 o.funct3 = some o := by
  cases o <;> rfl

def Amo.funct5 : Amo → BitVec 5
  | lr => 0b00010
  | sc => 0b00011
  | swap => 0b00001
  | add => 0b00000
  | xor => 0b00100
  | and => 0b01100
  | or => 0b01000
  | min => 0b10000
  | max => 0b10100
  | minu => 0b11000
  | maxu => 0b11100

def Amo.ofFunct5 : BitVec 5 → Option Amo :=
  ofCode [lr, sc, swap, add, xor, and, or, min, max, minu, maxu] funct5

@[simp] theorem Amo.ofFunct5_funct5 (a : Amo) : ofFunct5 a.funct5 = some a := by
  cases a <;> rfl

/-- `WIDTH32` or `WIDTH64`. -/
def AmoWidth.funct3 : AmoWidth → BitVec 3
  | word => 0b010
  | double => 0b011

def AmoWidth.ofFunct3 : BitVec 3 → Option AmoWidth :=
  ofCode [word, double] funct3

@[simp] theorem AmoWidth.ofFunct3_funct3 (a : AmoWidth) : ofFunct3 a.funct3 = some a := by
  cases a <;> rfl

end Codes

/-! ## Decoding -/

/-- One instruction in the code. -/
inductive Parcel
  | full (w : BitVec 32)
  | compressed (h : BitVec 16)
  deriving DecidableEq

def Parcel.length : Parcel → ℕ
  | full _ => 4
  | compressed _ => 2

/-- An instruction of 32 bits. -/
def decodeFull (w : BitVec 32) : Option Insn := do
  let rd := part 7 5 w
  let rs1 := part 15 5 w
  let rs2 := part 20 5 w
  let funct3 := part 12 3 w
  let funct7 := part 25 7 w
  match Opcode.ofCode (part 0 7 w) with
  | none => if w = 0 then return .trap else none
  | some .lui => return .lui rd (utypeImm.read w)
  | some .auipc => return .auipc rd (utypeImm.read w)
  | some .jal => return .jal rd (jtypeImm.read w)
  | some .jalr => if funct3 = 0 then return .jalr rd rs1 (itypeImm.read w) else none
  | some .branch => return .branch (← Cond.ofFunct3 funct3) rs1 rs2 (btypeImm.read w)
  | some .load => return .load (← Load.ofFunct3 funct3) rd rs1 (itypeImm.read w)
  | some .store => return .store (← Store.ofFunct3 funct3) rs2 rs1 (stypeImm.read w)
  | some .opImm =>
    match ImmOp.ofFunct3 funct3 with
    | some o => return .opImm o rd rs1 (itypeImm.read w)
    | none => return .shift (← ShiftOp.ofCodes (part 26 6 w) funct3) rd rs1 (part 20 6 w).toNat
  | some .opImm32 =>
    if funct3 = 0 then return .addiw rd rs1 (itypeImm.read w)
    else return .shiftw (← ShiftOp.ofCodes32 funct7 funct3) rd rs1 rs2.toNat
  | some .op => return .op (← Op.ofCodes funct7 funct3) rd rs1 rs2
  | some .op32 => return .opw (← Op32.ofCodes funct7 funct3) rd rs1 rs2
  | some .amo =>
    let order := ⟨part 26 1 w = 1, part 25 1 w = 1⟩
    return .amo (← Amo.ofFunct5 (part 27 5 w)) (← AmoWidth.ofFunct3 funct3) order rd rs2 rs1
  | some .miscMem => if funct3 = 1 then return .fencei else none
  | some .system =>
    if funct3 = 0 ∧ rd = 0 ∧ rs1 = 0 then
      match itypeImm.read w with
      | 0 => return .ecall
      | 1 => return .ebreak
      | _ => none
    else none

/-- One of the eight registers that three bits can name. -/
def primeReg (r : BitVec 3) : Register :=
  0b01#2 ++ r

/-- The operations of two registers in `C_RR`. -/
def decodeRR (wide : BitVec 1) (funct2 : BitVec 2) (rd rs2 : Register) : Option Insn :=
  match wide, funct2 with
  | 0, 0 => some (.op .sub rd rd rs2)
  | 0, 1 => some (.op .xor rd rd rs2)
  | 0, 2 => some (.op .or rd rd rs2)
  | 0, 3 => some (.op .and rd rd rs2)
  | 1, 0 => some (.opw .subw rd rd rs2)
  | 1, 1 => some (.opw .addw rd rd rs2)
  | _, _ => none

/-- A compressed instruction, as the one it stands for. -/
def decodeCompressed (h : BitVec 16) : Option Insn :=
  let rd := part 7 5 h
  let rs2 := part 2 5 h
  let rdp := primeReg (part 2 3 h)
  let rs1p := primeReg (part 7 3 h)
  let shamt := (collect 6 ciImm.pieces h).toNat
  match part 0 2 h, part 13 3 h with
  | 0, 0 =>
    if h = 0 then some .trap
    else if ci4spnImm.read h = 0 then none
    else some (.opImm .addi rdp SP (ci4spnImm.read h))
  | 0, 2 => some (.load .lw rdp rs1p (cmem4Imm.read h))
  | 0, 3 => some (.load .ld rdp rs1p (cmem8Imm.read h))
  | 0, 6 => some (.store .sw rdp rs1p (cmem4Imm.read h))
  | 0, 7 => some (.store .sd rdp rs1p (cmem8Imm.read h))
  | 1, 0 => some (.opImm .addi rd rd (ciImm.read h))
  | 1, 1 => if rd = 0 then none else some (.addiw rd rd (ciImm.read h))
  | 1, 2 => some (.opImm .addi rd ZERO (ciImm.read h))
  | 1, 3 =>
    if rd = SP then
      if ci16Imm.read h = 0 then none else some (.opImm .addi SP SP (ci16Imm.read h))
    else if cuImm.read h = 0 then none
    else some (.lui rd (cuImm.read h))
  | 1, 4 =>
    match part 10 2 h with
    | 0 => if shamt = 0 then none else some (.shift .srli rs1p rs1p shamt)
    | 1 => if shamt = 0 then none else some (.shift .srai rs1p rs1p shamt)
    | 2 => some (.opImm .andi rs1p rs1p (ciImm.read h))
    | _ => decodeRR (part 12 1 h) (part 5 2 h) rs1p rdp
  | 1, 5 => some (.jal ZERO (cjImm.read h))
  | 1, 6 => some (.branch .beq rs1p ZERO (cbImm.read h))
  | 1, 7 => some (.branch .bne rs1p ZERO (cbImm.read h))
  | 2, 0 => if shamt = 0 then none else some (.shift .slli rd rd shamt)
  | 2, 2 => if rd = 0 then none else some (.load .lw rd SP (cspload4Imm.read h))
  | 2, 3 => if rd = 0 then none else some (.load .ld rd SP (cspload8Imm.read h))
  | 2, 4 =>
    if part 12 1 h = 0 then
      if rs2 ≠ 0 then some (.op .add rd ZERO rs2)
      else if rd ≠ 0 then some (.jalr ZERO rd 0)
      else none
    else if rs2 ≠ 0 then some (.op .add rd rd rs2)
    else if rd ≠ 0 then some (.jalr RA rd 0)
    else some .ebreak
  | 2, 6 => some (.store .sw rs2 SP (cspstore4Imm.read h))
  | 2, 7 => some (.store .sd rs2 SP (cspstore8Imm.read h))
  | _, _ => none

theorem decodeFull_zero : decodeFull 0 = some .trap :=
  rfl

theorem decodeCompressed_zero : decodeCompressed 0 = some .trap :=
  rfl

def Parcel.decode : Parcel → Option Insn
  | full w => decodeFull w
  | compressed h => decodeCompressed h

end Arancini.Riscv.Asm
