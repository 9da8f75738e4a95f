import Arancini.Riscv.Isa

/-!
# The words of the assembler

The functions of the assembler of the RISC-V back-end that put a word of 32 bits or a compressed
instruction together. Behind each of them the word is read field by field (`emitIType_reads` and the
like), and so decoded.
-/

namespace Arancini.Riscv.Asm

variable {n : ℕ} {imm : ℤ} {rd rs1 rs2 : Register} {funct3 : BitVec 3} {o : Opcode} {w : BitVec 32}

/-! ## Full instructions -/

def emitRType (funct7 : BitVec 7) (rs2 rs1 : Register) (funct3 : BitVec 3) (rd : Register)
    (opcode : Opcode) : BitVec 32 :=
  put 32 25 funct7 ||| put 32 20 rs2 ||| put 32 15 rs1 ||| put 32 12 funct3 ||| put 32 7 rd |||
    put 32 0 opcode.code

theorem emitRType_reads (funct7 : BitVec 7) (rs2 rs1 : Register) (funct3 : BitVec 3)
    (rd : Register) (o : Opcode) :
    part 0 7 (emitRType funct7 rs2 rs1 funct3 rd o) = o.code ∧
      part 7 5 (emitRType funct7 rs2 rs1 funct3 rd o) = rd ∧
      part 12 3 (emitRType funct7 rs2 rs1 funct3 rd o) = funct3 ∧
      part 15 5 (emitRType funct7 rs2 rs1 funct3 rd o) = rs1 ∧
      part 20 5 (emitRType funct7 rs2 rs1 funct3 rd o) = rs2 ∧
      part 25 7 (emitRType funct7 rs2 rs1 funct3 rd o) = funct7 := by
  refine ⟨?_, ?_, ?_, ?_, ?_, ?_⟩
  all_goals simp (disch := decide) [emitRType]

theorem decodeFull_op (a : Op) :
    decodeFull (emitRType a.funct7 rs2 rs1 a.funct3 rd .op) = some (.op a rd rs1 rs2) := by
  obtain ⟨hop, hrd, hf, hrs1, hrs2, hf'⟩ := emitRType_reads a.funct7 rs2 rs1 a.funct3 rd .op
  rw [decodeFull, hop, Opcode.ofCode_code, hrd, hf, hrs1, hrs2, hf', Op.ofCodes_codes]
  rfl

theorem decodeFull_opw (a : Op32) :
    decodeFull (emitRType a.funct7 rs2 rs1 a.funct3 rd .op32) = some (.opw a rd rs1 rs2) := by
  obtain ⟨hop, hrd, hf, hrs1, hrs2, hf'⟩ := emitRType_reads a.funct7 rs2 rs1 a.funct3 rd .op32
  rw [decodeFull, hop, Opcode.ofCode_code, hrd, hf, hrs1, hrs2, hf', Op32.ofCodes_codes]
  rfl

/-- `EmitRType` with a shift amount, of which the highest bit is under the lowest one of
`funct7`. -/
def emitShift (funct7 : BitVec 7) (shamt : ℤ) (rs1 : Register) (funct3 : BitVec 3) (rd : Register)
    (opcode : Opcode) : BitVec 32 :=
  put 32 25 funct7 ||| put 32 20 (BitVec.ofInt 6 shamt) ||| put 32 15 rs1 ||| put 32 12 funct3 |||
    put 32 7 rd ||| put 32 0 opcode.code

theorem emitShift_reads (funct7 : BitVec 7) (shamt : ℤ) (rs1 : Register) (funct3 : BitVec 3)
    (rd : Register) (o : Opcode) :
    part 0 7 (emitShift funct7 shamt rs1 funct3 rd o) = o.code ∧
      part 7 5 (emitShift funct7 shamt rs1 funct3 rd o) = rd ∧
      part 12 3 (emitShift funct7 shamt rs1 funct3 rd o) = funct3 ∧
      part 15 5 (emitShift funct7 shamt rs1 funct3 rd o) = rs1 := by
  refine ⟨?_, ?_, ?_, ?_⟩
  all_goals simp (disch := decide) [emitShift]

section Shift

variable {shamt : ℤ} (h : 0 < shamt ∧ shamt < 64)
include h

theorem toNat_shamt : (BitVec.ofInt 6 shamt).toNat = shamt.toNat := by
  rw [BitVec.toNat_ofInt, show ((2 ^ 6 : ℕ) : ℤ) = 64 from rfl]
  omega

theorem decodeFull_shift (a : ShiftOp) :
    decodeFull (emitShift a.funct7 shamt rs1 a.funct3 rd .opImm) =
      some (.shift a rd rs1 shamt) := by
  have himm : ImmOp.ofFunct3 a.funct3 = none := by
    cases a <;> rfl
  have hshift : ShiftOp.ofCodes (part 1 6 a.funct7) a.funct3 = some a := by
    cases a <;> rfl
  have hlow : part 20 6 (put 32 25 a.funct7) = 0#6 := by
    cases a <;> decide
  have hcast : ((shamt.toNat : ℕ) : ℤ) = shamt := Int.toNat_of_nonneg (by omega)
  obtain ⟨hop, hrd, hf, hrs1⟩ := emitShift_reads a.funct7 shamt rs1 a.funct3 rd .opImm
  have hcodes : part 26 6 (emitShift a.funct7 shamt rs1 a.funct3 rd .opImm) =
      part 1 6 a.funct7 := by
    simp (disch := decide) [emitShift, part_put_of_le]
  have hamount : part 20 6 (emitShift a.funct7 shamt rs1 a.funct3 rd .opImm) =
      BitVec.ofInt 6 shamt := by
    simp (disch := decide) [emitShift, hlow]
  rw [decodeFull, hop, Opcode.ofCode_code, hrd, hf, hrs1, himm, hcodes, hshift, hamount,
    toNat_shamt h, hcast]
  rfl

theorem decodeFull_shiftw (a : ShiftOp) :
    decodeFull (emitShift a.funct7 shamt rs1 a.funct3 rd .opImm32) =
      if shamt < 32 then some (.shiftw a rd rs1 shamt) else none := by
  have hf : a.funct3 ≠ 0#3 := by
    cases a <;> decide
  have hlow : part 20 5 (put 32 25 a.funct7) = 0#5 := by
    cases a <;> decide
  have hhigh : part 5 7 (BitVec.ofInt 6 shamt) = if shamt < 32 then 0#7 else 1#7 := by
    refine BitVec.eq_of_toNat_eq ?_
    rw [toNat_part, toNat_shamt h, apply_ite BitVec.toNat]
    change _ = if shamt < 32 then 0 else 1
    split_ifs <;> omega
  have hcast : shamt < 32 → ((part 0 5 (BitVec.ofInt 6 shamt)).toNat : ℤ) = shamt := by
    intro hlt
    rw [toNat_part, toNat_shamt h]
    omega
  obtain ⟨hop, hrd, hreads, hrs1⟩ := emitShift_reads a.funct7 shamt rs1 a.funct3 rd .opImm32
  have hcodes : part 25 7 (emitShift a.funct7 shamt rs1 a.funct3 rd .opImm32) =
      a.funct7 ||| part 5 7 (BitVec.ofInt 6 shamt) := by
    simp (disch := decide) [emitShift, part_put_of_le]
  have hamount : part 20 5 (emitShift a.funct7 shamt rs1 a.funct3 rd .opImm32) =
      part 0 5 (BitVec.ofInt 6 shamt) := by
    simp (disch := decide) [emitShift, part_put_of_le, hlow]
  rw [decodeFull, hop, Opcode.ofCode_code, hrd, hreads, hrs1, hcodes, hamount, hhigh]
  refine (if_neg hf).trans ?_
  split_ifs with hlt
  · have hshift : ShiftOp.ofCodes32 (a.funct7 ||| 0#7) a.funct3 = some a := by
      cases a <;> rfl
    rw [hshift, hcast hlt]
    rfl
  · have hshift : ShiftOp.ofCodes32 (a.funct7 ||| 1#7) a.funct3 = none := by
      cases a <;> rfl
    rw [hshift]
    rfl

end Shift

/-- A register is not among the pieces of the immediate. -/
theorem ImmFormat.read_or_put {f : ImmFormat} {w : BitVec n} {k pos : ℕ} (x : BitVec k)
    (h : ∀ p ∈ f.pieces, p.pos + p.len ≤ pos ∨ pos + k ≤ p.pos) :
    f.read (w ||| put n pos x) = f.read w := by
  rw [read, read, collect_or_put h]

theorem ImmFormat.part_encode {f : ImmFormat} {w : BitVec n} {pos len : ℕ}
    (hw : f.encode n imm = .ok w) (h : ∀ p ∈ f.pieces, pos + len ≤ p.pos ∨ p.pos + p.len ≤ pos) :
    part pos len w = 0#(len) := by
  obtain ⟨-, rfl⟩ := encode_eq_ok.mp hw
  exact part_scatter_of_clear h _

/-- `EmitRType` with a memory order. -/
def emitAmo (funct5 : BitVec 5) (order : Order) (rs2 rs1 : Register) (funct3 : BitVec 3)
    (rd : Register) (opcode : Opcode) : BitVec 32 :=
  emitRType (funct5 ++ BitVec.ofBool order.acquire ++ BitVec.ofBool order.release) rs2 rs1 funct3
    rd opcode

theorem decodeFull_amo (a : Amo) (width : AmoWidth) (order : Order) :
    decodeFull (emitAmo a.funct5 order rs2 rs1 width.funct3 rd .amo) =
      some (.amo a width order rd rs2 rs1) := by
  obtain ⟨acquire, release⟩ := order
  have hcode : part 2 5 (a.funct5 ++ BitVec.ofBool acquire ++ BitVec.ofBool release) = a.funct5 ∧
      part 1 1 (a.funct5 ++ BitVec.ofBool acquire ++ BitVec.ofBool release) =
        BitVec.ofBool acquire ∧
      part 0 1 (a.funct5 ++ BitVec.ofBool acquire ++ BitVec.ofBool release) =
        BitVec.ofBool release := by
    cases a <;> cases acquire <;> cases release <;> decide
  generalize hv : a.funct5 ++ BitVec.ofBool acquire ++ BitVec.ofBool release = v at hcode
  obtain ⟨hop, hrd, hf, hrs1, hrs2, -⟩ := emitRType_reads v rs2 rs1 width.funct3 rd .amo
  have hfields : part 27 5 (emitRType v rs2 rs1 width.funct3 rd .amo) = part 2 5 v ∧
      part 26 1 (emitRType v rs2 rs1 width.funct3 rd .amo) = part 1 1 v ∧
      part 25 1 (emitRType v rs2 rs1 width.funct3 rd .amo) = part 0 1 v := by
    refine ⟨?_, ?_, ?_⟩
    all_goals simp (disch := decide) [emitRType, part_put_of_le]
  rw [emitAmo, hv, decodeFull, hop, Opcode.ofCode_code, hrd, hf, hrs1, hrs2, hfields.1,
    hfields.2.1, hfields.2.2, hcode.1, hcode.2.1, hcode.2.2, Amo.ofFunct5_funct5,
    AmoWidth.ofFunct3_funct3]
  cases acquire <;> cases release <;> rfl

def emitIType (imm : ℤ) (rs1 : Register) (funct3 : BitVec 3) (rd : Register) (opcode : Opcode) :
    Except String (BitVec 32) := do
  return (← itypeImm.encode 32 imm) ||| put 32 15 rs1 ||| put 32 12 funct3 ||| put 32 7 rd |||
    put 32 0 opcode.code

theorem itype_sound : itypeImm.Sound 32 := ImmFormat.sound_full (by simp [fullFormats])

theorem emitIType_reads (h : emitIType imm rs1 funct3 rd o = .ok w) :
    part 0 7 w = o.code ∧ part 7 5 w = rd ∧ part 12 3 w = funct3 ∧ part 15 5 w = rs1 ∧
      itypeImm.read w = imm := by
  simp only [emitIType, bind_eq_ok, pure_eq_ok] at h
  obtain ⟨e, he, rfl⟩ := h
  refine ⟨?_, ?_, ?_, ?_, ?_⟩
  iterate 4
    simp (disch := decide) [ImmFormat.part_encode he]
  simp (disch := decide) only [ImmFormat.read_or_put]
  exact (ImmFormat.decode_encode itype_sound he).2

theorem decodeFull_jalr (h : emitIType imm rs1 0 rd .jalr = .ok w) :
    decodeFull w = some (.jalr rd rs1 imm) := by
  obtain ⟨hop, hrd, hf, hrs1, himm⟩ := emitIType_reads h
  rw [decodeFull, hop, Opcode.ofCode_code, hrd, hf, hrs1, himm]
  rfl

theorem decodeFull_load {l : Load} (h : emitIType imm rs1 l.funct3 rd .load = .ok w) :
    decodeFull w = some (.load l rd rs1 imm) := by
  obtain ⟨hop, hrd, hf, hrs1, himm⟩ := emitIType_reads h
  rw [decodeFull, hop, Opcode.ofCode_code, hrd, hf, Load.ofFunct3_funct3, hrs1, himm]
  rfl

theorem decodeFull_opImm {a : ImmOp} (h : emitIType imm rs1 a.funct3 rd .opImm = .ok w) :
    decodeFull w = some (.opImm a rd rs1 imm) := by
  obtain ⟨hop, hrd, hf, hrs1, himm⟩ := emitIType_reads h
  rw [decodeFull, hop, Opcode.ofCode_code, hrd, hf, ImmOp.ofFunct3_funct3, hrs1, himm]
  rfl

theorem decodeFull_addiw (h : emitIType imm rs1 0 rd .opImm32 = .ok w) :
    decodeFull w = some (.addiw rd rs1 imm) := by
  obtain ⟨hop, hrd, hf, hrs1, himm⟩ := emitIType_reads h
  rw [decodeFull, hop, Opcode.ofCode_code, hrd, hf, hrs1, himm]
  rfl

theorem decodeFull_fencei (h : emitIType 0 ZERO 1 ZERO .miscMem = .ok w) :
    decodeFull w = some .fencei := by
  obtain ⟨hop, -, hf, -, -⟩ := emitIType_reads h
  rw [decodeFull, hop, Opcode.ofCode_code, hf]
  rfl

theorem decodeFull_ecall (h : emitIType 0 ZERO 0 ZERO .system = .ok w) :
    decodeFull w = some .ecall := by
  obtain ⟨hop, hrd, hf, hrs1, himm⟩ := emitIType_reads h
  rw [decodeFull, hop, Opcode.ofCode_code, hrd, hf, hrs1, himm]
  rfl

theorem decodeFull_ebreak (h : emitIType 1 ZERO 0 ZERO .system = .ok w) :
    decodeFull w = some .ebreak := by
  obtain ⟨hop, hrd, hf, hrs1, himm⟩ := emitIType_reads h
  rw [decodeFull, hop, Opcode.ofCode_code, hrd, hf, hrs1, himm]
  rfl

def emitSType (imm : ℤ) (rs2 rs1 : Register) (funct3 : BitVec 3) (opcode : Opcode) :
    Except String (BitVec 32) := do
  return (← stypeImm.encode 32 imm) ||| put 32 20 rs2 ||| put 32 15 rs1 ||| put 32 12 funct3 |||
    put 32 0 opcode.code

theorem stype_sound : stypeImm.Sound 32 := ImmFormat.sound_full (by simp [fullFormats])

theorem emitSType_reads (h : emitSType imm rs2 rs1 funct3 o = .ok w) :
    part 0 7 w = o.code ∧ part 12 3 w = funct3 ∧ part 15 5 w = rs1 ∧ part 20 5 w = rs2 ∧
      stypeImm.read w = imm := by
  simp only [emitSType, bind_eq_ok, pure_eq_ok] at h
  obtain ⟨e, he, rfl⟩ := h
  refine ⟨?_, ?_, ?_, ?_, ?_⟩
  iterate 4
    simp (disch := decide) [ImmFormat.part_encode he]
  simp (disch := decide) only [ImmFormat.read_or_put]
  exact (ImmFormat.decode_encode stype_sound he).2

theorem decodeFull_store {k : Store} (h : emitSType imm rs2 rs1 k.funct3 .store = .ok w) :
    decodeFull w = some (.store k rs2 rs1 imm) := by
  obtain ⟨hop, hf, hrs1, hrs2, himm⟩ := emitSType_reads h
  rw [decodeFull, hop, Opcode.ofCode_code, hf, Store.ofFunct3_funct3, hrs1, hrs2, himm]
  rfl

def emitBType (imm : ℤ) (rs2 rs1 : Register) (funct3 : BitVec 3) (opcode : Opcode) :
    Except String (BitVec 32) := do
  return (← btypeImm.encode 32 imm) ||| put 32 20 rs2 ||| put 32 15 rs1 ||| put 32 12 funct3 |||
    put 32 0 opcode.code

theorem btype_sound : btypeImm.Sound 32 := ImmFormat.sound_full (by simp [fullFormats])

theorem emitBType_reads (h : emitBType imm rs2 rs1 funct3 o = .ok w) :
    part 0 7 w = o.code ∧ part 12 3 w = funct3 ∧ part 15 5 w = rs1 ∧ part 20 5 w = rs2 ∧
      btypeImm.read w = imm := by
  simp only [emitBType, bind_eq_ok, pure_eq_ok] at h
  obtain ⟨e, he, rfl⟩ := h
  refine ⟨?_, ?_, ?_, ?_, ?_⟩
  iterate 4
    simp (disch := decide) [ImmFormat.part_encode he]
  simp (disch := decide) only [ImmFormat.read_or_put]
  exact (ImmFormat.decode_encode btype_sound he).2

theorem decodeFull_branch {c : Cond} (h : emitBType imm rs2 rs1 c.funct3 .branch = .ok w) :
    decodeFull w = some (.branch c rs1 rs2 imm) := by
  obtain ⟨hop, hf, hrs1, hrs2, himm⟩ := emitBType_reads h
  rw [decodeFull, hop, Opcode.ofCode_code, hf, Cond.ofFunct3_funct3, hrs1, hrs2, himm]
  rfl

def emitUType (imm : ℤ) (rd : Register) (opcode : Opcode) : Except String (BitVec 32) := do
  return (← utypeImm.encode 32 imm) ||| put 32 7 rd ||| put 32 0 opcode.code

theorem utype_sound : utypeImm.Sound 32 := ImmFormat.sound_full (by simp [fullFormats])

theorem emitUType_reads (h : emitUType imm rd o = .ok w) :
    part 0 7 w = o.code ∧ part 7 5 w = rd ∧ utypeImm.read w = imm := by
  simp only [emitUType, bind_eq_ok, pure_eq_ok] at h
  obtain ⟨e, he, rfl⟩ := h
  refine ⟨?_, ?_, ?_⟩
  iterate 2
    simp (disch := decide) [ImmFormat.part_encode he]
  simp (disch := decide) only [ImmFormat.read_or_put]
  exact (ImmFormat.decode_encode utype_sound he).2

theorem decodeFull_lui (h : emitUType imm rd .lui = .ok w) : decodeFull w = some (.lui rd imm) := by
  obtain ⟨hop, hrd, himm⟩ := emitUType_reads h
  rw [decodeFull, hop, Opcode.ofCode_code, hrd, himm]
  rfl

theorem decodeFull_auipc (h : emitUType imm rd .auipc = .ok w) :
    decodeFull w = some (.auipc rd imm) := by
  obtain ⟨hop, hrd, himm⟩ := emitUType_reads h
  rw [decodeFull, hop, Opcode.ofCode_code, hrd, himm]
  rfl

def emitJType (imm : ℤ) (rd : Register) (opcode : Opcode) : Except String (BitVec 32) := do
  return (← jtypeImm.encode 32 imm) ||| put 32 7 rd ||| put 32 0 opcode.code

theorem jtype_sound : jtypeImm.Sound 32 := ImmFormat.sound_full (by simp [fullFormats])

theorem emitJType_reads (h : emitJType imm rd o = .ok w) :
    part 0 7 w = o.code ∧ part 7 5 w = rd ∧ jtypeImm.read w = imm := by
  simp only [emitJType, bind_eq_ok, pure_eq_ok] at h
  obtain ⟨e, he, rfl⟩ := h
  refine ⟨?_, ?_, ?_⟩
  iterate 2
    simp (disch := decide) [ImmFormat.part_encode he]
  simp (disch := decide) only [ImmFormat.read_or_put]
  exact (ImmFormat.decode_encode jtype_sound he).2

theorem decodeFull_jal (h : emitJType imm rd .jal = .ok w) : decodeFull w = some (.jal rd imm) := by
  obtain ⟨hop, hrd, himm⟩ := emitJType_reads h
  rw [decodeFull, hop, Opcode.ofCode_code, hrd, himm]
  rfl

/-! ## Compressed instructions -/

def C_ADDI4SPN : BitVec 16 := 0b0000000000000000
def C_LW : BitVec 16 := 0b0100000000000000
def C_LD : BitVec 16 := 0b0110000000000000
def C_SW : BitVec 16 := 0b1100000000000000
def C_SD : BitVec 16 := 0b1110000000000000
def C_ADDI : BitVec 16 := 0b0000000000000001
def C_ADDIW : BitVec 16 := 0b0010000000000001
def C_LI : BitVec 16 := 0b0100000000000001
def C_ADDI16SP : BitVec 16 := 0b0110000000000001
def C_LUI : BitVec 16 := 0b0110000000000001
def C_SRLI : BitVec 16 := 0b1000000000000001
def C_SRAI : BitVec 16 := 0b1000010000000001
def C_ANDI : BitVec 16 := 0b1000100000000001
def C_SUB : BitVec 16 := 0b1000110000000001
def C_XOR : BitVec 16 := 0b1000110000100001
def C_OR : BitVec 16 := 0b1000110001000001
def C_AND : BitVec 16 := 0b1000110001100001
def C_SUBW : BitVec 16 := 0b1001110000000001
def C_ADDW : BitVec 16 := 0b1001110000100001
def C_J : BitVec 16 := 0b1010000000000001
def C_BEQZ : BitVec 16 := 0b1100000000000001
def C_BNEZ : BitVec 16 := 0b1110000000000001
def C_SLLI : BitVec 16 := 0b0000000000000010
def C_LWSP : BitVec 16 := 0b0100000000000010
def C_LDSP : BitVec 16 := 0b0110000000000010
def C_JR : BitVec 16 := 0b1000000000000010
def C_MV : BitVec 16 := 0b1000000000000010
def C_JALR : BitVec 16 := 0b1001000000000010
def C_ADD : BitVec 16 := 0b1001000000000010
def C_SWSP : BitVec 16 := 0b1100000000000010
def C_SDSP : BitVec 16 := 0b1110000000000010
def C_NOP : BitVec 16 := 0b0000000000000001
def C_EBREAK : BitVec 16 := 0b1001000000000010

/-- `IsCRdp`, `IsCRs1p` and `IsCRs2p`. -/
def isPrime (r : Register) : Bool :=
  8 ≤ r.toNat && r.toNat < 16

theorem primeReg_part {r : Register} (h : isPrime r = true) : primeReg (part 0 3 r) = r := by
  revert r
  decide

/-- `EncodeCRdp`, `EncodeCRs1p` and `EncodeCRs2p`. -/
def encodePrime (pos : ℕ) (name : String) (r : Register) : Except String (BitVec 16) := do
  assert (isPrime r) name
  return put 16 pos (part 0 3 r)

theorem encodePrime_eq_ok {pos : ℕ} {name : String} {r : Register} {h : BitVec 16} :
    encodePrime pos name r = .ok h ↔ isPrime r = true ∧ put 16 pos (part 0 3 r) = h := by
  simp [encodePrime]

/-- The immediate behind an opcode that has zeros for it. -/
theorem ImmFormat.read_or_encode {f : ImmFormat} (hf : f ∈ compressedFormats) {b e : BitVec 16}
    (he : f.encode 16 imm = .ok e) (hb : collect f.top f.pieces b = 0) :
    f.read (b ||| e) = imm := by
  have hread := (decode_encode (sound_compressed hf) he).2
  rw [read] at hread ⊢
  rw [collect] at hb
  rw [collect, scatter_or, hb]
  simpa using hread

variable {h : BitVec 16}

/-- The fields of an instruction with a register at bit 7 and the immediate around it. -/
theorem reads_of_encode {f : ImmFormat} (hf : f ∈ compressedFormats) {base e : BitVec 16}
    (hclear : ∀ p ∈ f.pieces, 2 ≤ p.pos ∧ p.pos + p.len ≤ 13 ∧ (p.pos + p.len ≤ 7 ∨ 12 ≤ p.pos))
    (hbase : collect f.top f.pieces base = 0 ∧ part 7 5 base = 0#5)
    (he : f.encode 16 imm = .ok e) (hh : base ||| put 16 7 rd ||| e = h) :
    part 0 2 h = part 0 2 base ∧ part 13 3 h = part 13 3 base ∧ part 7 5 h = rd ∧
      f.read h = imm := by
  subst hh
  have hop : part 0 2 e = 0#2 :=
    ImmFormat.part_encode he fun p hp => .inl (hclear p hp).1
  have hfunct : part 13 3 e = 0#3 :=
    ImmFormat.part_encode he fun p hp => .inr (hclear p hp).2.1
  have hrd : part 7 5 e = 0#5 :=
    ImmFormat.part_encode he fun p hp => (hclear p hp).2.2.symm
  refine ⟨by simp [hop], by simp [hfunct], by simp [hrd, hbase.2], ?_⟩
  refine ImmFormat.read_or_encode hf he ?_
  rw [collect_or_put fun p hp => (hclear p hp).2.2, hbase.1]

/-- The fields of an instruction with one of the eight registers at bit 7. -/
theorem reads_of_encode_prime {f : ImmFormat} (hf : f ∈ compressedFormats) {base e : BitVec 16}
    {r : BitVec 3}
    (hclear : ∀ p ∈ f.pieces, 2 ≤ p.pos ∧ p.pos + p.len ≤ 13 ∧ (p.pos + p.len ≤ 7 ∨ 10 ≤ p.pos))
    (hbase : collect f.top f.pieces base = 0 ∧ part 7 3 base = 0#3)
    (he : f.encode 16 imm = .ok e) (hh : base ||| put 16 7 r ||| e = h) :
    part 0 2 h = part 0 2 base ∧ part 13 3 h = part 13 3 base ∧ part 7 3 h = r ∧
      f.read h = imm := by
  subst hh
  have hop : part 0 2 e = 0#2 :=
    ImmFormat.part_encode he fun p hp => .inl (hclear p hp).1
  have hfunct : part 13 3 e = 0#3 :=
    ImmFormat.part_encode he fun p hp => .inr (hclear p hp).2.1
  have hr : part 7 3 e = 0#3 :=
    ImmFormat.part_encode he fun p hp => (hclear p hp).2.2.symm
  refine ⟨by simp [hop], by simp [hfunct], by simp [hr, hbase.2], ?_⟩
  refine ImmFormat.read_or_encode hf he ?_
  rw [collect_or_put fun p hp => (hclear p hp).2.2, hbase.1]

/-- The fields of an instruction with a register at bit 7 and another one at bit 2. -/
theorem reads_of_registers {k : ℕ} {base : BitVec 16} {r r' : BitVec k}
    (hclear : part 7 k base = 0#(k) ∧ part 2 k base = 0#(k))
    (hh : base ||| put 16 7 r ||| put 16 2 r' = h) (hk : k ≤ 5) :
    part 0 2 h = part 0 2 base ∧ part 13 3 h = part 13 3 base ∧ part 12 1 h = part 12 1 base ∧
      part 7 k h = r ∧ part 2 k h = r' := by
  have hfields : 7 + k ≤ 12 ∧ 2 + k ≤ 7 ∧ 7 + k ≤ 16 ∧ 2 + k ≤ 16 := by omega
  subst hh
  refine ⟨?_, ?_, ?_, ?_, ?_⟩
  all_goals simp (disch := omega) [hclear]

/-- `c_lw`, `c_ld`, `c_sw` and `c_sd`. -/
def cmemory (base : BitVec 16) (format : ImmFormat) (r rs1 : Register) (offset : ℤ) :
    Except String (BitVec 16) := do
  let r ← encodePrime 2 "IsCRdp(r)" r
  let rs1 ← encodePrime 7 "IsCRs1p(r)" rs1
  return base ||| r ||| rs1 ||| (← format.encode 16 offset)

/-- The fields of a load or a store over two of the eight registers. -/
theorem cmemory_reads {format : ImmFormat} (hformat : format = cmem4Imm ∨ format = cmem8Imm)
    {base : BitVec 16} (hbase : part 2 3 base = 0#3 ∧ part 7 3 base = 0#3 ∧
      collect format.top format.pieces base = 0) (he : cmemory base format rd rs1 imm = .ok h) :
    part 0 2 h = part 0 2 base ∧ part 13 3 h = part 13 3 base ∧ primeReg (part 2 3 h) = rd ∧
      primeReg (part 7 3 h) = rs1 ∧ format.read h = imm := by
  simp only [cmemory, bind_eq_ok, pure_eq_ok, encodePrime_eq_ok] at he
  obtain ⟨r, ⟨hrd, rfl⟩, r', ⟨hrs1, rfl⟩, e, he, rfl⟩ := he
  have hread : format.read (base ||| put 16 2 (part 0 3 rd) ||| put 16 7 (part 0 3 rs1) ||| e) =
      imm := by
    refine ImmFormat.read_or_encode (by rcases hformat with rfl | rfl <;> simp [compressedFormats])
      he ?_
    rw [collect_or_put, collect_or_put, hbase.2.2]
    all_goals rcases hformat with rfl | rfl <;> decide
  refine ⟨?_, ?_, ?_, ?_, hread⟩
  all_goals
    rcases hformat with rfl | rfl <;>
      simp (disch := decide) [ImmFormat.part_encode he, hbase, primeReg_part hrd,
        primeReg_part hrs1]

/-- `c_lwsp` and `c_ldsp`. -/
def cloadsp (base : BitVec 16) (format : ImmFormat) (rd : Register) (offset : ℤ) :
    Except String (BitVec 16) := do
  assert (rd != ZERO) "rd != ZERO"
  return base ||| put 16 7 rd ||| (← format.encode 16 offset)

theorem decode_clwsp (he : cloadsp C_LWSP cspload4Imm rd imm = .ok h) :
    decodeCompressed h = some (.load .lw rd SP imm) := by
  simp only [cloadsp, bind_eq_ok, assert_eq_ok, exists_const, pure_eq_ok, bne_iff_ne, ZERO] at he
  obtain ⟨hrd, e, he, hh⟩ := he
  obtain ⟨hop, hf, hr, himm⟩ :=
    reads_of_encode (by simp [compressedFormats]) (by decide) (by decide) he hh
  rw [decodeCompressed, hop, hf, hr, himm]
  exact if_neg hrd

theorem decode_cldsp (he : cloadsp C_LDSP cspload8Imm rd imm = .ok h) :
    decodeCompressed h = some (.load .ld rd SP imm) := by
  simp only [cloadsp, bind_eq_ok, assert_eq_ok, exists_const, pure_eq_ok, bne_iff_ne, ZERO] at he
  obtain ⟨hrd, e, he, hh⟩ := he
  obtain ⟨hop, hf, hr, himm⟩ :=
    reads_of_encode (by simp [compressedFormats]) (by decide) (by decide) he hh
  rw [decodeCompressed, hop, hf, hr, himm]
  exact if_neg hrd

/-- `c_swsp` and `c_sdsp`. -/
def cstoresp (base : BitVec 16) (format : ImmFormat) (rs2 : Register) (offset : ℤ) :
    Except String (BitVec 16) := do
  return base ||| put 16 2 rs2 ||| (← format.encode 16 offset)

/-- The fields of a store relative to the stack pointer. -/
theorem cstoresp_reads {format : ImmFormat}
    (hformat : format = cspstore4Imm ∨ format = cspstore8Imm) {base : BitVec 16}
    (hbase : part 2 5 base = 0#5 ∧ collect format.top format.pieces base = 0)
    (he : cstoresp base format rs2 imm = .ok h) :
    part 0 2 h = part 0 2 base ∧ part 13 3 h = part 13 3 base ∧ part 2 5 h = rs2 ∧
      format.read h = imm := by
  simp only [cstoresp, bind_eq_ok, pure_eq_ok] at he
  obtain ⟨e, he, rfl⟩ := he
  have hread : format.read (base ||| put 16 2 rs2 ||| e) = imm := by
    refine ImmFormat.read_or_encode (by rcases hformat with rfl | rfl <;> simp [compressedFormats])
      he ?_
    rw [collect_or_put, hbase.2]
    rcases hformat with rfl | rfl <;> decide
  refine ⟨?_, ?_, ?_, hread⟩
  all_goals
    rcases hformat with rfl | rfl <;> simp (disch := decide) [ImmFormat.part_encode he, hbase]

/-- `c_addi`, `c_addiw` and `c_addi16sp`, where the register is the source too. -/
def caddi (base : BitVec 16) (format : ImmFormat) (rd : Register) (imm : ℤ) :
    Except String (BitVec 16) := do
  return base ||| put 16 7 rd ||| (← format.encode 16 imm)

theorem decode_caddi (he : caddi C_ADDI ciImm rd imm = .ok h) :
    decodeCompressed h = some (.opImm .addi rd rd imm) := by
  simp only [caddi, bind_eq_ok, pure_eq_ok] at he
  obtain ⟨e, he, hh⟩ := he
  obtain ⟨hop, hf, hrd, himm⟩ :=
    reads_of_encode (by simp [compressedFormats]) (by decide) (by decide) he hh
  rw [decodeCompressed, hop, hf, hrd, himm]
  rfl

theorem decode_caddiw (he : caddi C_ADDIW ciImm rd imm = .ok h) (hrd : rd ≠ ZERO) :
    decodeCompressed h = some (.addiw rd rd imm) := by
  simp only [caddi, bind_eq_ok, pure_eq_ok] at he
  obtain ⟨e, he, hh⟩ := he
  obtain ⟨hop, hf, hr, himm⟩ :=
    reads_of_encode (by simp [compressedFormats]) (by decide) (by decide) he hh
  rw [decodeCompressed, hop, hf, hr, himm]
  exact if_neg hrd

theorem decode_caddi16sp (he : caddi C_ADDI16SP ci16Imm SP imm = .ok h) (hne : imm ≠ 0) :
    decodeCompressed h = some (.opImm .addi SP SP imm) := by
  simp only [caddi, bind_eq_ok, pure_eq_ok] at he
  obtain ⟨e, he, hh⟩ := he
  obtain ⟨hop, hf, hr, himm⟩ :=
    reads_of_encode (by simp [compressedFormats]) (by decide) (by decide) he hh
  rw [decodeCompressed, hop, hf, hr, himm]
  exact (if_pos rfl).trans (if_neg hne)

def cli (rd : Register) (imm : ℤ) : Except String (BitVec 16) := do
  assert (rd != ZERO) "rd != ZERO"
  return C_LI ||| put 16 7 rd ||| (← ciImm.encode 16 imm)

theorem decode_cli (he : cli rd imm = .ok h) :
    decodeCompressed h = some (.opImm .addi rd ZERO imm) := by
  simp only [cli, bind_eq_ok, assert_eq_ok, exists_const, pure_eq_ok] at he
  obtain ⟨-, e, he, hh⟩ := he
  obtain ⟨hop, hf, hr, himm⟩ :=
    reads_of_encode (by simp [compressedFormats]) (by decide) (by decide) he hh
  rw [decodeCompressed, hop, hf, hr, himm]
  rfl

def clui (rd : Register) (imm : ℤ) : Except String (BitVec 16) := do
  assert (rd != ZERO) "rd != ZERO"
  assert (rd != SP) "rd != SP"
  return C_LUI ||| put 16 7 rd ||| (← cuImm.encode 16 imm)

theorem decode_clui (he : clui rd imm = .ok h) :
    decodeCompressed h = if imm = 0 then none else some (.lui rd imm) := by
  simp only [clui, bind_eq_ok, assert_eq_ok, exists_const, pure_eq_ok, bne_iff_ne] at he
  obtain ⟨-, hsp, e, he, hh⟩ := he
  obtain ⟨hop, hf, hr, himm⟩ :=
    reads_of_encode (by simp [compressedFormats]) (by decide) (by decide) he hh
  rw [decodeCompressed, hop, hf, hr, himm]
  exact if_neg hsp

def caddi4spn (rdp : Register) (imm : ℤ) : Except String (BitVec 16) := do
  assert (imm != 0) "imm != 0"
  let rdp ← encodePrime 2 "IsCRdp(r)" rdp
  return C_ADDI4SPN ||| rdp ||| (← ci4spnImm.encode 16 imm)

theorem decode_caddi4spn (he : caddi4spn rd imm = .ok h) :
    decodeCompressed h = some (.opImm .addi rd SP imm) := by
  simp only [caddi4spn, bind_eq_ok, pure_eq_ok, encodePrime_eq_ok, assert_eq_ok, exists_const,
    bne_iff_ne] at he
  obtain ⟨hne, r, ⟨hprime, rfl⟩, e, he, hh⟩ := he
  have himm : ci4spnImm.read h = imm := by
    rw [← hh]
    refine ImmFormat.read_or_encode (by simp [compressedFormats]) he ?_
    rw [collect_or_put (by decide)]
    decide
  have hr : part 2 3 h = part 0 3 rd := by
    subst hh
    simp (disch := decide) [ImmFormat.part_encode he, C_ADDI4SPN]
  have hop : part 0 2 h = 0#2 := by
    subst hh
    simp (disch := decide) [ImmFormat.part_encode he, C_ADDI4SPN]
  have hf : part 13 3 h = 0#3 := by
    subst hh
    simp (disch := decide) [ImmFormat.part_encode he, C_ADDI4SPN]
  have hword : h ≠ 0#16 := by
    rintro rfl
    exact hne (himm.symm.trans (by decide))
  rw [decodeCompressed, hop, hf, hr, himm, primeReg_part hprime]
  exact (if_neg hword).trans (if_neg hne)

def cslli (rd : Register) (imm : ℤ) : Except String (BitVec 16) := do
  let imm := (signExtend 6 (BitVec.ofInt 32 imm)).toInt
  return C_SLLI ||| put 16 7 rd ||| (← ciImm.encode 16 imm)

/-- `c_srli`, `c_srai`. -/
def cshift (base : BitVec 16) (rd : Register) (imm : ℤ) : Except String (BitVec 16) := do
  let imm := (signExtend 6 (BitVec.ofInt 32 imm)).toInt
  let rd ← encodePrime 7 "IsCRs1p(r)" rd
  return base ||| rd ||| (← ciImm.encode 16 imm)

section Shamt

variable {shamt : ℤ}

/-- A shift amount is in the bits of a signed immediate. -/
theorem toNat_collect_shamt (hs : 0 < shamt ∧ shamt < 64)
    (hread : ciImm.read h = (signExtend 6 (BitVec.ofInt 32 shamt)).toInt) :
    ((collect 6 ciImm.pieces h).toNat : ℤ) = shamt := by
  have hcollect : collect 6 ciImm.pieces h = BitVec.ofInt 6 shamt := by
    refine BitVec.eq_of_toInt_eq ?_
    rw [ImmFormat.toInt_signExtend (by decide) (by decide), setWidth_ofInt (by decide)] at hread
    exact hread
  rw [hcollect, toNat_shamt hs, Int.toNat_of_nonneg (by omega)]

theorem decode_cslli (hs : 0 < shamt ∧ shamt < 64) (he : cslli rd shamt = .ok h) :
    decodeCompressed h = some (.shift .slli rd rd shamt) := by
  simp only [cslli, bind_eq_ok, pure_eq_ok] at he
  obtain ⟨e, he, hh⟩ := he
  obtain ⟨hop, hf, hr, himm⟩ :=
    reads_of_encode (by simp [compressedFormats]) (by decide) (by decide) he hh
  have hamount := toNat_collect_shamt hs himm
  have hne : (collect 6 ciImm.pieces h).toNat ≠ 0 := by omega
  rw [decodeCompressed, hop, hf, hr, ← hamount]
  exact if_neg hne

theorem decode_cshift {o : ShiftOp} {base : BitVec 16}
    (hbase : base = C_SRLI ∧ o = .srli ∨ base = C_SRAI ∧ o = .srai) (hs : 0 < shamt ∧ shamt < 64)
    (he : cshift base rd shamt = .ok h) :
    decodeCompressed h = some (.shift o rd rd shamt) := by
  simp only [cshift, bind_eq_ok, pure_eq_ok, encodePrime_eq_ok] at he
  obtain ⟨r, ⟨hprime, rfl⟩, e, he, hh⟩ := he
  have hkind : part 10 2 h = part 10 2 base := by
    subst hh
    simp (disch := decide) [ImmFormat.part_encode he]
  rcases hbase with ⟨rfl, rfl⟩ | ⟨rfl, rfl⟩
  all_goals
    obtain ⟨hop, hf, hr, himm⟩ :=
      reads_of_encode_prime (by simp [compressedFormats]) (by decide) (by decide) he hh
    have hamount := toNat_collect_shamt hs himm
    have hne : (collect 6 ciImm.pieces h).toNat ≠ 0 := by omega
    rw [decodeCompressed, hop, hf, hr, hkind, primeReg_part hprime, ← hamount]
    exact if_neg hne

end Shamt

def candi (rd : Register) (imm : ℤ) : Except String (BitVec 16) := do
  let rd ← encodePrime 7 "IsCRs1p(r)" rd
  return C_ANDI ||| rd ||| (← ciImm.encode 16 imm)

theorem decode_candi (he : candi rd imm = .ok h) :
    decodeCompressed h = some (.opImm .andi rd rd imm) := by
  simp only [candi, bind_eq_ok, pure_eq_ok, encodePrime_eq_ok] at he
  obtain ⟨r, ⟨hprime, rfl⟩, e, he, hh⟩ := he
  have hkind : part 10 2 h = part 10 2 C_ANDI := by
    subst hh
    simp (disch := decide) [ImmFormat.part_encode he]
  obtain ⟨hop, hf, hr, himm⟩ :=
    reads_of_encode_prime (by simp [compressedFormats]) (by decide) (by decide) he hh
  rw [decodeCompressed, hop, hf, hr, hkind, himm, primeReg_part hprime]
  rfl

def cmv (rd rs2 : Register) : Except String (BitVec 16) := do
  assert (rd != ZERO) "rd != ZERO"
  assert (rs2 != ZERO) "rs2 != ZERO"
  return C_MV ||| put 16 7 rd ||| put 16 2 rs2

theorem decode_cmv (he : cmv rd rs2 = .ok h) :
    decodeCompressed h = some (.op .add rd ZERO rs2) := by
  simp only [cmv, bind_eq_ok, pure_eq_ok, assert_eq_ok, exists_const, bne_iff_ne, ZERO] at he
  obtain ⟨-, hrs2, hh⟩ := he
  obtain ⟨hop, hf, hbit, hr, hr'⟩ := reads_of_registers (by decide) hh (by decide)
  rw [decodeCompressed, hop, hf, hbit, hr, hr']
  exact if_pos hrs2

def cadd (rd rs2 : Register) : Except String (BitVec 16) := do
  assert (rd != ZERO) "rd != ZERO"
  assert (rs2 != ZERO) "rs2 != ZERO"
  return C_ADD ||| put 16 7 rd ||| put 16 2 rs2

theorem decode_cadd (he : cadd rd rs2 = .ok h) :
    decodeCompressed h = some (.op .add rd rd rs2) := by
  simp only [cadd, bind_eq_ok, pure_eq_ok, assert_eq_ok, exists_const, bne_iff_ne, ZERO] at he
  obtain ⟨-, hrs2, hh⟩ := he
  obtain ⟨hop, hf, hbit, hr, hr'⟩ := reads_of_registers (by decide) hh (by decide)
  rw [decodeCompressed, hop, hf, hbit, hr, hr']
  exact if_pos hrs2

/-- `c_and`, `c_or`, `c_xor`, `c_sub`, `c_addw` and `c_subw`. -/
def crr (base : BitVec 16) (rs1 rs2 : Register) : Except String (BitVec 16) := do
  let rs1 ← encodePrime 7 "IsCRs1p(r)" rs1
  let rs2 ← encodePrime 2 "IsCRs2p(r)" rs2
  return base ||| rs1 ||| rs2

/-- The operations of two registers. -/
theorem decode_crr {base : BitVec 16} {i : Insn}
    (hbase : base = C_SUB ∧ i = .op .sub rs1 rs1 rs2 ∨ base = C_XOR ∧ i = .op .xor rs1 rs1 rs2 ∨
      base = C_OR ∧ i = .op .or rs1 rs1 rs2 ∨ base = C_AND ∧ i = .op .and rs1 rs1 rs2 ∨
      base = C_SUBW ∧ i = .opw .subw rs1 rs1 rs2 ∨ base = C_ADDW ∧ i = .opw .addw rs1 rs1 rs2)
    (he : crr base rs1 rs2 = .ok h) : decodeCompressed h = some i := by
  simp only [crr, bind_eq_ok, pure_eq_ok, encodePrime_eq_ok] at he
  obtain ⟨r, ⟨hrs1, rfl⟩, r', ⟨hrs2, rfl⟩, hh⟩ := he
  have hclear : part 7 3 base = 0#3 ∧ part 2 3 base = 0#3 := by
    rcases hbase with h | h | h | h | h | h <;> rw [h.1] <;> decide
  obtain ⟨hop, hf, hbit, hr, hr'⟩ := reads_of_registers hclear hh (by decide)
  have hkind : part 10 2 h = part 10 2 base := by
    rw [← hh]
    simp (disch := decide)
  have hfunct : part 5 2 h = part 5 2 base := by
    rw [← hh]
    simp (disch := decide)
  rw [decodeCompressed, hop, hf, hkind, hbit, hfunct, hr, hr', primeReg_part hrs1,
    primeReg_part hrs2]
  rcases hbase with ⟨rfl, rfl⟩ | ⟨rfl, rfl⟩ | ⟨rfl, rfl⟩ | ⟨rfl, rfl⟩ | ⟨rfl, rfl⟩ | ⟨rfl, rfl⟩ <;>
    rfl

/-- `c_beqz` and `c_bnez`. -/
def cbranch (base : BitVec 16) (rs1p : Register) (offset : ℤ) : Except String (BitVec 16) := do
  let rs1p ← encodePrime 7 "IsCRs1p(r)" rs1p
  return base ||| rs1p ||| (← cbImm.encode 16 offset)

theorem decode_cbeqz (he : cbranch C_BEQZ rs1 imm = .ok h) :
    decodeCompressed h = some (.branch .beq rs1 ZERO imm) := by
  simp only [cbranch, bind_eq_ok, pure_eq_ok, encodePrime_eq_ok] at he
  obtain ⟨r, ⟨hprime, rfl⟩, e, he, hh⟩ := he
  obtain ⟨hop, hf, hr, himm⟩ :=
    reads_of_encode_prime (by simp [compressedFormats]) (by decide) (by decide) he hh
  rw [decodeCompressed, hop, hf, hr, himm, primeReg_part hprime]
  rfl

theorem decode_cbnez (he : cbranch C_BNEZ rs1 imm = .ok h) :
    decodeCompressed h = some (.branch .bne rs1 ZERO imm) := by
  simp only [cbranch, bind_eq_ok, pure_eq_ok, encodePrime_eq_ok] at he
  obtain ⟨r, ⟨hprime, rfl⟩, e, he, hh⟩ := he
  obtain ⟨hop, hf, hr, himm⟩ :=
    reads_of_encode_prime (by simp [compressedFormats]) (by decide) (by decide) he hh
  rw [decodeCompressed, hop, hf, hr, himm, primeReg_part hprime]
  rfl

def cj (offset : ℤ) : Except String (BitVec 16) := do
  return C_J ||| (← cjImm.encode 16 offset)

theorem decode_cj (he : cj imm = .ok h) : decodeCompressed h = some (.jal ZERO imm) := by
  simp only [cj, bind_eq_ok, pure_eq_ok] at he
  obtain ⟨e, he, hh⟩ := he
  have himm : cjImm.read h = imm := by
    rw [← hh]
    exact ImmFormat.read_or_encode (by simp [compressedFormats]) he (by decide)
  have hop : part 0 2 h = 1#2 := by
    subst hh
    simp (disch := decide) [ImmFormat.part_encode he, C_J]
  have hf : part 13 3 h = 5#3 := by
    subst hh
    simp (disch := decide) [ImmFormat.part_encode he, C_J]
  rw [decodeCompressed, hop, hf, himm]
  rfl

def cjr (rs1 : Register) : Except String (BitVec 16) := do
  assert (rs1 != ZERO) "rs1 != ZERO"
  return C_JR ||| put 16 7 rs1 ||| put 16 2 ZERO

theorem decode_cjr (he : cjr rs1 = .ok h) : decodeCompressed h = some (.jalr ZERO rs1 0) := by
  simp only [cjr, bind_eq_ok, pure_eq_ok, assert_eq_ok, exists_const, bne_iff_ne, ZERO] at he
  obtain ⟨hrs1, hh⟩ := he
  obtain ⟨hop, hf, hbit, hr, hr'⟩ := reads_of_registers (by decide) hh (by decide)
  rw [decodeCompressed, hop, hf, hbit, hr, hr']
  exact if_pos hrs1

def cjalr (rs1 : Register) : BitVec 16 :=
  C_JALR ||| put 16 7 rs1 ||| put 16 2 ZERO

theorem decode_cjalr (hrs1 : rs1 ≠ ZERO) :
    decodeCompressed (cjalr rs1) = some (.jalr RA rs1 0) := by
  obtain ⟨hop, hf, hbit, hr, hr'⟩ :=
    reads_of_registers (by decide) (cjalr.eq_1 rs1).symm (by decide)
  rw [decodeCompressed, hop, hf, hbit, hr, hr']
  exact if_pos hrs1

end Arancini.Riscv.Asm
