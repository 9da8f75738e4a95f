import Arancini.Riscv.Isa

/-!
# The processor

What the instructions do to the registers, the program counter and memory, which is left open
(`MemOps`). Two instructions can have the same effect (`Insn.SameEffect`).
-/

namespace Arancini.Riscv.Asm

/-- The processor, over some memory. -/
structure Cpu (M : Type) where
  regs : Register → BitVec 64
  pc : BitVec 64
  mem : M

/-- What memory does. -/
structure MemOps (M : Type) where
  load : Load → BitVec 64 → M → BitVec 64
  store : Store → BitVec 64 → BitVec 64 → M → M
  amo : Amo → AmoWidth → Order → BitVec 64 → BitVec 64 → M → BitVec 64 × M

namespace Cpu

variable {M : Type}

def get (s : Cpu M) (r : Register) : BitVec 64 :=
  if r = 0 then 0 else s.regs r

def set (s : Cpu M) (r : Register) (v : BitVec 64) : Cpu M :=
  if r = 0 then s else { s with regs := Function.update s.regs r v }

end Cpu

def Cond.holds (a b : BitVec 64) : Cond → Bool
  | beq => a == b
  | bne => a != b
  | blt => a.slt b
  | bge => !a.slt b
  | bltu => a.ult b
  | bgeu => !a.ult b

def ofBit (b : Bool) : BitVec 64 :=
  if b then 1 else 0

def ImmOp.value (a imm : BitVec 64) : ImmOp → BitVec 64
  | addi => a + imm
  | slti => ofBit (a.slt imm)
  | sltiu => ofBit (a.ult imm)
  | xori => a ^^^ imm
  | ori => a ||| imm
  | andi => a &&& imm

def ShiftOp.value {w : ℕ} (a : BitVec w) (shamt : ℕ) : ShiftOp → BitVec w
  | slli => a <<< shamt
  | srli => a >>> shamt
  | srai => a.sshiftRight shamt

/-- The upper half of a product of two numbers of 65 bits. -/
def mulHigh (a b : BitVec 65) : BitVec 64 :=
  ((a.signExtend 130 * b.signExtend 130) >>> 64).setWidth 64

/-- Division and remainder, with the results the architecture gives for a divisor of zero. -/
def divide {w : ℕ} (signed : Bool) (a b : BitVec w) : BitVec w :=
  if b = 0 then BitVec.allOnes w else if signed then a.sdiv b else a / b

def remainderOf {w : ℕ} (signed : Bool) (a b : BitVec w) : BitVec w :=
  if b = 0 then a else if signed then a.srem b else a % b

def Op.value (a b : BitVec 64) : Op → BitVec 64
  | add => a + b
  | sub => a - b
  | sll => a <<< (b.setWidth 6).toNat
  | slt => ofBit (a.slt b)
  | sltu => ofBit (a.ult b)
  | xor => a ^^^ b
  | srl => a >>> (b.setWidth 6).toNat
  | sra => a.sshiftRight (b.setWidth 6).toNat
  | or => a ||| b
  | and => a &&& b
  | mul => a * b
  | mulh => mulHigh (a.signExtend 65) (b.signExtend 65)
  | mulhsu => mulHigh (a.signExtend 65) (b.setWidth 65)
  | mulhu => mulHigh (a.setWidth 65) (b.setWidth 65)
  | div => divide true a b
  | divu => divide false a b
  | rem => remainderOf true a b
  | remu => remainderOf false a b

def Op32.value (a b : BitVec 32) : Op32 → BitVec 32
  | addw => a + b
  | subw => a - b
  | sllw => a <<< (b.setWidth 5).toNat
  | srlw => a >>> (b.setWidth 5).toNat
  | sraw => a.sshiftRight (b.setWidth 5).toNat
  | mulw => a * b
  | divw => divide true a b
  | divuw => divide false a b
  | remw => remainderOf true a b
  | remuw => remainderOf false a b

/-- The word in a register, and one put into a register. -/
def word (a : BitVec 64) : BitVec 32 :=
  a.setWidth 32

/-- The next state, or the instruction that leaves to the environment. -/
inductive Outcome (M : Type)
  | next (s : Cpu M)
  | leaves (i : Insn) (s : Cpu M)

namespace Insn

variable {M : Type}

/-- An instruction of `len` bytes. -/
def exec (mem : MemOps M) (len : ℕ) (s : Cpu M) : Insn → Outcome M
  | lui rd imm => advance (s.set rd (BitVec.ofInt 64 imm))
  | auipc rd imm => advance (s.set rd (s.pc + BitVec.ofInt 64 imm))
  | jal rd offset => goTo (s.set rd (s.pc + len)) (s.pc + BitVec.ofInt 64 offset)
  | jalr rd rs1 offset =>
    goTo (s.set rd (s.pc + len)) ((s.get rs1 + BitVec.ofInt 64 offset) &&& ~~~1)
  | branch c rs1 rs2 offset =>
    if c.holds (s.get rs1) (s.get rs2) then goTo s (s.pc + BitVec.ofInt 64 offset) else advance s
  | load l rd rs1 offset =>
    advance (s.set rd (mem.load l (s.get rs1 + BitVec.ofInt 64 offset) s.mem))
  | store k rs2 rs1 offset =>
    advance { s with mem := mem.store k (s.get rs1 + BitVec.ofInt 64 offset) (s.get rs2) s.mem }
  | opImm o rd rs1 imm => advance (s.set rd (o.value (s.get rs1) (BitVec.ofInt 64 imm)))
  | shift o rd rs1 shamt => advance (s.set rd (o.value (s.get rs1) shamt.toNat))
  | addiw rd rs1 imm =>
    advance (s.set rd ((word (s.get rs1 + BitVec.ofInt 64 imm)).signExtend 64))
  | shiftw o rd rs1 shamt =>
    advance (s.set rd ((o.value (word (s.get rs1)) shamt.toNat).signExtend 64))
  | op o rd rs1 rs2 => advance (s.set rd (o.value (s.get rs1) (s.get rs2)))
  | opw o rd rs1 rs2 =>
    advance (s.set rd ((o.value (word (s.get rs1)) (word (s.get rs2))).signExtend 64))
  | amo a width order rd rs2 rs1 =>
    let (v, m) := mem.amo a width order (s.get rs1) (s.get rs2) s.mem
    advance ({ s with mem := m }.set rd v)
  | fencei => advance s
  | ecall => .leaves ecall s
  | ebreak => .leaves ebreak s
  | trap => .leaves trap s
where
  advance (s' : Cpu M) : Outcome M := .next { s' with pc := s.pc + len }
  goTo (s' : Cpu M) (pc : BitVec 64) : Outcome M := .next { s' with pc := pc }

/-- Two instructions of one length do the same, from every state and over every memory. -/
def SameEffect (len : ℕ) (i j : Insn) : Prop :=
  ∀ (M : Type) (mem : MemOps M) (s : Cpu M), i.exec mem len s = j.exec mem len s

variable {len : ℕ} {imm : ℤ} (a b c : Register)

theorem get_zero (s : Cpu M) : s.get ZERO = 0 :=
  if_pos rfl

theorem advance_congr {x y : BitVec 64} (s : Cpu M) (h : x = y) :
    exec.advance len s (s.set a x) = exec.advance len s (s.set a y) := by
  rw [h]

/-- A copy is a sum with zero. -/
theorem sameEffect_mv : (op .add a ZERO b).SameEffect len (opImm .addi a b 0) := by
  intro M mem s
  refine advance_congr a s ?_
  calc s.get ZERO + s.get b = s.get b := by simp [get_zero]
    _ = s.get b + BitVec.ofInt 64 0 := (BitVec.add_zero _).symm

theorem sameEffect_op_comm {o : Op} (ho : ∀ x y, o.value x y = o.value y x) :
    (op o a b c).SameEffect len (op o a c b) :=
  fun _ _ s => advance_congr a s (ho _ _)

theorem sameEffect_addw_comm : (opw .addw a b c).SameEffect len (opw .addw a c b) :=
  fun _ _ s => advance_congr a s (congrArg (BitVec.signExtend 64) (BitVec.add_comm _ _))

theorem sameEffect_branch_comm {k : Cond} (hk : k = .beq ∨ k = .bne) (offset : ℤ) :
    (branch k a b offset).SameEffect len (branch k b a offset) := by
  intro M mem s
  have hholds : k.holds (s.get a) (s.get b) = k.holds (s.get b) (s.get a) := by
    rcases hk with rfl | rfl
    · exact Bool.eq_iff_iff.mpr (by rw [Cond.holds, Cond.holds, beq_iff_eq, beq_iff_eq, eq_comm])
    · exact Bool.eq_iff_iff.mpr (by rw [Cond.holds, Cond.holds, bne_iff_ne, bne_iff_ne, ne_comm])
  have hexec (r r' : Register) : exec mem len s (branch k r r' offset) =
      if k.holds (s.get r) (s.get r') then exec.goTo s (s.pc + BitVec.ofInt 64 offset)
      else exec.advance len s s := rfl
  rw [hexec, hexec, hholds]

/-- A small number is extended from 32 bits to itself. -/
theorem sameEffect_li (h : ciImm.fits imm = true) :
    (opImm .addi a ZERO imm).SameEffect len (addiw a ZERO imm) := by
  intro M mem s
  have hrange : -32 ≤ imm ∧ imm < 32 := by
    simpa [ciImm] using (ImmFormat.fits_iff.mp h).2
  have hword : (word (BitVec.ofInt 64 imm)).signExtend 64 = BitVec.ofInt 64 imm := by
    refine BitVec.eq_of_toInt_eq ?_
    rw [word, setWidth_ofInt (by decide), BitVec.toInt_signExtend_of_le (by decide),
      BitVec.toInt_ofInt, BitVec.toInt_ofInt]
    rw [Int.bmod_eq_of_le_mul_two, Int.bmod_eq_of_le_mul_two] <;> omega
  refine advance_congr a s ?_
  calc s.get ZERO + BitVec.ofInt 64 imm = BitVec.ofInt 64 imm := by simp [get_zero]
    _ = (word (s.get ZERO + BitVec.ofInt 64 imm)).signExtend 64 := by simp [get_zero, hword]

end Insn

end Arancini.Riscv.Asm
