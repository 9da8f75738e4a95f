import Mathlib.Data.Finset.Basic
import Arancini.Ir.Eval

/-!
# Instructions of the x86 back-end

An instruction has an opcode and operands. An operand is a register, a memory operand or an
immediate, and says whether the instruction uses it, defines it, or both. Registers are physical
or virtual. `exec` runs an instruction on a machine that has both kinds, so code before and after
register allocation means the same thing. What an opcode reads and writes is fixed here, and what
an arithmetic operation computes is a parameter `Cpu`.
-/

namespace Arancini.X86Host

open Ir

/-! ## Operands -/

/-- The registers of `x86_register_names` the back-end uses. -/
inductive RegName
  | AX | CX | DX | BX | DI | SI | BP | R15
  deriving DecidableEq, Repr

/-- A physical or a virtual register. -/
inductive Reg
  | preg (r : RegName)
  | vreg (index : ℕ)
  deriving DecidableEq, Repr

/-- `x86_memory_operand`. `gs` is the segment of guest memory. -/
structure MemoryOperand where
  base : Reg
  displacement : ℕ
  gs : Bool
  deriving DecidableEq, Repr

/-- What an operand is. -/
inductive OperandKind
  | reg (r : Reg)
  | mem (m : MemoryOperand)
  | imm (v : ℕ)
  deriving DecidableEq, Repr

/-- `x86_operand`. -/
structure Operand where
  kind : OperandKind
  width : ℕ
  use : Bool
  defn : Bool
  deriving DecidableEq, Repr

namespace Operand

def vreg (index width : ℕ) : Operand :=
  ⟨.reg (.vreg index), if width = 1 then 8 else width, false, false⟩

def preg (r : RegName) (width : ℕ) : Operand :=
  ⟨.reg (.preg r), width, false, false⟩

def imm (v width : ℕ) : Operand :=
  ⟨.imm v, if width = 1 then 8 else width, false, false⟩

/-- `guestreg_memory_operand`. -/
def guestreg (width regoff : ℕ) : Operand :=
  ⟨.mem ⟨.preg .BP, regoff, false⟩, if width = 1 then 8 else width, false, false⟩

/-- A place in guest memory. -/
def guestmem (base width : ℕ) : Operand :=
  ⟨.mem ⟨.vreg base, 0, true⟩, width, false, false⟩

def asDef (o : Operand) : Operand :=
  { o with defn := true }

def asUse (o : Operand) : Operand :=
  { o with use := true }

def asUseDef (o : Operand) : Operand :=
  { o with use := true, defn := true }

end Operand

/-! ## Opcodes -/

/-- The operations of two operands. -/
inductive Mnemonic
  | MOV | XOR | AND | OR | ADD | SUB | IMUL
  deriving DecidableEq, Repr

/-- The form of an operand in an opcode. -/
inductive Form
  | r | m | i
  deriving DecidableEq, Repr

/-- The flags `SETcc` reads. -/
inductive Cond
  | C | O | Z | S
  deriving DecidableEq, Repr

/-- The opcodes `FE_…`, by operation, width and the forms of the operands. -/
inductive Opcode
  | std (m : Mnemonic) (width : ℕ) (dst src : Form)
  | movzx (dstWidth srcWidth : ℕ) (src : Form)
  | movsx (dstWidth srcWidth : ℕ) (src : Form)
  | set (c : Cond) (dst : Form)
  | ret
  deriving DecidableEq, Repr

/-- `x86_instruction`. An instruction that was killed is dead. -/
structure Instruction where
  opcode : Opcode
  operands : List Operand
  dead : Bool
  deriving DecidableEq, Repr

/-- `operand_type_to_form_type`. -/
def OperandKind.form : OperandKind → Form
  | reg _ => .r
  | mem _ => .m
  | imm _ => .i

namespace Instruction

/-- An operation on operands of one width (`DEFINE_STDOP_T`). -/
def std (m : Mnemonic) (mark : Operand → Operand) (dst src : Operand) : Except String Instruction :=
  if dst.width = src.width ∧ dst.width ∈ [8, 16, 32, 64] ∧ (dst.kind.form, src.kind.form) ∈
      [(Form.r, Form.r), (.r, .m), (.m, .r), (.r, .i), (.m, .i)] then
    .ok ⟨.std m dst.width dst.kind.form src.kind.form, [mark dst, src.asUse], false⟩
  else
    .error "unsupported encoding for mov"

def mov : Operand → Operand → Except String Instruction :=
  std .MOV .asDef

def xor : Operand → Operand → Except String Instruction :=
  std .XOR .asUseDef

def and : Operand → Operand → Except String Instruction :=
  std .AND .asUseDef

def or : Operand → Operand → Except String Instruction :=
  std .OR .asUseDef

def add : Operand → Operand → Except String Instruction :=
  std .ADD .asUseDef

def sub : Operand → Operand → Except String Instruction :=
  std .SUB .asUseDef

/-- The form with an immediate, which has three operands, is left out : the right operand of a
product is a register. -/
def mul (dst src : Operand) : Except String Instruction :=
  if dst.width = 64 ∧ src.width = 64 ∧ dst.kind.form = .r ∧ src.kind.form = .r then
    .ok ⟨.std .IMUL 64 .r .r, [dst.asUseDef, src.asUse], false⟩
  else
    .error "unsupported encoding for mul"

/-- The widths `MOVZX` and `MOVSX` are encoded for. -/
def extendForms : List (ℕ × ℕ × Form) :=
  [(16, 8, .r), (16, 8, .m), (32, 8, .r), (32, 8, .m), (64, 8, .r), (64, 8, .m)]

/-- To extend a double word with zeros is a `MOV` of it. -/
def movz (dst src : Operand) : Except String Instruction :=
  if dst.kind.form = .r ∧ (dst.width, src.width, src.kind.form) ∈ extendForms then
    .ok ⟨.movzx dst.width src.width src.kind.form, [dst.asDef, src.asUse], false⟩
  else if dst.kind.form = .r ∧ (dst.width, src.width, src.kind.form) = (64, 32, .r) then
    .ok ⟨.std .MOV 32 .r .r, [dst.asDef, src.asUse], false⟩
  else
    .error "unsupported encoding for movz"

def movs (dst src : Operand) : Except String Instruction :=
  if dst.kind.form = .r ∧ (dst.width, src.width, src.kind.form) ∈
      extendForms ++ [(64, 32, .r), (64, 32, .m)] then
    .ok ⟨.movsx dst.width src.width src.kind.form, [dst.asDef, src.asUse], false⟩
  else
    .error "unsupported encoding for movs"

/-- `DEFINE_SETOP`. -/
def setcc (c : Cond) (dst : Operand) : Except String Instruction :=
  if dst.width = 8 ∧ dst.kind.form ∈ [Form.r, .m] then
    .ok ⟨.set c dst.kind.form, [dst.asDef], false⟩
  else
    .error "invalid opform"

def ret : Instruction :=
  ⟨.ret, [], false⟩

end Instruction

/-! ## The machine -/

/-- The flags. -/
structure Flags where
  c : Bool
  o : Bool
  z : Bool
  s : Bool

def Flags.get (f : Flags) : Cond → Bool
  | .C => f.c
  | .O => f.o
  | .Z => f.z
  | .S => f.s

/-- What the arithmetic operations do : the result and the flags, from the operands. -/
structure Cpu where
  alu : Mnemonic → ℕ → ℕ → ℕ → ℕ × Flags
  /-- The address of the guest's memory. -/
  gsBase : ℕ

/-- The registers, memory and the flags. -/
structure State where
  regs : Reg → BitVec 64
  mem : ℕ → ℕ
  flags : Flags

/-- Write the low `w` bits of a register. A write of a double word clears the rest. -/
def merge (w : ℕ) (old : BitVec 64) (v : ℕ) : BitVec 64 :=
  if 32 ≤ w then BitVec.ofNat 64 (v % 2 ^ w)
  else BitVec.ofNat 64 (old.toNat - old.toNat % 2 ^ w + v % 2 ^ w)

/-- The width an opcode writes its first operand with. -/
def Opcode.dstWidth : Opcode → ℕ
  | std _ w _ _ => w
  | movzx w _ _ => w
  | movsx w _ _ => w
  | set .. => 8
  | ret => 64

/-- The width it reads the other with. -/
def Opcode.srcWidth : Opcode → ℕ
  | std _ w _ _ => w
  | movzx _ w _ => w
  | movsx _ w _ => w
  | set .. => 8
  | ret => 64

/-- Extend the sign of a value of `w` bits. -/
def signExtend (w v : ℕ) : ℕ :=
  if v < 2 ^ (w - 1) then v else v + 2 ^ 64 - 2 ^ w

/-- The value an opcode writes, and the flags after it. -/
def Opcode.eval (cpu : Cpu) (op : Opcode) (dst src : ℕ) (f : Flags) : ℕ × Flags :=
  match op with
  | std .MOV _ _ _ => (src, f)
  | std m w _ _ => cpu.alu m w dst src
  | movzx .. => (src, f)
  | movsx _ w _ => (signExtend w src, f)
  | set c _ => (if f.get c then 1 else 0, f)
  | ret => (0, f)

/-- Does it read its first operand? -/
def Opcode.readsDst : Opcode → Bool
  | std .MOV _ _ _ | movzx .. | movsx .. | set .. | ret => false
  | std .. => true

/-- The address of a memory operand. -/
def MemoryOperand.address (cpu : Cpu) (m : MemoryOperand) (s : State) : ℕ :=
  ((s.regs m.base).toNat + m.displacement + if m.gs then cpu.gsBase else 0) % 2 ^ 64

/-- The low `w` bits of an operand. -/
def OperandKind.read (cpu : Cpu) (w : ℕ) (s : State) : OperandKind → ℕ
  | reg r => (s.regs r).toNat % 2 ^ w
  | mem m => Guest.load s.mem (m.address cpu s) (w / 8)
  | imm v => v % 2 ^ w

def OperandKind.write (cpu : Cpu) (w v : ℕ) (s : State) : OperandKind → State
  | reg r => { s with regs := Function.update s.regs r (merge w (s.regs r) v) }
  | mem m => { s with mem := Guest.store s.mem (m.address cpu s) v (w / 8) }
  | imm _ => s

/-- Run an instruction. -/
def exec (cpu : Cpu) (i : Instruction) (s : State) : State :=
  match i.operands with
  | [] => s
  | d :: rest =>
    let src := match rest with
      | [] => 0
      | a :: _ => a.kind.read cpu i.opcode.srcWidth s
    let dst := if i.opcode.readsDst then d.kind.read cpu i.opcode.dstWidth s else 0
    let (v, f) := i.opcode.eval cpu dst src s.flags
    d.kind.write cpu i.opcode.dstWidth v { s with flags := f }

/-- Run code up to a return. Dead instructions are not emitted. -/
def run (cpu : Cpu) : List Instruction → State → State
  | [], s => s
  | i :: code, s =>
    if i.dead then run cpu code s
    else if i.opcode = .ret then s
    else run cpu code (exec cpu i s)

end Arancini.X86Host
