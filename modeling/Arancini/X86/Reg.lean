import Mathlib.Algebra.GroupWithZero.Nat
import Mathlib.Data.Fintype.Basic
import Mathlib.Data.Fin.Basic

/-!
# The guest register file

`Reg` lists the registers of `reg.def`, in the order of the file. The CPU state is a
packed structure of them, so `offset` (`reg_offsets`) is the sum of the sizes before a
register and `idx` (`reg_idx`) its position in the list. `ofOffset` and `ofIdx` are the
tables `off_to_idx` and `regnames` read the other way.
-/

namespace Arancini

-- There are general and vector registers, so that their numbers have literals.
instance neZero_gprs : NeZero 16 :=
  ⟨by decide⟩

instance neZero_zmms : NeZero 32 :=
  ⟨by decide⟩

/-- The registers of `reg.def`. -/
inductive Reg
  | PC
  | RAX | RCX | RDX | RBX | RSP | RBP | RSI | RDI
  | R8 | R9 | R10 | R11 | R12 | R13 | R14 | R15
  | ZF | CF | OF | SF | PF | DF | unused2 | unused3
  | FS | GS
  | X87_STACK_BASE | X87_CTRL | X87_STS | X87_TAG | X87_OPCODE
  | ZMM (n : Fin 32)
  | XCR0
  deriving DecidableEq, Repr

namespace Reg

/-- Size of the register in the CPU state, in bytes. -/
def bytes : Reg → ℕ
  | ZF | CF | OF | SF | PF | DF | unused2 | unused3 => 1
  | X87_CTRL | X87_STS | X87_TAG | X87_OPCODE => 2
  | ZMM _ => 64
  | _ => 8

/-- Position in `reg.def` (`reg_idx`). -/
def idx : Reg → ℕ
  | PC => 0
  | RAX => 1 | RCX => 2 | RDX => 3 | RBX => 4 | RSP => 5 | RBP => 6 | RSI => 7 | RDI => 8
  | R8 => 9 | R9 => 10 | R10 => 11 | R11 => 12 | R12 => 13 | R13 => 14 | R14 => 15 | R15 => 16
  | ZF => 17 | CF => 18 | OF => 19 | SF => 20 | PF => 21 | DF => 22
  | unused2 => 23 | unused3 => 24
  | FS => 25 | GS => 26
  | X87_STACK_BASE => 27 | X87_CTRL => 28 | X87_STS => 29 | X87_TAG => 30 | X87_OPCODE => 31
  | ZMM n => 32 + n
  | XCR0 => 64

/-- The registers in the order of `reg.def`. -/
def all : List Reg :=
  [PC, RAX, RCX, RDX, RBX, RSP, RBP, RSI, RDI, R8, R9, R10, R11, R12, R13, R14, R15,
    ZF, CF, OF, SF, PF, DF, unused2, unused3, FS, GS,
    X87_STACK_BASE, X87_CTRL, X87_STS, X87_TAG, X87_OPCODE] ++
    (List.finRange 32).map ZMM ++ [XCR0]

/-- Offset of the register in the packed CPU state (`reg_offsets`). -/
def offset (r : Reg) : ℕ :=
  ((all.take r.idx).map bytes).sum

end Reg

end Arancini
