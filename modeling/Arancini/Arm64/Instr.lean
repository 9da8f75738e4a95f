import Mathlib.Data.BitVec
import Arancini.Ir.Memory
import Arancini.Lib.Except
import Arancini.Lib.Field

/-!
# Instructions of AArch64

The instructions that the back-end emits for integers, over virtual registers. A register is printed
with the name that the type of its operand asks for, and the assembler takes an instruction only if
the names fit together. What it rejects is an error here, and the translation ends with it.

The allocator kills a copy between registers that have got the same number, whatever their types
are. Which registers these are is a parameter (`assigned`). A copy that is killed keeps all bits,
unless one of the registers is for floating-point numbers.
-/

namespace Arancini.Arm64

open Ir (ValueType TypeClass)

variable {n : ℕ}

/-! ## Operands -/

/-- `register_operand`. -/
structure RegisterOperand where
  index : ℕ
  type : ValueType
  deriving DecidableEq

/-- The names of a register. There is none that the assembler takes for a vector. -/
inductive RegKind
  | w
  | x
  | s
  | d
  | other
  deriving DecidableEq

namespace RegisterOperand

/-- The name that a register is printed with. -/
def kind (r : RegisterOperand) : RegKind :=
  if r.type.nrElements > 1 then .other
  else
    match r.type.typeClass with
    | .floatingPoint => if r.type.elementWidth > 32 then .d else .s
    | .signedInteger | .unsignedInteger => if r.type.elementWidth > 32 then .x else .w
    | .none => .other

/-- The allocator has registers of two sorts. -/
def isFloat (r : RegisterOperand) : Bool :=
  r.type.typeClass = .floatingPoint

end RegisterOperand

/-- `reg_or_imm`. -/
inductive RegOrImm
  | reg (r : RegisterOperand)
  | imm (value : ℕ)

/-- Sums and differences, with the flags and with a carry that comes in. -/
inductive ArithOp
  | add
  | adds
  | sub
  | subs
  | adcs
  | sbcs
  deriving DecidableEq

/-- The extensions of the second source. -/
inductive Extend
  | uxtb
  | sxtb
  | uxth
  | sxth
  deriving DecidableEq

inductive LogicOp
  | and
  | ands
  | orr
  | eor
  deriving DecidableEq

inductive ShiftOp
  | lsl
  | lsr
  | asr
  deriving DecidableEq

inductive MulOp
  | mul
  | smulh
  | umulh
  deriving DecidableEq

inductive ExtendOp
  | sxtb
  | sxth
  | sxtw
  | uxtb
  | uxth
  deriving DecidableEq

inductive Cond
  | eq
  | ne
  | gt
  | lt
  | cs
  | cc
  | vs
  deriving DecidableEq

/-- The bytes of a load or a store. `full` is as long as the register. -/
inductive MemWidth
  | byte
  | half
  | full
  deriving DecidableEq

/-- The instructions. -/
inductive Instr
  | mov (dst : RegisterOperand) (src : RegOrImm)
  | movz (dst : RegisterOperand) (imm shift : ℕ)
  | movk (dst : RegisterOperand) (imm shift : ℕ)
  | arith (op : ArithOp) (dst src1 : RegisterOperand) (src2 : RegOrImm) (ext : Option Extend)
  | logic (op : LogicOp) (dst src1 : RegisterOperand) (src2 : RegOrImm)
  | shift (op : ShiftOp) (dst src1 : RegisterOperand) (src2 : RegOrImm)
  | mul (op : MulOp) (dst src1 src2 : RegisterOperand)
  | sdiv (dst src1 src2 : RegisterOperand)
  | extend (op : ExtendOp) (dst src : RegisterOperand)
  | cmp (lhs : RegisterOperand) (rhs : RegOrImm)
  | cset (dst : RegisterOperand) (cond : Cond)
  | mrs (dst : RegisterOperand)
  | msr (src : RegisterOperand)
  | bfxil (dst src : RegisterOperand) (lsb width : ℕ)
  | bfi (dst src : RegisterOperand) (lsb width : ℕ)
  | ldr (width : MemWidth) (dst base : RegisterOperand) (offset : ℕ)
  | str (width : MemWidth) (src base : RegisterOperand) (offset : ℕ)

/-! ## Execution -/

/-- The condition flags. -/
@[ext]
structure Nzcv where
  n : Bool
  z : Bool
  c : Bool
  v : Bool
  deriving DecidableEq

/-- The registers by their numbers, the flags and the memory of the host. -/
@[ext]
structure State where
  regs : ℕ → BitVec 64
  flags : Nzcv
  mem : ℕ → ℕ

namespace State

/-- The low bits of a register. -/
def get (n : ℕ) (r : RegisterOperand) (s : State) : BitVec n :=
  (s.regs r.index).setWidth n

/-- A register is written, with zeros above. -/
def set (r : RegisterOperand) (v : BitVec n) (s : State) : State :=
  { s with regs := Function.update s.regs r.index (v.setWidth 64) }

def setFlags (flags : Nzcv) (s : State) : State :=
  { s with flags }

def setFlagsIf (b : Bool) (flags : Nzcv) (s : State) : State :=
  if b then s.setFlags flags else s

end State

/-- The message of the assembler. -/
def invalidOperand : String :=
  "invalid operand for instruction"

/-- The width that an instruction has for these registers. -/
def operandWidth (rs : List RegisterOperand) : Except String ℕ :=
  if ∀ r ∈ rs, r.kind = .w then .ok 32
  else if ∀ r ∈ rs, r.kind = .x then .ok 64
  else .error invalidOperand

/-- The registers of an operand. -/
def RegOrImm.regs : RegOrImm → List RegisterOperand
  | reg r => [r]
  | imm _ => []

def RegOrImm.value (n : ℕ) (s : State) : RegOrImm → BitVec n
  | reg r => s.get n r
  | imm v => BitVec.ofNat n v

/-- The sum of two numbers and a carry, with its flags. -/
def addWithCarry (x y : BitVec n) (carry : Bool) : BitVec n × Nzcv :=
  let result := x + y + BitVec.ofNat n carry.toNat
  (result, {
    n := result.msb
    z := result == 0
    c := decide (2 ^ n ≤ x.toNat + y.toNat + carry.toNat)
    v := decide (result.toInt ≠ x.toInt + y.toInt + carry.toNat) })

/-- The flags of a logical operation. -/
def logicFlags (result : BitVec n) : Nzcv :=
  ⟨result.msb, result == 0, false, false⟩

def ArithOp.eval (op : ArithOp) (x y : BitVec n) (carry : Bool) : BitVec n × Nzcv :=
  match op with
  | add | adds => addWithCarry x y false
  | sub | subs => addWithCarry x (~~~y) true
  | adcs => addWithCarry x y carry
  | sbcs => addWithCarry x (~~~y) carry

def ArithOp.setsFlags : ArithOp → Bool
  | add | sub => false
  | adds | subs | adcs | sbcs => true

/-- An operation with a carry has no form with an extension. -/
def ArithOp.extends : ArithOp → Bool
  | adcs | sbcs => false
  | add | adds | sub | subs => true

def Extend.apply (e : Extend) (x : BitVec n) : BitVec n :=
  match e with
  | uxtb => (x.setWidth 8).setWidth n
  | sxtb => (x.setWidth 8).signExtend n
  | uxth => (x.setWidth 16).setWidth n
  | sxth => (x.setWidth 16).signExtend n

def LogicOp.value (op : LogicOp) (x y : BitVec n) : BitVec n :=
  match op with
  | and | ands => x &&& y
  | orr => x ||| y
  | eor => x ^^^ y

def ShiftOp.value (op : ShiftOp) (x : BitVec n) (amount : ℕ) : BitVec n :=
  match op with
  | lsl => x <<< amount
  | lsr => x >>> amount
  | asr => x.sshiftRight amount

def MulOp.value (op : MulOp) (x y : BitVec n) : BitVec n :=
  match op with
  | mul => x * y
  | smulh => BitVec.ofInt n (x.toInt * y.toInt / 2 ^ n)
  | umulh => BitVec.ofNat n (x.toNat * y.toNat / 2 ^ n)

/-- There are high products of 64 bits only. -/
def MulOp.valid (op : MulOp) (n : ℕ) : Bool :=
  op = mul ∨ n = 64

def ExtendOp.value (op : ExtendOp) (x : BitVec 64) (n : ℕ) : BitVec n :=
  match op with
  | sxtb => (x.setWidth 8).signExtend n
  | sxth => (x.setWidth 16).signExtend n
  | sxtw => (x.setWidth 32).signExtend n
  | uxtb => (x.setWidth 8).setWidth n
  | uxth => (x.setWidth 16).setWidth n

/-- The names that the assembler takes. A signed extension to 64 bits takes a source of either name,
and one without a sign takes `w` only. -/
def ExtendOp.valid : ExtendOp → RegKind → RegKind → Bool
  | sxtb, .w, .w | sxth, .w, .w => true
  | sxtb, .x, .w | sxth, .x, .w | sxtw, .x, .w => true
  | sxtb, .x, .x | sxth, .x, .x | sxtw, .x, .x => true
  | uxtb, .w, .w | uxth, .w, .w | uxtb, .x, .w | uxth, .x, .w => true
  | _, _, _ => false

def Cond.holds (f : Nzcv) : Cond → Bool
  | eq => f.z
  | ne => !f.z
  | gt => !f.z && f.n == f.v
  | lt => f.n != f.v
  | cs => f.c
  | cc => !f.c
  | vs => f.v

namespace Nzcv

/-- The flags in the top bits of a word. -/
def toReg (f : Nzcv) : BitVec 64 :=
  BitVec.ofNat 64
    (f.n.toNat * 2 ^ 31 + f.z.toNat * 2 ^ 30 + f.c.toNat * 2 ^ 29 + f.v.toNat * 2 ^ 28)

def ofReg (x : BitVec 64) : Nzcv :=
  ⟨x.getLsbD 31, x.getLsbD 30, x.getLsbD 29, x.getLsbD 28⟩

end Nzcv

/-- The bytes, and the names of the register that is loaded or stored. -/
def MemWidth.bytes (width : MemWidth) (r : RegisterOperand) : Except String ℕ :=
  match width, r.kind with
  | byte, .w => .ok 1
  | half, .w => .ok 2
  | full, .w | full, .s => .ok 4
  | full, .x | full, .d => .ok 8
  | _, _ => .error invalidOperand

/-- The address of a memory operand. -/
def address (base : RegisterOperand) (offset : ℕ) (s : State) : ℕ :=
  (s.regs base.index).toNat + offset

section Exec

variable (assigned : ℕ → ℕ)

/-- A copy. -/
def movReg (dst src : RegisterOperand) (s : State) : Except String State :=
  if assigned dst.index = assigned src.index then
    .ok (if dst.isFloat = src.isFloat then s.set dst (s.regs src.index) else s)
  else do
    let n ← operandWidth [dst, src]
    return s.set dst (s.get n src)

/-- Run an instruction. -/
def exec (i : Instr) (s : State) : Except String State :=
  match i with
  | .mov dst (.reg src) => movReg assigned dst src s
  | .mov dst (.imm v) => do
    let n ← operandWidth [dst]
    -- larger ones are not emitted
    if v < 2 ^ 16 then .ok (s.set dst (BitVec.ofNat n v)) else .error invalidOperand
  | .movz dst imm shift => do
    let n ← operandWidth [dst]
    if imm < 2 ^ 16 ∧ shift % 16 = 0 ∧ shift < n then
      .ok (s.set dst (BitVec.ofNat n imm <<< shift))
    else .error invalidOperand
  | .movk dst imm shift => do
    let n ← operandWidth [dst]
    if imm < 2 ^ 16 ∧ shift % 16 = 0 ∧ shift < n then
      .ok (s.set dst (insertField (s.get n dst) shift 16 (BitVec.ofNat 16 imm)))
    else .error invalidOperand
  | .arith op dst src1 src2 ext => do
    let n ← operandWidth ([dst, src1] ++ src2.regs)
    if ext.isSome ∧ !op.extends then .error invalidOperand
    else
      let y := src2.value n s
      let r := op.eval (s.get n src1) (ext.elim y fun e => e.apply y) s.flags.c
      return (s.set dst r.1).setFlagsIf op.setsFlags r.2
  | .logic op dst src1 src2 => do
    let n ← operandWidth ([dst, src1] ++ src2.regs)
    let result := op.value (s.get n src1) (src2.value n s)
    return (s.set dst result).setFlagsIf (op = .ands) (logicFlags result)
  | .shift op dst src1 (.reg src2) => do
    let n ← operandWidth [dst, src1, src2]
    return s.set dst (op.value (s.get n src1) ((s.get n src2).toNat % n))
  | .shift op dst src1 (.imm amount) => do
    let n ← operandWidth [dst, src1]
    if amount < n then .ok (s.set dst (op.value (s.get n src1) amount)) else .error invalidOperand
  | .mul op dst src1 src2 => do
    let n ← operandWidth [dst, src1, src2]
    if op.valid n then .ok (s.set dst (op.value (s.get n src1) (s.get n src2)))
    else .error invalidOperand
  | .sdiv dst src1 src2 => do
    let n ← operandWidth [dst, src1, src2]
    return s.set dst ((s.get n src1).sdiv (s.get n src2))
  | .extend op dst src =>
    if op.valid dst.kind src.kind then do
      let n ← operandWidth [dst]
      return s.set dst (op.value (s.regs src.index) n)
    else .error invalidOperand
  | .cmp lhs rhs => do
    let n ← operandWidth (lhs :: rhs.regs)
    return s.setFlags (ArithOp.subs.eval (s.get n lhs) (rhs.value n s) false).2
  | .cset dst cond => do
    let n ← operandWidth [dst]
    return s.set dst (BitVec.ofNat n (cond.holds s.flags).toNat)
  | .mrs dst => if dst.kind = .x then .ok (s.set dst s.flags.toReg) else .error invalidOperand
  | .msr src =>
    if src.kind = .x then .ok (s.setFlags (Nzcv.ofReg (s.regs src.index)))
    else .error invalidOperand
  | .bfxil dst src lsb width => do
    let n ← operandWidth [dst, src]
    if 0 < width ∧ lsb + width ≤ n then
      .ok (s.set dst (insertField (s.get n dst) 0 width (s.get n src >>> lsb)))
    else .error invalidOperand
  | .bfi dst src lsb width => do
    let n ← operandWidth [dst, src]
    if 0 < width ∧ lsb + width ≤ n then
      .ok (s.set dst (insertField (s.get n dst) lsb width (s.get n src)))
    else .error invalidOperand
  | .ldr width dst base offset =>
    if base.kind = .x then do
      let len ← width.bytes dst
      return s.set dst (BitVec.ofNat 64 (Ir.Guest.load s.mem (address base offset s) len))
    else .error invalidOperand
  | .str width src base offset =>
    if base.kind = .x then do
      let len ← width.bytes src
      return { s with
        mem := Ir.Guest.store s.mem (address base offset s) (s.regs src.index).toNat len }
    else .error invalidOperand

/-- Run a sequence of instructions. -/
def run : List Instr → State → Except String State
  | [], s => .ok s
  | i :: code, s => do
    let s ← exec assigned i s
    run code s

theorem run_append (code code' : List Instr) (s : State) :
    run assigned (code ++ code') s = run assigned code s >>= run assigned code' := by
  induction code generalizing s with
  | nil => rfl
  | cons i code ih =>
    rw [List.cons_append, run, run, bind_assoc]
    exact congrArg _ (funext ih)

end Exec

/-! ## Registers -/

namespace State

variable {r r' : RegisterOperand} {s : State}

@[simp]
theorem regs_set_self (v : BitVec n) : (s.set r v).regs r.index = v.setWidth 64 :=
  Function.update_self ..

theorem regs_set_of_ne {x : ℕ} (h : x ≠ r.index) (v : BitVec n) :
    (s.set r v).regs x = s.regs x :=
  Function.update_of_ne h ..

@[simp]
theorem get_set_self (hn : n ≤ 64) (v : BitVec n) : (s.set r v).get n r = v := by
  rw [get, regs_set_self, BitVec.setWidth_setWidth_of_le _ hn, BitVec.setWidth_eq]

@[simp]
theorem regs_setFlagsIf (b : Bool) (flags : Nzcv) : (s.setFlagsIf b flags).regs = s.regs := by
  cases b <;> rfl

theorem get_set_of_ne (h : r'.index ≠ r.index) (v : BitVec n) (m : ℕ) :
    (s.set r v).get m r' = s.get m r' :=
  congrArg (BitVec.setWidth m) (regs_set_of_ne h v)

end State

/-! ## What an instruction leaves -/

/-- The register that an instruction writes. -/
def Instr.dst : Instr → Option ℕ
  | mov dst _ | movz dst _ _ | movk dst _ _ | arith _ dst _ _ _ | logic _ dst _ _
  | shift _ dst _ _ | mul _ dst _ _ | sdiv dst _ _ | extend _ dst _ | cset dst _ | mrs dst
  | bfxil dst _ _ _ | bfi dst _ _ _ | ldr _ dst _ _ => some dst.index
  | cmp _ _ | msr _ | str _ _ _ _ => none

section Frame

variable {assigned : ℕ → ℕ} {s s' : State}

theorem State.regs_set_of_dst {dst : RegisterOperand} {r : ℕ} (h : some dst.index ≠ some r)
    (v : BitVec n) : (s.set dst v).regs r = s.regs r :=
  Function.update_of_ne (fun heq => h (congrArg some heq.symm)) ..

theorem regs_of_exec {i : Instr} (h : exec assigned i s = .ok s') {r : ℕ} (hr : i.dst ≠ some r) :
    s'.regs r = s.regs r := by
  cases i with
  | mov dst src =>
    cases src with
    | reg src =>
      simp only [exec, movReg] at h
      split_ifs at h
      · obtain rfl := Except.ok.inj h
        exact State.regs_set_of_dst hr _
      · obtain rfl := Except.ok.inj h
        rfl
      · obtain ⟨n, -, h⟩ := bind_eq_ok.1 h
        obtain rfl := pure_eq_ok.1 h
        exact State.regs_set_of_dst hr _
    | imm v =>
      obtain ⟨n, -, h⟩ := bind_eq_ok.1 h
      split_ifs at h
      obtain rfl := Except.ok.inj h
      exact State.regs_set_of_dst hr _
  | shift op dst src1 src2 =>
    cases src2 with
    | reg src2 =>
      obtain ⟨n, -, h⟩ := bind_eq_ok.1 h
      obtain rfl := pure_eq_ok.1 h
      exact State.regs_set_of_dst hr _
    | imm amount =>
      obtain ⟨n, -, h⟩ := bind_eq_ok.1 h
      split_ifs at h
      obtain rfl := Except.ok.inj h
      exact State.regs_set_of_dst hr _
  | movz dst imm shift | movk dst imm shift | bfxil dst src lsb width | bfi dst src lsb width
  | mul op dst src1 src2 =>
    obtain ⟨n, -, h⟩ := bind_eq_ok.1 h
    split_ifs at h
    obtain rfl := Except.ok.inj h
    exact State.regs_set_of_dst hr _
  | arith op dst src1 src2 ext =>
    obtain ⟨n, -, h⟩ := bind_eq_ok.1 h
    split_ifs at h
    obtain rfl := pure_eq_ok.1 h
    rw [State.regs_setFlagsIf]
    exact State.regs_set_of_dst hr _
  | logic op dst src1 src2 =>
    obtain ⟨n, -, h⟩ := bind_eq_ok.1 h
    obtain rfl := pure_eq_ok.1 h
    rw [State.regs_setFlagsIf]
    exact State.regs_set_of_dst hr _
  | sdiv dst src1 src2 | cset dst cond =>
    obtain ⟨n, -, h⟩ := bind_eq_ok.1 h
    obtain rfl := pure_eq_ok.1 h
    exact State.regs_set_of_dst hr _
  | extend op dst src =>
    simp only [exec] at h
    split_ifs at h
    obtain ⟨n, -, h⟩ := bind_eq_ok.1 h
    obtain rfl := pure_eq_ok.1 h
    exact State.regs_set_of_dst hr _
  | cmp lhs rhs =>
    obtain ⟨n, -, h⟩ := bind_eq_ok.1 h
    obtain rfl := pure_eq_ok.1 h
    rfl
  | mrs dst =>
    simp only [exec] at h
    split_ifs at h
    obtain rfl := Except.ok.inj h
    exact State.regs_set_of_dst hr _
  | msr src =>
    simp only [exec] at h
    split_ifs at h
    obtain rfl := Except.ok.inj h
    rfl
  | ldr width dst base offset =>
    simp only [exec] at h
    split_ifs at h
    obtain ⟨len, -, h⟩ := bind_eq_ok.1 h
    obtain rfl := pure_eq_ok.1 h
    exact State.regs_set_of_dst hr _
  | str width src base offset =>
    simp only [exec] at h
    split_ifs at h
    obtain ⟨len, -, h⟩ := bind_eq_ok.1 h
    obtain rfl := pure_eq_ok.1 h
    rfl

theorem regs_of_run {code : List Instr} (h : run assigned code s = .ok s') {r : ℕ}
    (hr : ∀ i ∈ code, i.dst ≠ some r) : s'.regs r = s.regs r := by
  induction code generalizing s with
  | nil =>
    obtain rfl := Except.ok.inj h
    rfl
  | cons i code ih =>
    obtain ⟨t, ht, h⟩ := bind_eq_ok.1 h
    rw [ih h fun j hj => hr j (List.mem_cons_of_mem i hj),
      regs_of_exec ht (hr i List.mem_cons_self)]

end Frame

end Arancini.Arm64
