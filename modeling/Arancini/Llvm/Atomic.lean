import Arancini.Llvm.Flags
import Arancini.X86.Operand

/-!
# Atomic nodes in LLVM

`lower_node` of an atomic node gives what was in memory and the value of the operation, from which
`materialise_port` rebuilds the flags. An `xadd` node has no such value. A `cmpxchg` node leaves
what was in memory in `RAX`, extended with zeros, and has no flag but the zero flag.

The instructions are those of the atomic translator that have an operand in memory. What they should
do is stated with the flags of the arithmetic nodes and the views of the general purpose registers.
`lock_right_iff` says for which instructions and states the guest state is right.
-/

namespace Arancini.Llvm

open X86 (CpuState GprReg GprPart readGpr writeGpr readReg writeReg gprReg xedregToOffset)

variable {n w : ℕ}

/-- The guest state that the instructions reach. `cell` has the eight bytes at the address, and a
flag that was written without a value is `none`. -/
structure GuestState where
  regs : CpuState
  cell : BitVec 64
  flags : FlagPort → Option (BitVec 8)

/-! ## The lowering -/

/-- `binary_atomic_op`, of the operations that are lowered. -/
inductive BinaryAtomicOp
  | band
  | add
  | sub
  | xadd
  | bor
  | xchg
  deriving DecidableEq

/-- What is lowered for `val()` and for `operation_value()`. -/
structure AtomicValues (n : ℕ) where
  val : BitVec n
  operationValue : Option (BitVec n)

/-- The store of what was in memory to the register of the operand, if it was read from one. -/
def storeSource (regOff : Option ℕ) (out : BitVec n) (regs : CpuState) : Except String CpuState :=
  match regOff with
  | some off => writeReg off out regs
  | none => .ok regs

/-- What `atomicrmw` leaves in memory. -/
def GuestState.store (s : GuestState) (value : BitVec n) : GuestState :=
  { s with cell := insertField s.cell 0 n value }

/-- `lower_node` of a `binary_atomic` node. -/
def lowerBinaryAtomic (op : BinaryAtomicOp) (rhs : BitVec n) (regOff : Option ℕ) (s : GuestState) :
    Except String (AtomicValues n × GuestState) :=
  let out := s.cell.setWidth n
  match op with
  | .band => .ok (⟨out, some (out &&& rhs)⟩, s.store (out &&& rhs))
  | .add => .ok (⟨out, some (out + rhs)⟩, s.store (out + rhs))
  | .sub => .ok (⟨out, some (out - rhs)⟩, s.store (out - rhs))
  | .xadd => do
    -- no value is assigned here
    let regs ← storeSource regOff out s.regs
    return (⟨out, none⟩, { s.store (out + rhs) with regs })
  | .bor => .ok (⟨out, some (out ||| rhs)⟩, s.store (out ||| rhs))
  | .xchg => do
    let regs ← storeSource regOff out s.regs
    return (⟨out, some rhs⟩, { s.store rhs with regs })

def atomicCarry (op : BinaryAtomicOp) (lhs rhs valuePort : BitVec n) : BitVec 8 :=
  match op with
  | .sub => zextBit (icmp .ult lhs rhs)
  | .xadd | .add => zextBit (icmp .ugt lhs valuePort)
  | _ => 0

def atomicOverflow (op : BinaryAtomicOp) (lhs rhs valuePort : BitVec n) : BitVec 8 :=
  match op with
  | .sub =>
    let sum := lhs + -rhs
    let posArgs := icmp .sgt lhs 0#n && (icmp .sgt rhs 0#n && icmp .slt sum 0#n)
    let negArgs := icmp .slt lhs 0#n && (icmp .slt rhs 0#n && icmp .sge sum 0#n)
    zextBit (posArgs || negArgs)
  | .xadd | .add =>
    let posArgs := icmp .sgt lhs 0#n && (icmp .sgt rhs 0#n && icmp .slt valuePort 0#n)
    let negArgs := icmp .slt lhs 0#n && (icmp .slt rhs 0#n && icmp .sge valuePort 0#n)
    zextBit (posArgs || negArgs)
  | _ => 0

/-- `materialise_port` of a flag of a `binary_atomic` node. There is nothing to rebuild it from
without the value of the operation. -/
def materialiseBinaryAtomic (op : BinaryAtomicOp) (rhs : BitVec n) (values : AtomicValues n)
    (p : FlagPort) : Option (BitVec 8) :=
  values.operationValue.map fun valuePort =>
    match p with
    | .zero => zextBit (icmp .eq valuePort 0#n)
    | .negative => zextBit (icmp .slt valuePort 0#n)
    | .carry => atomicCarry op values.val rhs valuePort
    | .overflow => atomicOverflow op values.val rhs valuePort

/-- `lower_node` of a `cmpxchg` node. `rhs` is the accumulator and `top` the source. -/
def lowerCmpxchg (rhs top : BitVec n) (s : GuestState) : Except String GuestState := do
  let old := s.cell.setWidth n
  let success := icmp .eq old rhs
  let regs ← writeReg Reg.RAX.offset (old.setWidth 64) s.regs
  return {
    regs
    cell := if success then insertField s.cell 0 n top else s.cell
    flags := Function.update s.flags .zero (some (zextBit success)) }

/-- `materialise_port` of a flag of a `ternary_atomic` node. The zero flag is loaded. -/
def materialiseTernaryAtomic (s : GuestState) (p : FlagPort) : Option (BitVec 8) :=
  match p with
  | .zero => s.flags .zero
  | _ => some 0 -- TODO: Flags

/-! ## The translator -/

/-- `flag_op`, of those that the translator uses. -/
inductive FlagOp
  | ignore
  | set0
  | update

def flagOps (zf cf ovf sf : FlagOp) : FlagPort → FlagOp
  | .zero => zf
  | .carry => cf
  | .overflow => ovf
  | .negative => sf

/-- `write_flags`, for a node with the flags `port`. -/
def writeFlags (ops : FlagPort → FlagOp) (port : FlagPort → Option (BitVec 8)) (s : GuestState) :
    GuestState :=
  { s with flags := fun p =>
      match ops p with
      | .ignore => s.flags p
      | .set0 => some 0
      | .update => port p }

/-- The operand that is not in memory. An immediate of an instruction with operands of `w` bits has
the width that it is encoded with. -/
inductive Source
  | reg (reg : GprReg)
  | imm (w : ℕ) {n : ℕ} (value : BitVec n) (h : 0 < n ∧ n ≤ w ∧ w ≤ 64)

namespace Source

/-- The width of the operand that is read. -/
def readWidth : Source → ℕ
  | reg r => r.part.width
  | @imm _ n _ _ => n

/-- `read_operand`. -/
def read (s : CpuState) : (src : Source) → Except String (BitVec src.readWidth)
  | reg r => readGpr r s
  | imm _ value _ => .ok value

/-- The offset of the register that the operand is read from. -/
def regOff : Source → Option ℕ
  | reg r => some (xedregToOffset r.largest)
  | imm .. => none

end Source

/-- `ADD_LOCK`, `AND_LOCK` and `OR_LOCK`. -/
inductive LockOp
  | add
  | band
  | bor
  deriving DecidableEq

def LockOp.atomic : LockOp → BinaryAtomicOp
  | add => .add
  | band => .band
  | bor => .bor

def LockOp.flagOps : LockOp → FlagPort → FlagOp
  | add => Llvm.flagOps .update .update .update .update
  | band => Llvm.flagOps .update .set0 .set0 .update
  | bor => Llvm.flagOps .update .set0 .set0 .update

/-- The widths of integer operands. -/
def gprWidths : List ℕ :=
  [8, 16, 32, 64]

/-- The instructions of the atomic translator with an operand in memory. -/
inductive AtomicInst
  | binop (op : LockOp) (src : Source)
  | inc (w : ℕ) (h : w ∈ gprWidths)
  | dec (w : ℕ) (h : w ∈ gprWidths)
  | xadd (reg : GprReg)
  | xchg (reg : GprReg)
  | cmpxchg (reg : GprReg)

section Translate

variable (s : GuestState)

/-- A `binary_atomic` node and the flags that are written. -/
def translateBinop (op : BinaryAtomicOp) (ops : FlagPort → FlagOp) (rhs : BitVec n)
    (regOff : Option ℕ) : Except String GuestState := do
  let (res, s) ← lowerBinaryAtomic op rhs regOff s
  return writeFlags ops (materialiseBinaryAtomic op rhs res) s

/-- The operand in memory is added to, or exchanged with, a register, which is written then. -/
def translateSwap (op : BinaryAtomicOp) (ops : FlagPort → FlagOp) (reg : GprReg) :
    Except String GuestState := do
  let src ← readGpr reg s.regs
  let (res, s) ← lowerBinaryAtomic op src (some (xedregToOffset reg.largest)) s
  let regs ← writeGpr reg .unsignedInteger res.val s.regs
  return writeFlags ops (materialiseBinaryAtomic op src res) { s with regs }

/-- The accumulator is read with the width of the operands. -/
def translateCmpxchg (reg : GprReg) : Except String GuestState := do
  let acc ← readReg reg.part.width (xedregToOffset (.gpr 0)) s.regs
  let src ← readGpr reg s.regs
  let s ← lowerCmpxchg acc src s
  return writeFlags (flagOps .update .update .update .update) (materialiseTernaryAtomic s) s

/-- `do_translate` with the lowering of what it builds. `INC_LOCK` and `DEC_LOCK` have a constant of
the type of the address. -/
def AtomicInst.run : AtomicInst → Except String GuestState
  | binop op src => do
    let rhs ← src.read s.regs
    translateBinop s op.atomic op.flagOps rhs src.regOff
  | inc _ _ => translateBinop s .add (flagOps .update .ignore .update .update) 1#64 none
  | dec _ _ => translateBinop s .sub (flagOps .update .ignore .update .update) 1#64 none
  | xadd reg => translateSwap s .xadd (flagOps .update .update .update .update) reg
  | xchg reg => translateSwap s .xchg (flagOps .ignore .ignore .ignore .ignore) reg
  | cmpxchg reg => translateCmpxchg s reg

end Translate

/-! ## The reference -/

def LockOp.node (op : LockOp) (lhs rhs : BitVec w) : FlagNode w :=
  match op with
  | add => .addSub .add lhs rhs
  | band => .logic .band FlagNode.band_logic lhs rhs
  | bor => .logic .bor FlagNode.bor_logic lhs rhs

/-- The width of the operands. -/
def Source.width : Source → ℕ
  | reg r => r.part.width
  | imm w _ _ => w

/-- An immediate is extended with its sign. -/
def Source.value (s : CpuState) : (src : Source) → BitVec src.width
  | reg r => r.view (s.gpr r.num)
  | imm w value _ => value.signExtend w

namespace AtomicInst

def width : AtomicInst → ℕ
  | binop _ src => src.width
  | inc w _ => w
  | dec w _ => w
  | xadd reg => reg.part.width
  | xchg reg => reg.part.width
  | cmpxchg reg => reg.part.width

variable (s : GuestState)

/-- The operand in memory. -/
def memory (inst : AtomicInst) : BitVec inst.width :=
  s.cell.setWidth inst.width

/-- The accumulator has what is in memory. -/
def Equal (inst : AtomicInst) : Prop :=
  inst.memory s = (s.regs.gpr 0).setWidth inst.width

instance (inst : AtomicInst) : Decidable (inst.Equal s) :=
  inferInstanceAs (Decidable (_ = _))

/-- The operation that is performed. That of `XCHG` gives the source. -/
def node : (inst : AtomicInst) → FlagNode inst.width
  | binop op src => op.node ((binop op src).memory s) (src.value s.regs)
  | inc w h => .addSub .add ((inc w h).memory s) 1
  | dec w h => .addSub .sub ((dec w h).memory s) 1
  | xadd reg => .addSub .add ((xadd reg).memory s) (reg.view (s.regs.gpr reg.num))
  | xchg reg => .addSub .add 0 (reg.view (s.regs.gpr reg.num))
  | cmpxchg reg => .addSub .sub ((s.regs.gpr 0).setWidth _) ((cmpxchg reg).memory s)

/-- What the operand in memory should be. -/
def newMemory : (inst : AtomicInst) → BitVec inst.width
  | cmpxchg reg =>
    if (cmpxchg reg).Equal s then reg.view (s.regs.gpr reg.num) else (cmpxchg reg).memory s
  | inst => (inst.node s).value

/-- The flags that are written. -/
def writes (p : FlagPort) : AtomicInst → Bool
  | inc _ _ => p ≠ .carry
  | dec _ _ => p ≠ .carry
  | xchg _ => false
  | _ => true

def newFlag (inst : AtomicInst) (p : FlagPort) : Option (BitVec 8) :=
  if inst.writes p then some (zextBit ((inst.node s).flag p)) else s.flags p

end AtomicInst

/-- The part of the accumulator with as many bits. -/
def accumulator (reg : GprReg) : GprReg where
  num := 0
  part := if reg.part = .high then .low else reg.part
  valid _ := by decide

/-- A register has become the value under the rules of its view, and no other one has changed. -/
def Received (reg : GprReg) (value : BitVec reg.part.width) (s s' : CpuState) : Prop :=
  reg.Written value (s.gpr reg.num) (s'.gpr reg.num) ∧ ∀ r ≠ gprReg reg.num, s' r = s r

namespace AtomicInst

variable (s s' : GuestState)

/-- What the registers should be. -/
def RegsRight : AtomicInst → Prop
  | xadd reg | xchg reg => Received reg (s.cell.setWidth _) s.regs s'.regs
  | cmpxchg reg =>
    if (cmpxchg reg).Equal s then s'.regs = s.regs
    else Received (accumulator reg) (s.cell.setWidth _) s.regs s'.regs
  | _ => s'.regs = s.regs

/-- The run leaves the guest state that the instruction should. -/
def Right (inst : AtomicInst) : Prop :=
  ∃ s', inst.run s = .ok s' ∧ s'.cell = insertField s.cell 0 inst.width (inst.newMemory s) ∧
    inst.RegsRight s s' ∧ ∀ p, s'.flags p = inst.newFlag s p

end AtomicInst

/-! ## When the guest state is right -/

/-- An operation on `w` bits does what the same one on the low `n` bits does to an operand `lhs` in
memory, and to the flags. -/
structure Alike (lhs : BitVec w) (wide : FlagNode w) (narrow : FlagNode n) : Prop where
  above : wide.value >>> n = lhs >>> n
  zero : narrow.value = 0#n → wide.value = 0#w
  sign : narrow.value.msb = wide.value.msb
  overflow : narrow.overflow = false

namespace AtomicInst

variable (s : GuestState)

/-- The low bits of the register. -/
abbrev lowPart (reg : GprReg) : BitVec reg.part.width :=
  (s.regs.gpr reg.num).setWidth reg.part.width

/-- A high byte is one that does as much as the low one. An immediate has the width of the operands,
or the operation on so many bits is enough, and so is that on 64 bits for `INC` and `DEC`. An
overflow of `DEC` is not seen, and the flags of `XADD` are not there. A high byte that is exchanged
is the low one as well, and what is in memory. What is above the accumulator is zero, or it is `EAX`
that is written, and the comparison sets no flag but the zero flag. -/
def fits : AtomicInst → Prop
  | binop op (.reg r) => r.part = .high →
    (op.node (s.cell.setWidth _) (lowPart s r)).value =
      (op.node (s.cell.setWidth _) (r.view (s.regs.gpr r.num))).value
  | binop op (@Source.imm w n value h) => n < w →
    Alike (s.cell.setWidth w) ((binop op (.imm w value h)).node s)
      (op.node (s.cell.setWidth n) value)
  | inc w h => w < 64 → Alike s.cell (.addSub .add s.cell 1) ((inc w h).node s)
  | dec w h =>
    if w < 64 then Alike s.cell (.addSub .sub s.cell 1) ((dec w h).node s)
    else s.cell ≠ BitVec.intMin 64
  | xadd _ => False
  | xchg r => r.part = .high →
    lowPart s r = r.view (s.regs.gpr r.num) ∧ lowPart s r = s.cell.setWidth _
  | cmpxchg r =>
    ((cmpxchg r).Equal s → r.part = .high → lowPart s r = r.view (s.regs.gpr r.num)) ∧
      (s.regs.gpr 0 >>> r.part.width = 0 ∨ (r.part = .dword ∧ ¬(cmpxchg r).Equal s)) ∧
      ∀ p ≠ .zero, ((cmpxchg r).node s).flag p = false

end AtomicInst

theorem mem_gprWidths (reg : GprReg) : reg.part.width ∈ gprWidths := by
  cases reg.part <;> decide

theorem le_of_mem_gprWidths (h : w ∈ gprWidths) : 1 < w ∧ w ≤ 64 := by
  simp only [gprWidths, List.mem_cons, List.not_mem_nil, or_false] at h
  omega

section Alike

theorem saddOverflow_eq_false (hw : n < w) {x y : BitVec w} (h : (x + y) >>> n = x >>> n) :
    x.saddOverflow y = false := by
  rw [BitVec.saddOverflow_eq, msb_eq_of_ushiftRight hw h]
  simp

/-- The carry of a sum with an extended number, if the sum leaves what is above it. -/
theorem uaddOverflow_signExtend (hw : n < w) (x : BitVec w) (y : BitVec n)
    (h : (x + y.signExtend w) >>> n = x >>> n) :
    (x.setWidth n).uaddOverflow y = x.uaddOverflow (y.signExtend w) := by
  have hy : (y.signExtend w).toNat = y.toNat + if y.msb then 2 ^ w - 2 ^ n else 0 := by
    rw [BitVec.toNat_signExtend, toNat_setWidth_of_le hw.le]
  have hpow : 2 * 2 ^ n ≤ 2 ^ w := by
    rw [← Nat.pow_succ']
    exact Nat.pow_le_pow_right (by decide) hw
  have hx := x.isLt
  have hlt := y.isLt
  have hdiv := congrArg BitVec.toNat h
  rw [BitVec.toNat_ushiftRight, BitVec.toNat_ushiftRight, BitVec.toNat_add, hy,
    Nat.shiftRight_eq_div_pow, Nat.shiftRight_eq_div_pow] at hdiv
  rw [BitVec.uaddOverflow, BitVec.uaddOverflow, hy, BitVec.toNat_setWidth, decide_eq_decide]
  -- both sums split into a multiple of `2 ^ n` and a rest
  have hsplit := Nat.div_add_mod x.toNat (2 ^ n)
  have hrest := Nat.mod_lt x.toNat (Nat.two_pow_pos n)
  generalize hsum : (x.toNat + (y.toNat + if y.msb then 2 ^ w - 2 ^ n else 0)) % 2 ^ w = sum
    at hdiv
  have hsplit' := Nat.div_add_mod sum (2 ^ n)
  have hrest' := Nat.mod_lt sum (Nat.two_pow_pos n)
  rw [hdiv] at hsplit'
  generalize 2 ^ n * (x.toNat / 2 ^ n) = high at hsplit hsplit'
  rcases Nat.lt_or_ge (x.toNat + (y.toNat + if y.msb then 2 ^ w - 2 ^ n else 0)) (2 ^ w) with
    hfit | hfit
  · rw [Nat.mod_eq_of_lt hfit] at hsum
    split_ifs at hsum hfit ⊢ <;> omega
  · rw [Nat.mod_eq_sub_mod hfit, Nat.mod_eq_of_lt (by split_ifs <;> omega)] at hsum
    split_ifs at hsum hfit ⊢ <;> omega

/-- The flags that are told by the value, and the overflow `b`, if that needs another sign. -/
theorem alike_iff {lhs : BitVec w} {wide : FlagNode w} {narrow : FlagNode n}
    (hvalue : wide.value.setWidth n = narrow.value) {b : Bool}
    (hb : wide.value >>> n = lhs >>> n → b = false) :
    (wide.value >>> n = lhs >>> n ∧ narrow.flag .zero = wide.flag .zero ∧
      narrow.flag .negative = wide.flag .negative ∧ narrow.flag .overflow = b) ↔
      Alike lhs wide narrow := by
  have hzero : narrow.flag .zero = wide.flag .zero ↔ (narrow.value = 0#n → wide.value = 0#w) := by
    have hback : wide.value = 0#w → narrow.value = 0#n := fun h => by
      rw [← hvalue, h, BitVec.setWidth_zero]
    rw [FlagNode.flag, FlagNode.flag, Bool.eq_iff_iff, beq_iff_eq, beq_iff_eq]
    exact ⟨fun h => h.1, fun h => ⟨h, hback⟩⟩
  rw [hzero]
  constructor
  · rintro ⟨habove, hz, hsign, hoverflow⟩
    exact ⟨habove, hz, hsign, hoverflow.trans (hb habove)⟩
  · rintro ⟨habove, hz, hsign, hoverflow⟩
    exact ⟨habove, hz, hsign, hoverflow.trans (hb habove).symm⟩

end Alike

/-! ## The runs -/

section Run

variable (s : GuestState)

/-- The state with another operand in memory and other flags. -/
def GuestState.performed (value : BitVec n) (flags : FlagPort → Option (BitVec 8)) : GuestState :=
  { s.store value with flags }

theorem materialise_lockOp (op : LockOp) (lhs rhs : BitVec n) (p : FlagPort) :
    materialiseBinaryAtomic op.atomic rhs ⟨lhs, some (op.node lhs rhs).value⟩ p =
      some (zextBit ((op.node lhs rhs).flag p)) := by
  cases p with
  | zero => rfl
  | negative => exact congrArg (some ∘ zextBit) (icmp_slt_zero _)
  | carry =>
    cases op with
    | add => exact congrArg (some ∘ zextBit) (carry_add lhs rhs)
    | band | bor => rfl
  | overflow =>
    cases op with
    | add => exact congrArg some (overflow_add lhs rhs)
    | band | bor => rfl

/-- The flags of a logical operation that are set to zero are zero. -/
theorem translateBinop_lockOp (op : LockOp) (rhs : BitVec n) (regOff : Option ℕ) :
    translateBinop s op.atomic op.flagOps rhs regOff =
      .ok (s.performed (op.node (s.cell.setWidth n) rhs).value
        fun p => some (zextBit ((op.node (s.cell.setWidth n) rhs).flag p))) := by
  have hports := materialise_lockOp op (s.cell.setWidth n) rhs
  have hrun : translateBinop s op.atomic op.flagOps rhs regOff =
      .ok (writeFlags op.flagOps (materialiseBinaryAtomic op.atomic rhs
        ⟨s.cell.setWidth n, some (op.node (s.cell.setWidth n) rhs).value⟩)
          (s.store (op.node (s.cell.setWidth n) rhs).value)) := by
    cases op <;> rfl
  rw [hrun, funext hports]
  refine congrArg (fun f => Except.ok (s.performed _ f)) (funext fun p => ?_)
  cases op <;> cases p <;> rfl

/-- The flags of `INC` and `DEC`, and the overflow `b`. -/
def oneFlags (wide : FlagNode 64) (b : Bool) : FlagPort → Option (BitVec 8)
  | .zero => some (zextBit (wide.flag .zero))
  | .negative => some (zextBit (wide.flag .negative))
  | .carry => s.flags .carry
  | .overflow => some (zextBit b)

theorem translateBinop_inc :
    translateBinop s .add (flagOps .update .ignore .update .update) 1#64 none =
      .ok (s.performed (FlagNode.addSub .add s.cell 1#64).value
        (oneFlags s (.addSub .add s.cell 1#64) (s.cell.saddOverflow 1#64))) := by
  have hports := materialise_lockOp .add s.cell 1#64
  have hrun : translateBinop s .add (flagOps .update .ignore .update .update) 1#64 none =
      .ok (writeFlags (flagOps .update .ignore .update .update) (materialiseBinaryAtomic .add 1#64
        ⟨s.cell, some (s.cell + 1#64)⟩) (s.store (s.cell + 1#64))) := by
    rw [translateBinop, lowerBinaryAtomic, BitVec.setWidth_eq]
    rfl
  rw [hrun]
  refine congrArg (fun f => Except.ok (s.performed _ f)) (funext fun p => ?_)
  cases p with
  | zero => exact hports .zero
  | negative => exact hports .negative
  | overflow => exact hports .overflow
  | carry => rfl

/-- One is not negative, and what is left of a positive number is not negative either. -/
theorem atomicOverflow_sub_one (x y : BitVec 64) : atomicOverflow .sub x 1#64 y = 0 := by
  have hzero : (0 : BitVec 8) = zextBit false := by decide
  have hone : icmp .slt 1#64 0#64 = false := by decide
  rw [atomicOverflow, hzero, zextBit_inj, hone, Bool.false_and, Bool.and_false, Bool.or_false,
    ← BitVec.sub_eq_add_neg, icmp_sgt_zero, icmp_slt_zero]
  cases hx : x.msb with
  | true => rfl
  | false =>
    by_cases h0 : x = 0#64
    · subst h0
      rfl
    · rw [BitVec.msb_eq_decide, decide_eq_false_iff_not] at hx
      have hpos : x.toNat ≠ 0 := fun h => h0 (BitVec.eq_of_toNat_eq h)
      have hsub : (x - 1#64).msb = false := by
        rw [BitVec.msb_eq_decide, decide_eq_false_iff_not, BitVec.toNat_sub_of_le]
        · have hle : (x.toNat - (1#64).toNat) ≤ x.toNat := Nat.sub_le _ _
          omega
        · rw [BitVec.le_def]
          exact Nat.one_le_iff_ne_zero.2 hpos
      rw [hsub, Bool.and_false, Bool.and_false]

theorem translateBinop_dec :
    translateBinop s .sub (flagOps .update .ignore .update .update) 1#64 none =
      .ok (s.performed (FlagNode.addSub .sub s.cell 1#64).value
        (oneFlags s (.addSub .sub s.cell 1#64) false)) := by
  have hrun : translateBinop s .sub (flagOps .update .ignore .update .update) 1#64 none =
      .ok (writeFlags (flagOps .update .ignore .update .update) (materialiseBinaryAtomic .sub 1#64
        ⟨s.cell, some (s.cell - 1#64)⟩) (s.store (s.cell - 1#64))) := by
    rw [translateBinop, lowerBinaryAtomic, BitVec.setWidth_eq]
    rfl
  rw [hrun]
  refine congrArg (fun f => Except.ok (s.performed _ f)) (funext fun p => ?_)
  cases p with
  | zero => rfl
  | negative => exact congrArg (some ∘ zextBit) (icmp_slt_zero _)
  | overflow => exact congrArg some (atomicOverflow_sub_one _ _)
  | carry => rfl

theorem lowerBinaryAtomic_xchg (hn : n ≤ 64) (num : Fin 16) (rhs : BitVec n) :
    lowerBinaryAtomic .xchg rhs (some (xedregToOffset (.gpr num))) s =
      .ok (⟨s.cell.setWidth n, some rhs⟩, { s.store rhs with
        regs := s.regs.setGpr num (insertField (s.regs.gpr num) 0 n (s.cell.setWidth n)) }) := by
  simp only [lowerBinaryAtomic, storeSource, X86.writeReg_gpr_of_le hn, ok_bind]
  rfl

/-- What an exchange leaves in memory and in the register. -/
theorem translateSwap_xchg (reg : GprReg) :
    ∃ y, translateSwap s .xchg (flagOps .ignore .ignore .ignore .ignore) reg =
        .ok { s.store (AtomicInst.lowPart s reg) with
          regs := (s.regs.setGpr reg.num (insertField (s.regs.gpr reg.num) 0 reg.part.width
            (s.cell.setWidth reg.part.width))).setGpr reg.num y } ∧
      reg.Written (s.cell.setWidth reg.part.width) (insertField (s.regs.gpr reg.num) 0
        reg.part.width (s.cell.setWidth reg.part.width)) y := by
  have hle := (le_of_mem_gprWidths (mem_gprWidths reg)).2
  obtain ⟨y, hy, hwritten⟩ := GprReg.writeGpr_spec reg .unsignedInteger
    (s.cell.setWidth reg.part.width) (s.regs.setGpr reg.num (insertField (s.regs.gpr reg.num) 0
      reg.part.width (s.cell.setWidth reg.part.width)))
  rw [X86.gpr_setGpr] at hwritten
  refine ⟨y, ?_, hwritten⟩
  simp only [translateSwap, GprReg.readGpr_eq, ok_bind, GprReg.largest,
    lowerBinaryAtomic_xchg s hle, hy]
  refine congrArg Except.ok ?_
  rw [writeFlags]
  congr 1
  funext p
  cases p <;> rfl

/-- What a comparison leaves. The accumulator is written in any case. -/
theorem translateCmpxchg_eq (reg : GprReg) :
    translateCmpxchg s reg = .ok {
      regs := s.regs.setGpr 0 ((s.cell.setWidth reg.part.width).setWidth 64)
      cell := if (AtomicInst.cmpxchg reg).Equal s then
        insertField s.cell 0 reg.part.width (AtomicInst.lowPart s reg) else s.cell
      flags := fun p => some (if p = .zero then
        zextBit (decide ((AtomicInst.cmpxchg reg).Equal s)) else 0) } := by
  have hle := (le_of_mem_gprWidths (mem_gprWidths reg)).2
  have hoff : Reg.RAX.offset = xedregToOffset (.gpr 0) := by decide
  have hacc : readReg reg.part.width (xedregToOffset (.gpr 0)) s.regs =
      .ok ((s.regs.gpr 0).setWidth reg.part.width) := by
    rw [X86.readReg_gpr, X86.setWidth_gprReg _ _ hle]
  have hequal : icmp .eq (s.cell.setWidth reg.part.width)
      ((s.regs.gpr 0).setWidth reg.part.width) =
        decide ((AtomicInst.cmpxchg reg).Equal s) := rfl
  simp only [translateCmpxchg, hacc, ok_bind, GprReg.readGpr_eq, lowerCmpxchg, hoff,
    X86.writeReg_gpr, hequal, decide_eq_true_eq]
  refine congrArg Except.ok ?_
  rw [writeFlags]
  congr 1
  funext p
  cases p with
  | zero => exact Function.update_self FlagPort.zero _ s.flags
  | negative | overflow | carry => rfl

end Run

namespace AtomicInst

variable (s : GuestState)

theorem right_iff_of_run {inst : AtomicInst} {t : GuestState} (h : inst.run s = .ok t) :
    inst.Right s ↔ t.cell = insertField s.cell 0 inst.width (inst.newMemory s) ∧
      inst.RegsRight s t ∧ ∀ p, t.flags p = inst.newFlag s p := by
  constructor
  · rintro ⟨s', hs', hright⟩
    obtain rfl := Except.ok.inj (h.symm.trans hs')
    exact hright
  · intro hright
    exact ⟨t, h, hright⟩

/-- Operands with the same result have the same flags. -/
theorem flag_eq_of_value_eq (op : LockOp) {x y z : BitVec w}
    (h : (op.node x y).value = (op.node x z).value) (p : FlagPort) :
    (op.node x y).flag p = (op.node x z).flag p := by
  cases op with
  | add =>
    obtain rfl : y = z := (BitVec.add_right_inj x).1 h
    rfl
  | band | bor =>
    cases p with
    | zero => exact congrArg (· == 0) h
    | negative => exact congrArg BitVec.msb h
    | carry | overflow => rfl

theorem binop_reg_right_iff (op : LockOp) (reg : GprReg) :
    (binop op (.reg reg)).Right s ↔ (binop op (.reg reg)).fits s := by
  have hle := (le_of_mem_gprWidths (mem_gprWidths reg)).2
  have hread : (binop op (.reg reg)).run s =
      translateBinop s op.atomic op.flagOps (lowPart s reg) (Source.reg reg).regOff := by
    rw [run, Source.read, GprReg.readGpr_eq]
    rfl
  have hrun := hread.trans (translateBinop_lockOp s op (lowPart s reg) _)
  rw [right_iff_of_run s hrun]
  have hcell : (insertField s.cell 0 reg.part.width
      (op.node (s.cell.setWidth _) (lowPart s reg)).value = insertField s.cell 0 reg.part.width
        (op.node (s.cell.setWidth _) (reg.view (s.regs.gpr reg.num))).value) ↔ _ :=
    insertField_inj hle s.cell
  constructor
  · rintro ⟨hmem, -⟩ -
    exact hcell.1 hmem
  · intro hfits
    have hvalue : (op.node (s.cell.setWidth _) (lowPart s reg)).value =
        (op.node (s.cell.setWidth _) (reg.view (s.regs.gpr reg.num))).value := by
      by_cases hhigh : reg.part = .high
      · exact hfits hhigh
      · rw [GprReg.view_eq_setWidth hhigh]
    refine ⟨hcell.2 hvalue, rfl, fun p => ?_⟩
    exact congrArg (some ∘ zextBit) (flag_eq_of_value_eq op hvalue p)

/-- The operation on the low bits gives the low bits of the value. -/
theorem setWidth_value (op : LockOp) (hn : n ≤ w) (x : BitVec w) (y : BitVec n) :
    (op.node x (y.signExtend w)).value.setWidth n = (op.node (x.setWidth n) y).value := by
  have hy := setWidth_signExtend hn y
  cases op with
  | add => exact (BitVec.setWidth_add x _ hn).trans (congrArg (x.setWidth n + ·) hy)
  | band => exact BitVec.setWidth_and.trans (congrArg (x.setWidth n &&& ·) hy)
  | bor => exact BitVec.setWidth_or.trans (congrArg (x.setWidth n ||| ·) hy)

/-- No operation overflows that leaves what is above. -/
theorem overflow_eq_false (op : LockOp) (hn : n < w) {x y : BitVec w}
    (h : (op.node x y).value >>> n = x >>> n) : (op.node x y).overflow = false := by
  cases op with
  | add => exact saddOverflow_eq_false hn h
  | band | bor => rfl

/-- The carry is the same if what is above stays. -/
theorem carry_eq (op : LockOp) (hn : n < w) (cell : BitVec 64) (y : BitVec n)
    (h : (op.node (cell.setWidth w) (y.signExtend w)).value >>> n = cell.setWidth w >>> n) :
    (op.node (cell.setWidth n) y).carry =
      (op.node (cell.setWidth w) (y.signExtend w)).carry := by
  cases op with
  | add =>
    have hcarry := uaddOverflow_signExtend hn (cell.setWidth w) y h
    rwa [BitVec.setWidth_setWidth_of_le _ hn.le] at hcarry
  | band | bor => rfl

theorem binop_imm_right_iff (op : LockOp) (w : ℕ) (value : BitVec n) (h : 0 < n ∧ n ≤ w ∧ w ≤ 64) :
    (binop op (.imm w value h)).Right s ↔ (binop op (.imm w value h)).fits s := by
  have hrun : (binop op (.imm w value h)).run s = _ :=
    translateBinop_lockOp s op value none
  have hvalue : (op.node (s.cell.setWidth w) (value.signExtend w)).value.setWidth n =
      (op.node (s.cell.setWidth n) value).value := by
    rw [setWidth_value op h.2.1, BitVec.setWidth_setWidth_of_le _ h.2.1]
  have hright : (binop op (.imm w value h)).Right s ↔
      insertField s.cell 0 n (op.node (s.cell.setWidth n) value).value =
        insertField s.cell 0 w (op.node (s.cell.setWidth w) (value.signExtend w)).value ∧
      ∀ p, (op.node (s.cell.setWidth n) value).flag p =
        (op.node (s.cell.setWidth w) (value.signExtend w)).flag p := by
    rw [right_iff_of_run s hrun]
    refine and_congr Iff.rfl ((and_iff_right rfl).trans (forall_congr' fun p => ?_))
    exact (Option.some_inj.trans zextBit_inj)
  have hfits : (binop op (.imm w value h)).fits s ↔ (n < w → Alike (s.cell.setWidth w)
      (op.node (s.cell.setWidth w) (value.signExtend w)) (op.node (s.cell.setWidth n) value)) :=
    Iff.rfl
  rw [hright, hfits, ← hvalue, insertField_setWidth_eq_iff h.2.1 h.2.2]
  rcases h.2.1.lt_or_eq with hlt | rfl
  · rw [forall_prop_of_true hlt, ← alike_iff hvalue (overflow_eq_false op hlt)]
    refine and_congr_right fun habove =>
      ⟨fun hflags => ⟨hflags .zero, hflags .negative, hflags .overflow⟩, ?_⟩
    rintro ⟨hzero, hnegative, hoverflow⟩ p
    cases p with
    | zero => exact hzero
    | negative => exact hnegative
    | overflow => exact hoverflow
    | carry => exact carry_eq op hlt s.cell value habove
  · refine iff_of_true ⟨?_, fun p => ?_⟩ fun hlt => absurd hlt (Nat.lt_irrefl n)
    · rw [BitVec.ushiftRight_eq_zero le_rfl, BitVec.ushiftRight_eq_zero le_rfl]
    · rw [BitVec.signExtend_eq]

/-- `INC` and `DEC` write three flags and no register. -/
theorem one_right_iff {inst : AtomicInst} {wide : FlagNode 64} {b : Bool}
    (hrun : inst.run s = .ok (s.performed wide.value (oneFlags s wide b)))
    (hmem : inst.newMemory s = (inst.node s).value)
    (hregs : ∀ t, inst.RegsRight s t ↔ t.regs = s.regs)
    (hwrites : ∀ p, inst.writes p = decide (p ≠ .carry)) :
    inst.Right s ↔
      insertField s.cell 0 64 wide.value =
        insertField s.cell 0 inst.width (inst.node s).value ∧
      wide.flag .zero = (inst.node s).flag .zero ∧
      wide.flag .negative = (inst.node s).flag .negative ∧
      b = (inst.node s).flag .overflow := by
  have hsame : (s.performed wide.value (oneFlags s wide b)).regs = s.regs := rfl
  rw [right_iff_of_run s hrun, hmem, hregs, and_iff_right hsame]
  have hflag (x y : Bool) : some (zextBit x) = some (zextBit y) ↔ x = y :=
    Option.some_inj.trans zextBit_inj
  refine and_congr Iff.rfl ?_
  constructor
  · intro hflags
    have hport : ∀ p ≠ .carry, oneFlags s wide b p = some (zextBit ((inst.node s).flag p)) :=
      fun p hp => (hflags p).trans (if_pos ((hwrites p).trans (decide_eq_true hp)))
    exact ⟨(hflag _ _).1 (hport .zero nofun), (hflag _ _).1 (hport .negative nofun),
      (hflag _ _).1 (hport .overflow nofun)⟩
  · rintro ⟨hzero, hnegative, hoverflow⟩ p
    rw [newFlag, hwrites]
    cases p with
    | zero => exact (hflag _ _).2 hzero
    | negative => exact (hflag _ _).2 hnegative
    | overflow => exact (hflag _ _).2 hoverflow
    | carry => rfl

/-- An operation on 64 bits where one on `w` bits should be. -/
theorem one_right_iff_alike (hw : w < 64) {wide : FlagNode 64} {narrow : FlagNode w}
    (hvalue : wide.value.setWidth w = narrow.value) {b : Bool}
    (hb : wide.value >>> w = s.cell >>> w → b = false) :
    (insertField s.cell 0 64 wide.value = insertField s.cell 0 w narrow.value ∧
      wide.flag .zero = narrow.flag .zero ∧ wide.flag .negative = narrow.flag .negative ∧
      b = narrow.flag .overflow) ↔ Alike s.cell wide narrow := by
  have hcell := insertField_setWidth_eq_iff hw.le le_rfl s.cell wide.value
  rw [BitVec.setWidth_eq, hvalue] at hcell
  rw [← alike_iff hvalue hb, ← hcell, eq_comm (a := insertField s.cell 0 64 wide.value),
    eq_comm (a := wide.flag .zero), eq_comm (a := wide.flag .negative), eq_comm (a := b)]

theorem setWidth_add_one (hw : w ≤ 64) (x : BitVec 64) :
    (x + 1#64).setWidth w = x.setWidth w + 1#w := by
  rw [BitVec.setWidth_add _ _ hw, BitVec.setWidth_ofNat_of_le hw]

theorem setWidth_sub_one (hw : w ≤ 64) (x : BitVec 64) :
    (x - 1#64).setWidth w = x.setWidth w - 1#w := by
  rw [setWidth_sub hw, BitVec.setWidth_ofNat_of_le hw]

theorem inc_right_iff (h : w ∈ gprWidths) : (inc w h).Right s ↔ (inc w h).fits s := by
  obtain ⟨-, hle⟩ := le_of_mem_gprWidths h
  have hright := @one_right_iff s (inc w h) _ _ (translateBinop_inc s) rfl (fun _ => Iff.rfl)
    fun _ => rfl
  rw [hright, fits]
  rcases hle.lt_or_eq with hlt | rfl
  · rw [forall_prop_of_true hlt]
    exact @one_right_iff_alike w s hlt (.addSub .add s.cell 1#64) ((inc w h).node s)
      (setWidth_add_one hle s.cell) _ (saddOverflow_eq_false hlt)
  · have hnode : (inc 64 h).node s = .addSub .add s.cell 1#64 :=
      congrArg (FlagNode.addSub .add · 1#64) (BitVec.setWidth_eq s.cell)
    rw [hnode]
    exact iff_of_true ⟨rfl, rfl, rfl, rfl⟩ fun hlt => absurd hlt (Nat.lt_irrefl 64)

theorem ssubOverflow_one (x : BitVec 64) :
    x.ssubOverflow 1#64 = false ↔ x ≠ BitVec.intMin 64 := by
  have hone : (1#64).msb = false := by decide
  have hmin : x = BitVec.intMin 64 ↔ x.toNat = 2 ^ 63 :=
    ⟨fun h => by rw [h]; rfl, fun h => BitVec.eq_of_toNat_eq h⟩
  have hlt := x.isLt
  rw [BitVec.ssubOverflow_eq, hone, ne_eq, hmin, BitVec.msb_eq_decide, BitVec.msb_eq_decide,
    BitVec.toNat_sub]
  simp
  omega

theorem dec_right_iff (h : w ∈ gprWidths) : (dec w h).Right s ↔ (dec w h).fits s := by
  obtain ⟨-, hle⟩ := le_of_mem_gprWidths h
  have hright := @one_right_iff s (dec w h) _ _ (translateBinop_dec s) rfl (fun _ => Iff.rfl)
    fun _ => rfl
  rw [hright, fits]
  rcases hle.lt_or_eq with hlt | rfl
  · rw [if_pos hlt]
    exact @one_right_iff_alike w s hlt (.addSub .sub s.cell 1#64) ((dec w h).node s)
      (setWidth_sub_one hle s.cell) _ fun _ => rfl
  · have hnode : (dec 64 h).node s = .addSub .sub s.cell 1#64 :=
      congrArg (FlagNode.addSub .sub · 1#64) (BitVec.setWidth_eq s.cell)
    rw [hnode, if_neg (Nat.lt_irrefl 64), ← ssubOverflow_one]
    constructor
    · rintro ⟨-, -, -, hoverflow⟩
      exact hoverflow.symm
    · intro hoverflow
      exact ⟨rfl, rfl, rfl, hoverflow.symm⟩

/-- The ports of the flags have no value. -/
theorem flags_of_translateSwap_xadd {reg : GprReg} {s' : GuestState} (p : FlagPort)
    (h : translateSwap s .xadd (flagOps .update .update .update .update) reg = .ok s') :
    s'.flags p = none := by
  obtain ⟨src, -, hlower⟩ := bind_eq_ok.1 h
  obtain ⟨⟨res, s₁⟩, hres, hwrite⟩ := bind_eq_ok.1 hlower
  obtain ⟨regs, -, hflags⟩ := bind_eq_ok.1 hwrite
  obtain ⟨regs₁, -, hvalues⟩ := bind_eq_ok.1 hres
  obtain rfl := pure_eq_ok.1 hflags
  obtain ⟨rfl, -⟩ := Prod.mk.inj (pure_eq_ok.1 hvalues)
  cases p <;> rfl

theorem not_xadd_right (reg : GprReg) : ¬(xadd reg).Right s := by
  rintro ⟨s', hrun, -, -, hflags⟩
  have hnone := flags_of_translateSwap_xadd s .zero hrun
  rw [hflags .zero] at hnone
  cases hnone

/-- The register after a store of what was in memory and a write of it. -/
theorem written_iff (reg : GprReg) {old : BitVec reg.part.width} {x y : BitVec 64}
    (h : reg.Written old (insertField x 0 reg.part.width old) y) :
    reg.Written old x y ↔ (reg.part = .high → x.setWidth reg.part.width = old) := by
  have hle := reg.add_width_le
  constructor
  · intro hright hhigh
    refine BitVec.eq_of_getLsbD_eq fun i hi => ?_
    have hbit := (hright i (by omega)).symm.trans (h i (by omega))
    have hout : ¬(reg.part.start ≤ i ∧ i < reg.part.start + reg.part.width) := by
      rw [hhigh] at hi ⊢
      simp only [GprPart.start, GprPart.width] at hi ⊢
      omega
    have hne : decide (reg.part ≠ .dword) = true := by
      rw [hhigh]
      rfl
    rw [if_neg hout, if_neg hout, hne, Bool.true_and, Bool.true_and,
      getLsbD_insertField (by omega), if_pos (by omega), Nat.sub_zero] at hbit
    rw [BitVec.getLsbD_setWidth, decide_eq_true hi, Bool.true_and, hbit]
  · intro hfits i hi
    rw [h i hi]
    split_ifs with hin
    · rfl
    · rw [getLsbD_insertField hi, Nat.sub_zero]
      split_ifs with hlow
      · have hhigh : reg.part = .high := by
          by_contra hne
          rw [GprReg.start_eq_zero hne] at hin
          exact hin hlow
        have hbit := congrArg (BitVec.getLsbD · i) (hfits hhigh)
        simp only [BitVec.getLsbD_setWidth] at hbit
        rw [← hbit, decide_eq_true (show i < reg.part.width by omega), Bool.true_and]
      · rfl

/-- A register that is written as the low one is the same value unless it is a high byte. -/
theorem lowPart_eq_view_iff (reg : GprReg) :
    lowPart s reg = reg.view (s.regs.gpr reg.num) ↔
      (reg.part = .high → lowPart s reg = reg.view (s.regs.gpr reg.num)) := by
  refine ⟨fun h _ => h, fun h => ?_⟩
  by_cases hhigh : reg.part = .high
  · exact h hhigh
  · rw [GprReg.view_eq_setWidth hhigh]

theorem xchg_right_iff (reg : GprReg) : (xchg reg).Right s ↔ (xchg reg).fits s := by
  have hle := (le_of_mem_gprWidths (mem_gprWidths reg)).2
  obtain ⟨y, hrun, hwritten⟩ := translateSwap_xchg s reg
  have hvalue : (xchg reg).newMemory s = reg.view (s.regs.gpr reg.num) := BitVec.zero_add _
  have hmem : insertField s.cell 0 reg.part.width (lowPart s reg) =
      insertField s.cell 0 reg.part.width (reg.view (s.regs.gpr reg.num)) ↔ _ :=
    (insertField_inj hle s.cell).trans (lowPart_eq_view_iff s reg)
  have hframe (z : BitVec 64) : ∀ r ≠ gprReg reg.num,
      (s.regs.setGpr reg.num z).setGpr reg.num y r = s.regs r := fun r hr =>
    (Function.update_of_ne hr _ _).trans (Function.update_of_ne hr _ _)
  have hregs (z : BitVec 64) : Received reg (s.cell.setWidth _) s.regs
      ((s.regs.setGpr reg.num z).setGpr reg.num y) ↔
        reg.Written (s.cell.setWidth _) (s.regs.gpr reg.num) y := by
    rw [Received, X86.gpr_setGpr]
    exact and_iff_left (hframe z)
  rw [@right_iff_of_run s (xchg reg) _ hrun, hvalue]
  refine (and_congr hmem ((and_iff_left fun _ => rfl).trans
    ((hregs _).trans (written_iff reg hwritten)))).trans ?_
  exact ⟨fun h hhigh => ⟨h.1 hhigh, h.2 hhigh⟩,
    fun h => ⟨fun hhigh => (h hhigh).1, fun hhigh => (h hhigh).2⟩⟩

theorem setGpr_eq_self_iff (regs : CpuState) (num : Fin 16) (x : BitVec 64) :
    regs.setGpr num x = regs ↔ x = regs.gpr num := by
  constructor
  · intro h
    rw [← X86.gpr_setGpr regs num x, h]
  · rintro rfl
    have hfield : insertField (regs (gprReg num)) 0 64 (regs.gpr num) = regs (gprReg num) :=
      insertField_setWidth_self _ 64
    rw [CpuState.setGpr, hfield, Function.update_eq_self]

theorem width_accumulator (reg : GprReg) : (accumulator reg).part.width = reg.part.width := by
  obtain ⟨num, part, valid⟩ := reg
  cases part <;> rfl

theorem accumulator_not_high (reg : GprReg) : (accumulator reg).part ≠ .high := by
  obtain ⟨num, part, valid⟩ := reg
  cases part <;> nofun

theorem dword_accumulator_iff (reg : GprReg) :
    (accumulator reg).part = .dword ↔ reg.part = .dword := by
  obtain ⟨num, part, valid⟩ := reg
  cases part <;> exact ⟨fun h => by cases h <;> rfl, fun h => by cases h <;> rfl⟩

/-- What was in memory, extended with zeros, as the new content of the accumulator. -/
theorem received_accumulator_iff (reg : GprReg) (regs : CpuState) (cell : BitVec 64) :
    Received (accumulator reg) (cell.setWidth _) regs
        (regs.setGpr 0 ((cell.setWidth reg.part.width).setWidth 64)) ↔
      regs.gpr 0 >>> reg.part.width = 0 ∨ reg.part = .dword := by
  have hle := (le_of_mem_gprWidths (mem_gprWidths reg)).2
  have hframe : ∀ r ≠ gprReg (accumulator reg).num,
      regs.setGpr 0 ((cell.setWidth reg.part.width).setWidth 64) r = regs r := fun r hr =>
    Function.update_of_ne hr _ _
  have hnum : (accumulator reg).num = 0 := rfl
  have hvalue : cell.setWidth (accumulator reg).part.width =
      ((cell.setWidth reg.part.width).setWidth 64).setWidth (accumulator reg).part.width := by
    rw [width_accumulator, BitVec.setWidth_setWidth_of_le _ hle, BitVec.setWidth_eq]
  have habove : ((cell.setWidth reg.part.width).setWidth 64) >>> reg.part.width = 0 := by
    rw [ushiftRight_eq_zero_iff, toNat_setWidth_of_le hle]
    exact BitVec.isLt _
  rw [Received, and_iff_left hframe, hnum, X86.gpr_setGpr, hvalue,
    GprReg.written_setWidth_iff (accumulator_not_high reg), GprReg.leaFits, width_accumulator,
    habove]
  by_cases hdword : reg.part = .dword
  · rw [if_pos ((dword_accumulator_iff reg).2 hdword)]
    exact iff_of_true rfl (Or.inr hdword)
  · rw [if_neg fun h => hdword ((dword_accumulator_iff reg).1 h), or_iff_left hdword, eq_comm]

theorem cmpxchg_memory_iff (reg : GprReg) :
    (if (cmpxchg reg).Equal s then insertField s.cell 0 reg.part.width (lowPart s reg)
      else s.cell) = insertField s.cell 0 reg.part.width ((cmpxchg reg).newMemory s) ↔
        ((cmpxchg reg).Equal s → reg.part = .high →
          lowPart s reg = reg.view (s.regs.gpr reg.num)) := by
  have hle := (le_of_mem_gprWidths (mem_gprWidths reg)).2
  by_cases hequal : (cmpxchg reg).Equal s
  · have hnew : (cmpxchg reg).newMemory s = reg.view (s.regs.gpr reg.num) := if_pos hequal
    rw [if_pos hequal, hnew, forall_prop_of_true hequal]
    exact (insertField_inj hle s.cell).trans (lowPart_eq_view_iff s reg)
  · have hnew : (cmpxchg reg).newMemory s = s.cell.setWidth reg.part.width := if_neg hequal
    rw [if_neg hequal, hnew]
    exact iff_of_true (insertField_setWidth_self s.cell _).symm fun h => absurd h hequal

theorem cmpxchg_regs_iff (reg : GprReg) {t : GuestState}
    (ht : t.regs = s.regs.setGpr 0 ((s.cell.setWidth reg.part.width).setWidth 64)) :
    (cmpxchg reg).RegsRight s t ↔
      (s.regs.gpr 0 >>> reg.part.width = 0 ∨ (reg.part = .dword ∧ ¬(cmpxchg reg).Equal s)) := by
  have hle := (le_of_mem_gprWidths (mem_gprWidths reg)).2
  by_cases hequal : (cmpxchg reg).Equal s
  · have hregs : (cmpxchg reg).RegsRight s t ↔ t.regs = s.regs := iff_of_eq (if_pos hequal)
    have hold : s.cell.setWidth reg.part.width = (s.regs.gpr 0).setWidth reg.part.width := hequal
    rw [hregs, ht, setGpr_eq_self_iff, hold, setWidth_setWidth_eq_self_iff hle]
    exact (or_iff_left fun h => h.2 hequal).symm
  · have hregs : (cmpxchg reg).RegsRight s t ↔
        Received (accumulator reg) (s.cell.setWidth _) s.regs t.regs := iff_of_eq (if_neg hequal)
    rw [hregs, ht, received_accumulator_iff, and_iff_left hequal]

/-- The zero flag tells whether the exchange took place, and the others are zero. -/
theorem cmpxchg_flags_iff (reg : GprReg) :
    (∀ p, (some (if p = .zero then zextBit (decide ((cmpxchg reg).Equal s)) else 0) :
      Option (BitVec 8)) = (cmpxchg reg).newFlag s p) ↔
        ∀ p ≠ .zero, ((cmpxchg reg).node s).flag p = false := by
  refine forall_congr' fun p => ?_
  have hnew : (cmpxchg reg).newFlag s p = some (zextBit (((cmpxchg reg).node s).flag p)) := rfl
  rw [hnew, Option.some_inj]
  by_cases hp : p = .zero
  · subst hp
    have hzero : ((cmpxchg reg).node s).flag .zero = decide ((cmpxchg reg).Equal s) := by
      have hsub (x y : BitVec reg.part.width) : (x - y == 0#_) = decide (y = x) := by
        rw [Bool.eq_iff_iff, beq_iff_eq, decide_eq_true_eq, BitVec.sub_eq_iff_eq_add,
          BitVec.zero_add, eq_comm]
      exact hsub _ _
    rw [if_pos rfl, hzero]
    exact iff_of_true rfl fun h => absurd rfl h
  · rw [if_neg hp, zero_eq_zextBit_iff]
    exact (imp_iff_right hp).symm

theorem cmpxchg_right_iff (reg : GprReg) : (cmpxchg reg).Right s ↔ (cmpxchg reg).fits s := by
  rw [@right_iff_of_run s (cmpxchg reg) _ (translateCmpxchg_eq s reg)]
  exact and_congr (cmpxchg_memory_iff s reg)
    (and_congr (cmpxchg_regs_iff s reg rfl) (cmpxchg_flags_iff s reg))

/-- What the code leaves is right exactly if the instruction fits. -/
theorem lock_right_iff (inst : AtomicInst) : inst.Right s ↔ inst.fits s := by
  cases inst with
  | binop op src =>
    cases src with
    | reg reg => exact binop_reg_right_iff s op reg
    | imm w value h => exact binop_imm_right_iff s op w value h
  | inc w h => exact inc_right_iff s h
  | dec w h => exact dec_right_iff s h
  | xadd reg => exact iff_of_false (not_xadd_right s reg) id
  | xchg reg => exact xchg_right_iff s reg
  | cmpxchg reg => exact cmpxchg_right_iff s reg

/-- Registers with a bit above `EAX`, and nothing in memory. -/
def aboveEax : GuestState where
  regs _ := 0x100000000
  cell := 0
  flags _ := some 0

/-- `CMPXCHG` with `ECX`. The exchange takes place, and what is above `EAX` is lost. -/
theorem not_lock_right : ¬(cmpxchg ⟨1, .dword, nofun⟩).Right aboveEax := by
  intro h
  obtain ⟨-, habove | ⟨-, hfailed⟩, -⟩ := (cmpxchg_right_iff _ _).1 h
  · exact absurd habove (by decide +kernel)
  · exact hfailed (by decide +kernel)

end AtomicInst

end Arancini.Llvm
