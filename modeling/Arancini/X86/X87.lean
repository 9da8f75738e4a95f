import Mathlib.Algebra.Group.Fin.Basic
import Arancini.X86.Mov

/-!
# The x87 stack

The eight slots of the stack are words in memory, from `X87_STACK_BASE` on. `TOP` in the status word
has the number of the slot of `ST(0)`, and the tag word has two bits for each slot, which are both
set if the slot is empty. The functions of the translator address a register of the stack through
`TOP` when the packet runs.

The instructions are those that load, store, exchange and pop, with the arithmetic that may pop. A
value on the stack is a double. What the conversions, the arithmetic and the comparisons of these
compute is left open, but for the format of 80 bits.

A `Stack` is what the instructions are about. `stack_follows_iff` says for which runs the stack of
the state is the one that the instructions make : no push goes to a slot with a value, `FST ST(i)`
does not change whether `ST(i)` has one, as its tag is not set, and the stores to memory leave the
slots alone.
-/

namespace Arancini.X86.X87

open Ir

/-- The functions on doubles : the conversions, the arithmetic and the comparisons. -/
structure Functions extends FpFunctions where
  cmpgt : BitVec 64 → BitVec 64 → Bool
  cmpeq : BitVec 64 → BitVec 64 → Bool

/-! ## The functions of the translator -/

def readReg (w : ℕ) (r : Reg) (s : CpuMem) : BitVec w :=
  (s.regs r).setWidth w

def writeReg {w : ℕ} (r : Reg) (value : BitVec w) (s : CpuMem) : CpuMem :=
  { s with regs := Function.update s.regs r (insertField (s.regs r) 0 w value) }

def readMem (len : ℕ) (addr : BitVec 64) (s : CpuMem) : BitVec (8 * len) :=
  BitVec.ofNat _ (Guest.load s.mem addr.toNat len)

def writeMem {w : ℕ} (addr : BitVec 64) (value : BitVec w) (s : CpuMem) : CpuMem :=
  { s with mem := Guest.store s.mem addr.toNat value.toNat (w / 8) }

/-- `fpu_compute_stack_index`. -/
def fpuComputeStackIndex (stackIdx : ℕ) (s : CpuMem) : BitVec 64 :=
  let x87Status := readReg 16 .X87_STS s
  let top := (x87Status.extractLsb' 11 3).setWidth 64
  if stackIdx ≠ 0 then (top + BitVec.ofNat 64 stackIdx) % 8 else top

/-- `fpu_compute_stack_addr`. -/
def fpuComputeStackAddr (stackIdx : ℕ) (s : CpuMem) : BitVec 64 :=
  readReg 64 .X87_STACK_BASE s + fpuComputeStackIndex stackIdx s * 8

/-- `fpu_stack_get`. -/
def fpuStackGet (stackIdx : ℕ) (s : CpuMem) : BitVec 64 :=
  readMem 8 (fpuComputeStackAddr stackIdx s) s

/-- `fpu_stack_set`. -/
def fpuStackSet (stackIdx : ℕ) (val : BitVec 64) (s : CpuMem) : CpuMem :=
  writeMem (fpuComputeStackAddr stackIdx s) val s

/-- `fpu_tag_get`. -/
def fpuTagGet (stackIdx : ℕ) (s : CpuMem) : BitVec 16 :=
  (readReg 16 .X87_TAG s >>> (fpuComputeStackIndex stackIdx s <<< 1)) &&& 0b11

/-- `fpu_tag_set`. -/
def fpuTagSet (stackIdx : ℕ) (val : BitVec 16) (s : CpuMem) : CpuMem :=
  let shiftAmount := fpuComputeStackIndex stackIdx s <<< 1
  let clearMask := ~~~(0b11#16 <<< shiftAmount)
  let x87Tag := readReg 16 .X87_TAG s &&& clearMask
  writeReg .X87_TAG (x87Tag ||| val <<< shiftAmount) s

/-- `fpu_stack_index_move`, by 1 or -1. -/
def fpuStackIndexMove (val : ℤ) (s : CpuMem) : CpuMem :=
  let x87Status := readReg 16 .X87_STS s
  let top := (x87Status.extractLsb' 11 3).setWidth 8
  let top := (top + BitVec.ofInt 8 val) &&& 0b111
  writeReg .X87_STS (insertField x87Status 11 3 top) s

/-- `SET_C1_BIT`. -/
def setC1Bit (bit : BitVec 16) (s : CpuMem) : CpuMem :=
  writeReg .X87_STS (insertField (readReg 16 .X87_STS s) 9 1 bit) s

/-- The value that is pushed when there is no empty slot. -/
def overflowVal : BitVec 64 :=
  0xFFF8000000000000

/-- `fpu_push`. The tag of a slot that has a number is 0, or 1 if that is zero. -/
def fpuPush (val : BitVec 64) (s : CpuMem) : CpuMem :=
  let empty := fpuTagGet 7 s = 0b11
  let tagDefault : BitVec 16 := if val &&& 0x7FFFFFFFFFFFFFFF = 0 then 1 else 0
  let s := fpuTagSet 7 (if empty then tagDefault else 0b10) s
  let s := fpuStackSet 7 (if empty then val else overflowVal) s
  let s := setC1Bit (if empty then 0 else 1) s
  fpuStackIndexMove (-1) s

/-- `fpu_pop`. -/
def fpuPop (s : CpuMem) : CpuMem :=
  fpuStackIndexMove 1 (fpuTagSet 0 0b11 s)

def fpuPopIf (pop : Bool) (s : CpuMem) : CpuMem :=
  if pop then fpuPop s else s

/-! ## The format of 80 bits -/

/-- `FLD`, from 80 bits. -/
def fldM80 (val : BitVec 80) : BitVec 64 :=
  let signS := val.extractLsb' 78 2
  let exponent := val.extractLsb' 64 10
  let frac := val.extractLsb' 11 52
  insertField (insertField (insertField 0 62 2 signS) 52 10 exponent) 0 52 frac

/-- `FSTP`, to 80 bits. -/
def fstM80 (st0 : BitVec 64) : BitVec 80 :=
  let frac := ((st0 &&& 0x000FFFFFFFFFFFFF) <<< 11).setWidth 80
  let exponent := (st0 &&& 0x3FF0000000000000).setWidth 80 <<< 12
  let st0 := (st0 &&& 0xC000000000000000).setWidth 80 <<< 16
  st0 ||| frac ||| exponent

/-! ## The instructions -/

instance neZero_fprs : NeZero 8 :=
  ⟨by decide⟩

/-- An operand that is read, with the number of its bytes if it is an integer. -/
inductive Source
  | st (i : Fin 8)
  | m32 (addr : BitVec 64)
  | m64 (addr : BitVec 64)
  | m80 (addr : BitVec 64)
  | int (bytes : ℕ) (addr : BitVec 64)

/-- An operand that is written. -/
inductive Dest
  | st (i : Fin 8)
  | m32 (addr : BitVec 64)
  | m64 (addr : BitVec 64)
  | m80 (addr : BitVec 64)

/-- The instructions. The integer instructions are the others with an integer operand, the
comparisons have the number of their pops, and the arithmetic may have its operands reversed. -/
inductive Inst
  | fld (src : Source)
  | fldConst (val : BitVec 64)
  | fild (bytes : ℕ) (addr : BitVec 64)
  | fst (pop : Bool) (dst : Dest)
  | fist (pop : Bool) (bytes : ℕ) (addr : BitVec 64)
  | fxch (j : Fin 8)
  | fcom (src : Source) (pops : Fin 3)
  | fcomi (i : Fin 8) (pop : Bool)
  | arith (op : FpOp) (reverse : Bool) (idx : Fin 8) (src : Source) (pop : Bool)
  | fincstp
  | fdecstp
  | ffree (i : Fin 8)

section Functions

variable (F : Functions)

/-- The operand as a double, where `stack` has the registers of the stack. -/
def Source.toDouble (stack : Fin 8 → BitVec 64) (s : CpuMem) : Source → BitVec 64
  | st i => stack i
  | m32 addr => F.convert .none .floatingPoint .floatingPoint 64 (readMem 4 addr s)
  | m64 addr => readMem 8 addr s
  | m80 addr => fldM80 (readMem 10 addr s)
  | int bytes addr => F.convert .none .signedInteger .floatingPoint 64 (readMem bytes addr s)

/-- `read_operand` and the conversion. -/
def Source.read (s : CpuMem) (src : Source) : BitVec 64 :=
  src.toDouble F (fun i => fpuStackGet i s) s

/-- The conversion and `write_operand`. The tag of a register is not set : the branch that does it
is for operands that are immediates. -/
def Dest.write (st0 : BitVec 64) (s : CpuMem) : Dest → CpuMem
  | st i => fpuStackSet i st0 s
  | m32 addr => writeMem addr (F.convert .none .floatingPoint .floatingPoint 32 st0) s
  | m64 addr => writeMem addr st0 s
  | m80 addr => writeMem addr (fstM80 st0) s

/-- What the arithmetic computes of the operand that is written and the other one. -/
def Functions.compute (op : FpOp) (reverse : Bool) (val0 val1 : BitVec 64) : BitVec 64 :=
  if reverse then F.arith op val1 val0 else F.arith op val0 val1

namespace Inst

/-- `do_translate` of `fpu_translator`, and what its packet does. -/
def exec (s : CpuMem) : Inst → CpuMem
  | fld src => fpuPush (src.read F s) s
  | fldConst val => fpuPush val (setC1Bit 0 s)
  | fild bytes addr => fpuPush ((Source.int bytes addr).read F s) (setC1Bit 0 s)
  | fst pop dst => fpuPopIf pop (dst.write F (fpuStackGet 0 s) s)
  | fist pop bytes addr =>
    let val := F.convert .none .floatingPoint .signedInteger (8 * bytes) (fpuStackGet 0 s)
    fpuPopIf pop (setC1Bit 0 (writeMem addr val s))
  | fxch j =>
    let st0 := fpuStackGet 0 s
    let sti := fpuStackGet j s
    let tag0 := fpuTagGet 0 s
    let tagi := fpuTagGet j s
    let s := fpuStackSet j st0 (fpuStackSet 0 sti s)
    setC1Bit 0 (fpuTagSet j tag0 (fpuTagSet 0 tagi s))
  | fcom src pops =>
    let st0 := fpuStackGet 0 s
    let src := src.read F s
    let sts := readReg 16 .X87_STS s &&& 0xB8FF
    let sts := insertField sts 8 1 (BitVec.ofBool (F.cmpgt src st0))
    let sts := insertField sts 14 1 (BitVec.ofBool (F.cmpeq src st0))
    fpuPop^[pops] (writeReg .X87_STS sts s)
  | fcomi i pop =>
    let st0 := fpuStackGet 0 s
    let sti := fpuStackGet i s
    let s := writeReg .ZF (BitVec.ofBool (F.cmpeq sti st0)) s
    let s := writeReg .CF (BitVec.ofBool (F.cmpgt sti st0)) s
    fpuPopIf pop (writeReg .PF 0#1 s)
  | arith op reverse idx src pop =>
    let val0 := F.compute op reverse (fpuStackGet idx s) (src.read F s)
    fpuPopIf pop (fpuTagSet idx 0b00 (fpuStackSet idx val0 s))
  | fincstp => setC1Bit 0 (fpuStackIndexMove 1 s)
  | fdecstp => setC1Bit 0 (fpuStackIndexMove (-1) s)
  | ffree i => fpuTagSet i 0b11 s

end Inst

end Functions

/-! ## The stack -/

/-- The stack : `TOP`, what is in `ST(i)`, and whether that holds a value. -/
@[ext]
structure Stack where
  top : Fin 8
  st : Fin 8 → BitVec 64
  holds : Fin 8 → Bool

namespace Stack

/-- `ST(i + 1)` is the old `ST(i)`. -/
def push (val : BitVec 64) (a : Stack) : Stack where
  top := a.top - 1
  st i := if i = 0 then val else a.st (i - 1)
  holds i := if i = 0 then true else a.holds (i - 1)

/-- `TOP` moves on. -/
def rotate (a : Stack) : Stack where
  top := a.top + 1
  st i := a.st (i + 1)
  holds i := a.holds (i + 1)

/-- `TOP` moves back. -/
def rotateBack (a : Stack) : Stack where
  top := a.top - 1
  st i := a.st (i - 1)
  holds i := a.holds (i - 1)

def setSt (i : Fin 8) (val : BitVec 64) (a : Stack) : Stack :=
  ⟨a.top, Function.update a.st i val, a.holds⟩

def setHolds (i : Fin 8) (b : Bool) (a : Stack) : Stack :=
  ⟨a.top, a.st, Function.update a.holds i b⟩

def free (i : Fin 8) (a : Stack) : Stack :=
  a.setHolds i false

/-- `ST(i)` is the old `ST(i + 1)`, and the slot of the old `ST(0)` is empty. -/
def pop (a : Stack) : Stack :=
  (a.free 0).rotate

def popIf (b : Bool) (a : Stack) : Stack :=
  if b then a.pop else a

/-- A value, or none, in `ST(i)`. -/
def put (i : Fin 8) (val : BitVec 64) (holds : Bool) (a : Stack) : Stack :=
  (a.setSt i val).setHolds i holds

def exchange (j : Fin 8) (a : Stack) : Stack :=
  ⟨a.top, a.st ∘ Equiv.swap 0 j, a.holds ∘ Equiv.swap 0 j⟩

end Stack

/-- The slot of `ST(0)`. -/
def top (s : CpuMem) : Fin 8 :=
  ((readReg 16 .X87_STS s).extractLsb' 11 3).toFin

def slotAddr (k : Fin 8) (s : CpuMem) : BitVec 64 :=
  readReg 64 .X87_STACK_BASE s + BitVec.ofNat 64 (8 * k)

def slot (k : Fin 8) (s : CpuMem) : BitVec 64 :=
  readMem 8 (slotAddr k s) s

def tag (k : Fin 8) (s : CpuMem) : BitVec 2 :=
  (readReg 16 .X87_TAG s).extractLsb' (2 * k) 2

/-- The stack of a state. -/
def stack (s : CpuMem) : Stack where
  top := top s
  st i := slot (top s + i) s
  holds i := tag (top s + i) s != 0b11

section Functions

variable (F : Functions)

namespace Inst

/-- What the instruction makes of the stack `a`. -/
def effect (s : CpuMem) (a : Stack) : Inst → Stack
  | fld src => a.push (src.toDouble F a.st s)
  | fldConst val => a.push val
  | fild bytes addr => a.push ((Source.int bytes addr).toDouble F a.st s)
  | fst pop (.st i) => (a.put i (a.st 0) (a.holds 0)).popIf pop
  | fst pop _ => a.popIf pop
  | fist pop _ _ => a.popIf pop
  | fxch j => a.exchange j
  | fcom _ pops => Stack.pop^[pops] a
  | fcomi _ pop => a.popIf pop
  | arith op reverse idx src pop =>
    (a.put idx (F.compute op reverse (a.st idx) (src.toDouble F a.st s)) true).popIf pop
  | fincstp => a.rotate
  | fdecstp => a.rotateBack
  | ffree i => a.free i

/-- The instruction does to the stack what it is to do. -/
def Right (inst : Inst) (s : CpuMem) : Prop :=
  stack (inst.exec F s) = inst.effect F s (stack s)

/-- From the state `s` with the stack `a` on, the stack is as it should be after each
instruction. -/
def Follows : List Inst → CpuMem → Stack → Prop
  | [], s, a => stack s = a
  | inst :: insts, s, a => stack s = a ∧ Follows insts (inst.exec F s) (inst.effect F s a)

end Inst

end Functions

/-! ## Registers and memory -/

variable {s : CpuMem} {w : ℕ}

theorem readReg_writeReg_self (hw : w ≤ 512) (r : Reg) (value : BitVec w) :
    readReg w r (writeReg r value s) = value := by
  have hregs : (writeReg r value s).regs r = insertField (s.regs r) 0 w value :=
    Function.update_self ..
  rw [readReg, hregs, setWidth_insertField hw, insertField_all]

theorem readReg_writeReg_of_ne {r r' : Reg} (h : r' ≠ r) (value : BitVec w) (k : ℕ) :
    readReg k r' (writeReg r value s) = readReg k r' s :=
  congrArg (BitVec.setWidth k) (Function.update_of_ne h _ _)

theorem readMem_writeMem_self {len : ℕ} (hlen : len ≤ 2 ^ 64) (addr : BitVec 64)
    (value : BitVec (8 * len)) : readMem len addr (writeMem addr value s) = value := by
  have hpow : 256 ^ len = 2 ^ (8 * len) := by
    rw [pow_mul]
    rfl
  have hdiv : 8 * len / 8 = len := Nat.mul_div_cancel_left len (by decide)
  refine BitVec.eq_of_toNat_eq ?_
  rw [readMem, writeMem, hdiv, Guest.load_store_self hlen, hpow, Nat.mod_eq_of_lt value.isLt,
    BitVec.toNat_ofNat]
  exact Nat.mod_eq_of_lt value.isLt

/-! ## The slots -/

theorem slotAddr_toNat (k : Fin 8) (s : CpuMem) :
    (slotAddr k s).toNat = ((readReg 64 .X87_STACK_BASE s).toNat + 8 * k) % 2 ^ 64 := by
  rw [slotAddr, BitVec.toNat_add, BitVec.toNat_ofNat, Nat.add_mod_mod]

theorem slot_writeMem_self (k : Fin 8) (value : BitVec 64) :
    slot k (writeMem (slotAddr k s) value s) = value :=
  @readMem_writeMem_self s 8 (by decide) (slotAddr k s) value

/-- The slots are apart. -/
theorem slot_writeMem_of_ne {j k : Fin 8} (h : j ≠ k) (value : BitVec 64) :
    slot j (writeMem (slotAddr k s) value s) = slot j s := by
  have hne : (j : ℕ) ≠ k := fun heq => h (Fin.ext heq)
  have hj := j.isLt
  have hk := k.isLt
  refine congrArg (BitVec.ofNat _) (load_store _ fun i hi i' hi' => ?_)
  change ((slotAddr k s).toNat + i) % 2 ^ 64 ≠ ((slotAddr j s).toNat + i') % 2 ^ 64
  rw [slotAddr_toNat, slotAddr_toNat]
  omega

/-! ## The functions of the translator -/

theorem fpuComputeStackIndex_toNat (i : Fin 8) (s : CpuMem) :
    (fpuComputeStackIndex i s).toNat = (top s + i : Fin 8).val := by
  have hi := i.isLt
  have htop : ((readReg 16 .X87_STS s).extractLsb' 11 3).toNat = (top s).val := rfl
  have hlt := (top s).isLt
  rw [fpuComputeStackIndex, Fin.val_add]
  split_ifs with h
  · rw [BitVec.toNat_umod, BitVec.toNat_add, BitVec.toNat_setWidth, BitVec.toNat_ofNat, htop]
    have hmod : (8 : BitVec 64).toNat = 8 := rfl
    rw [hmod]
    omega
  · rw [BitVec.toNat_setWidth, htop]
    omega

theorem fpuComputeStackAddr_eq (i : Fin 8) (s : CpuMem) :
    fpuComputeStackAddr i s = slotAddr (top s + i) s := by
  have hidx := fpuComputeStackIndex_toNat i s
  refine congrArg (readReg 64 .X87_STACK_BASE s + ·) (BitVec.eq_of_toNat_eq ?_)
  rw [BitVec.toNat_mul, hidx, BitVec.toNat_ofNat, Nat.mul_comm]
  rfl

/-- The two bits of a tag. -/
theorem shiftAmount_toNat (i : Fin 8) (s : CpuMem) :
    (fpuComputeStackIndex i s <<< 1).toNat = 2 * (top s + i : Fin 8).val := by
  have hlt := (top s + i : Fin 8).isLt
  rw [BitVec.toNat_shiftLeft, fpuComputeStackIndex_toNat, Nat.shiftLeft_eq]
  omega

theorem fpuStackGet_eq (i : Fin 8) (s : CpuMem) : fpuStackGet i s = (stack s).st i := by
  rw [fpuStackGet, fpuComputeStackAddr_eq]
  rfl

theorem fpuTagGet_eq (i : Fin 8) (s : CpuMem) :
    fpuTagGet i s = (tag (top s + i) s).setWidth 16 := by
  have hthree : ∀ j : Fin 16, (3#16).getLsbD j = decide (j.val < 2) := by decide
  rw [fpuTagGet, BitVec.ushiftRight_eq', shiftAmount_toNat, tag]
  refine BitVec.eq_of_getLsbD_eq fun j hj => ?_
  rw [BitVec.getLsbD_and, BitVec.getLsbD_ushiftRight, BitVec.getLsbD_setWidth,
    BitVec.getLsbD_extractLsb', decide_eq_true hj, Bool.true_and, Bool.and_comm]
  exact congrArg (· && _) (hthree ⟨j, hj⟩)

/-- A slot is empty if the tag that is read has both bits. -/
theorem fpuTagGet_eq_three_iff (i : Fin 8) (s : CpuMem) :
    fpuTagGet i s = 0b11 ↔ (stack s).holds i = false := by
  have hthree : ∀ t : BitVec 2, t.setWidth 16 = 0b11 ↔ t = 0b11 := by decide
  rw [fpuTagGet_eq, hthree, stack, bne_eq_false_iff_eq]

/-! ## What the functions do to the stack -/

/-- The stack is made of the status word, the tag word and the slots. -/
theorem stack_congr {s' : CpuMem} (hsts : top s' = top s)
    (htag : readReg 16 .X87_TAG s' = readReg 16 .X87_TAG s) (hslot : ∀ k, slot k s' = slot k s) :
    stack s' = stack s := by
  simp only [stack, hsts, hslot, tag, htag]

theorem slot_writeReg {r : Reg} (h : .X87_STACK_BASE ≠ r) (value : BitVec w) (k : Fin 8) :
    slot k (writeReg r value s) = slot k s := by
  rw [slot, slotAddr, readReg_writeReg_of_ne h]
  rfl

/-- A register that is not one of the stack's. -/
theorem stack_writeReg {r : Reg} (h : r ∉ [.X87_STACK_BASE, .X87_STS, .X87_TAG])
    (value : BitVec w) : stack (writeReg r value s) = stack s := by
  simp only [List.mem_cons, List.not_mem_nil, or_false, not_or] at h
  obtain ⟨hbase, hsts, htag⟩ := h
  refine stack_congr ?_ (readReg_writeReg_of_ne (Ne.symm htag) ..) (slot_writeReg (Ne.symm hbase) _)
  rw [top, readReg_writeReg_of_ne (Ne.symm hsts), top]

theorem top_writeReg_sts (sts : BitVec 16) :
    top (writeReg .X87_STS sts s) = (sts.extractLsb' 11 3).toFin := by
  rw [top, readReg_writeReg_self (by decide)]

/-- A status word with the same `TOP`. -/
theorem stack_writeReg_sts {sts : BitVec 16}
    (h : sts.extractLsb' 11 3 = (readReg 16 .X87_STS s).extractLsb' 11 3) :
    stack (writeReg .X87_STS sts s) = stack s := by
  refine stack_congr ?_ (readReg_writeReg_of_ne (by decide) ..) (slot_writeReg (by decide) _)
  rw [top_writeReg_sts, h, top]

theorem stack_setC1Bit (bit : BitVec 16) : stack (setC1Bit bit s) = stack s := by
  refine stack_writeReg_sts ?_
  refine BitVec.eq_of_getLsbD_eq fun i hi => ?_
  rw [BitVec.getLsbD_extractLsb', BitVec.getLsbD_extractLsb', getLsbD_insertField (by omega),
    if_neg (by omega)]

/-- Another `TOP`. -/
theorem stack_writeReg_top {sts : BitVec 16} {t : Fin 8}
    (h : (sts.extractLsb' 11 3).toFin = top s + t) :
    stack (writeReg .X87_STS sts s) =
      ⟨top s + t, fun i => (stack s).st (t + i), fun i => (stack s).holds (t + i)⟩ := by
  have htop : top (writeReg .X87_STS sts s) = top s + t := (top_writeReg_sts sts).trans h
  have htag : readReg 16 .X87_TAG (writeReg .X87_STS sts s) = readReg 16 .X87_TAG s :=
    readReg_writeReg_of_ne (by decide) ..
  have hslot (k : Fin 8) : slot k (writeReg .X87_STS sts s) = slot k s :=
    slot_writeReg (by decide) _ _
  simp only [stack, htop, hslot, tag, htag, add_assoc]

theorem stack_fpuStackIndexMove_one : stack (fpuStackIndexMove 1 s) = (stack s).rotate := by
  have hnext : ∀ t : BitVec 3,
      (((t.setWidth 8 + BitVec.ofInt 8 1) &&& 0b111).setWidth 3).toFin = t.toFin + 1 := by decide
  rw [fpuStackIndexMove, stack_writeReg_top (t := 1) ?_]
  · simp only [Stack.rotate, add_comm (1 : Fin 8)]
    rfl
  · rw [extract_insertField (by decide), hnext]
    rfl

theorem stack_fpuStackIndexMove_neg_one :
    stack (fpuStackIndexMove (-1) s) = (stack s).rotateBack := by
  have hnext : ∀ t : BitVec 3,
      (((t.setWidth 8 + BitVec.ofInt 8 (-1)) &&& 0b111).setWidth 3).toFin = t.toFin + (-1) := by
    decide
  rw [fpuStackIndexMove, stack_writeReg_top (t := -1) ?_]
  · simp only [Stack.rotateBack, add_comm (-1 : Fin 8), ← sub_eq_add_neg]
    rfl
  · rw [extract_insertField (by decide), hnext]
    rfl

theorem stack_fpuStackSet (i : Fin 8) (val : BitVec 64) :
    stack (fpuStackSet i val s) = (stack s).setSt i val := by
  have hslot (j : Fin 8) : slot (top s + j) (fpuStackSet i val s) =
      Function.update (stack s).st i val j := by
    rw [fpuStackSet, fpuComputeStackAddr_eq]
    by_cases h : j = i
    · rw [h, slot_writeMem_self, Function.update_self]
    · rw [slot_writeMem_of_ne fun heq => h (add_left_cancel heq), Function.update_of_ne h]
      rfl
  exact congrArg (fun st => (⟨top s, st, (stack s).holds⟩ : Stack)) (funext hslot)

/-- The bits of one slot in the tag word are replaced. -/
theorem fpuTagSet_eq (i : Fin 8) (val : BitVec 2) :
    fpuTagSet i (val.setWidth 16) s = writeReg .X87_TAG
      (insertField (readReg 16 .X87_TAG s) (2 * (top s + i : Fin 8).val) 2 val) s := by
  have hmask : (BitVec.allOnes 2).setWidth 16 = 0b11#16 := by decide
  rw [fpuTagSet, insertField, fieldMask, hmask, BitVec.setWidth_eq, ← shiftAmount_toNat i s]
  rfl

theorem tag_writeReg_tag (k j : Fin 8) (val : BitVec 2) :
    tag j (writeReg .X87_TAG (insertField (readReg 16 .X87_TAG s) (2 * k.val) 2 val) s) =
      if j = k then val else tag j s := by
  have hj := j.isLt
  have hk := k.isLt
  rw [tag, readReg_writeReg_self (by decide)]
  split_ifs with h
  · rw [h, extract_insertField (by omega), BitVec.setWidth_eq]
  · have hne : (j : ℕ) ≠ k := fun heq => h (Fin.ext heq)
    refine BitVec.eq_of_getLsbD_eq fun i hi => ?_
    rw [tag, BitVec.getLsbD_extractLsb', BitVec.getLsbD_extractLsb',
      getLsbD_insertField (by omega), if_neg (by omega)]

theorem stack_fpuTagSet (i : Fin 8) (val : BitVec 2) :
    stack (fpuTagSet i (val.setWidth 16) s) = (stack s).setHolds i (val != 0b11) := by
  have htop (sts : BitVec 16) : top (writeReg .X87_TAG sts s) = top s := by
    rw [top, readReg_writeReg_of_ne (by decide), top]
  have hslot (sts : BitVec 16) (k : Fin 8) : slot k (writeReg .X87_TAG sts s) = slot k s :=
    slot_writeReg (by decide) _ _
  have hholds (j : Fin 8) : (tag (top s + j) (writeReg .X87_TAG (insertField (readReg 16 .X87_TAG s)
      (2 * (top s + i : Fin 8).val) 2 val) s) != 0b11) =
      Function.update (stack s).holds i (val != 0b11) j := by
    rw [tag_writeReg_tag]
    by_cases h : j = i
    · rw [h, if_pos rfl, Function.update_self]
    · rw [if_neg fun heq => h (add_left_cancel heq), Function.update_of_ne h]
      rfl
  rw [fpuTagSet_eq, stack, htop]
  simp only [hslot, hholds]
  rfl

/-! ## Pushes and pops -/

/-- The slot before `ST(0)` is the one of `ST(7)`. -/
theorem rotateBack_put_seven (val : BitVec 64) (a : Stack) :
    (a.put 7 val true).rotateBack = a.push val := by
  have hseven : ∀ i : Fin 8, i - 1 = 7 ↔ i = 0 := by decide
  refine Stack.ext rfl (funext fun i => ?_) (funext fun i => ?_)
  · change Function.update a.st 7 val (i - 1) = if i = 0 then val else a.st (i - 1)
    rw [Function.update_apply, if_congr (hseven i) rfl rfl]
  · change Function.update a.holds 7 true (i - 1) = if i = 0 then true else a.holds (i - 1)
    rw [Function.update_apply, if_congr (hseven i) rfl rfl]

/-- The tag of a value that is pushed is not the one of an empty slot. -/
theorem pushTag_eq (empty zero : Prop) [Decidable empty] [Decidable zero] :
    ∃ tag : BitVec 2, (if empty then if zero then 1 else 0 else 0b10 : BitVec 16) =
      tag.setWidth 16 ∧ (tag != 0b11) = true := by
  split_ifs
  · exact ⟨1, rfl, rfl⟩
  · exact ⟨0, rfl, rfl⟩
  · exact ⟨0b10, rfl, rfl⟩

/-- A push, with the value for an overflow if the slot is not empty. -/
theorem stack_fpuPush (val : BitVec 64) :
    stack (fpuPush val s) =
      (stack s).push (if (stack s).holds 7 then overflowVal else val) := by
  have hempty : fpuTagGet 7 s = 0b11 ↔ ¬(stack s).holds 7 := by
    rw [Bool.not_eq_true]
    exact fpuTagGet_eq_three_iff 7 s
  obtain ⟨tag, htag, hvalid⟩ := pushTag_eq (fpuTagGet 7 s = 0b11) (val &&& 0x7FFFFFFFFFFFFFFF = 0)
  have hset : stack (fpuTagSet 7 (tag.setWidth 16) s) = (stack s).setHolds 7 (tag != 0b11) :=
    stack_fpuTagSet 7 tag
  have hvalue : (if fpuTagGet 7 s = 0b11 then val else overflowVal) =
      if (stack s).holds 7 then overflowVal else val := by
    rw [if_congr hempty rfl rfl, ite_not]
  rw [fpuPush, stack_fpuStackIndexMove_neg_one, stack_setC1Bit, htag, ← rotateBack_put_seven]
  refine congrArg Stack.rotateBack ((stack_fpuStackSet 7 _).trans ?_)
  rw [hset, hvalid, hvalue]
  rfl

theorem stack_fpuPop : stack (fpuPop s) = (stack s).pop := by
  rw [fpuPop, stack_fpuStackIndexMove_one]
  exact congrArg Stack.rotate (stack_fpuTagSet 0 0b11)

theorem stack_fpuPopIf (pop : Bool) : stack (fpuPopIf pop s) = (stack s).popIf pop := by
  cases pop with
  | false => rfl
  | true => exact stack_fpuPop

theorem stack_fpuPop_iterate (n : ℕ) : stack (fpuPop^[n] s) = Stack.pop^[n] (stack s) := by
  induction n generalizing s with
  | zero => rfl
  | succ n ih => rw [Function.iterate_succ_apply, ih, stack_fpuPop, Function.iterate_succ_apply]

/-! ## The conditions -/

/-- A value is pushed to an empty slot, or it is the one for an overflow. -/
def Room (val : BitVec 64) (s : CpuMem) : Prop :=
  (stack s).holds 7 → val = overflowVal

/-- A store leaves the slots as they are. -/
def Keeps (addr : BitVec 64) (value : BitVec w) (s : CpuMem) : Prop :=
  ∀ k, slot k (writeMem addr value s) = slot k s

/-- A store that does not reach the slots. -/
theorem keeps_of_apart {addr : BitVec 64} {value : BitVec w}
    (h : ∀ i < w / 8, ∀ j < 64, (addr.toNat + i) % 2 ^ 64 ≠
      ((readReg 64 .X87_STACK_BASE s).toNat + j) % 2 ^ 64) : Keeps addr value s := by
  intro k
  have hk := k.isLt
  refine congrArg (BitVec.ofNat _) (load_store _ fun i hi j hj => ?_)
  have hne := h i hi (8 * k + j) (by omega)
  change _ ≠ ((slotAddr k s).toNat + j) % 2 ^ 64
  rwa [slotAddr_toNat, Nat.mod_add_mod, Nat.add_assoc]

namespace Stack

theorem push_inj {a : Stack} {val val' : BitVec 64} : a.push val = a.push val' ↔ val = val' :=
  ⟨fun h => congrArg (fun a : Stack => a.st 0) h, fun h => h ▸ rfl⟩

theorem rotate_injective : Function.Injective rotate := by
  intro a a' h
  have htop : a.top + 1 = a'.top + 1 := congrArg Stack.top h
  have hst (i : Fin 8) : a.st (i - 1 + 1) = a'.st (i - 1 + 1) :=
    congrArg (fun a : Stack => a.st (i - 1)) h
  have hholds (i : Fin 8) : a.holds (i - 1 + 1) = a'.holds (i - 1 + 1) :=
    congrArg (fun a : Stack => a.holds (i - 1)) h
  simp only [sub_add_cancel] at hst hholds
  exact Stack.ext (add_right_cancel htop) (funext hst) (funext hholds)

/-- What a pop leaves is all but whether there was a value in `ST(0)`. -/
theorem popIf_eq_popIf_iff {a a' : Stack} {pop : Bool} :
    a.popIf pop = a'.popIf pop ↔ a.top = a'.top ∧ a.st = a'.st ∧
      ∀ i, (pop → i ≠ 0) → a.holds i = a'.holds i := by
  cases pop with
  | false =>
    rw [popIf, popIf, if_neg Bool.false_ne_true, if_neg Bool.false_ne_true, Stack.ext_iff,
      funext_iff (f := a.holds)]
    simp
  | true =>
    rw [popIf, popIf, if_pos rfl, if_pos rfl, pop, pop, rotate_injective.eq_iff, free, free,
      setHolds, setHolds, Stack.ext_iff]
    refine and_congr_right fun _ => and_congr_right fun _ => ?_
    rw [funext_iff]
    refine forall_congr' fun i => ?_
    by_cases h : i = 0
    · simp [h]
    · simp [h]

theorem setSt_setSt_exchange (a : Stack) (j : Fin 8) :
    (((a.setSt 0 (a.st j)).setSt j (a.st 0)).setHolds 0 (a.holds j)).setHolds j (a.holds 0) =
      a.exchange j := by
  refine Stack.ext rfl ?_ ?_
  · rw [exchange, Equiv.swap_comm 0 j]
    exact (Equiv.comp_swap_eq_update j 0 a.st).symm
  · rw [exchange, Equiv.swap_comm 0 j]
    exact (Equiv.comp_swap_eq_update j 0 a.holds).symm

end Stack

/-! ## The instructions -/

section Functions

variable (F : Functions)

theorem read_eq (src : Source) (s : CpuMem) : src.read F s = src.toDouble F (stack s).st s :=
  congrArg (fun st => src.toDouble F st s) (funext fun i => fpuStackGet_eq i s)

theorem stack_writeMem_popIf_iff {addr : BitVec 64} {value : BitVec w} {pop : Bool} :
    (stack (writeMem addr value s)).popIf pop = (stack s).popIf pop ↔ Keeps addr value s := by
  rw [Stack.popIf_eq_popIf_iff]
  constructor
  · rintro ⟨-, hst, -⟩ k
    have hk : slot (top s + (k - top s)) (writeMem addr value s) = slot (top s + (k - top s)) s :=
      congrFun hst (k - top s)
    rwa [add_sub_cancel] at hk
  · exact fun h => ⟨rfl, funext fun i => h _, fun _ _ => rfl⟩

namespace Inst

/-- The conditions on the state before the instruction. -/
def Fits (s : CpuMem) : Inst → Prop
  | fld src => Room (src.toDouble F (stack s).st s) s
  | fldConst val => Room val s
  | fild bytes addr => Room ((Source.int bytes addr).toDouble F (stack s).st s) s
  | fst _ (.st i) => (stack s).holds i = (stack s).holds 0
  | fst _ (.m32 addr) =>
    Keeps addr (F.convert .none .floatingPoint .floatingPoint 32 ((stack s).st 0)) s
  | fst _ (.m64 addr) => Keeps addr ((stack s).st 0) s
  | fst _ (.m80 addr) => Keeps addr (fstM80 ((stack s).st 0)) s
  | fist _ bytes addr => Keeps addr
      (F.convert .none .floatingPoint .signedInteger (8 * bytes) ((stack s).st 0)) s
  | _ => True

/-- A push after a step that leaves the stack as it is. -/
theorem push_right_iff {s' : CpuMem} (h : stack s' = stack s) {val : BitVec 64} :
    stack (fpuPush val s') = (stack s).push val ↔ Room val s := by
  rw [stack_fpuPush, h, Stack.push_inj, Room]
  cases (stack s).holds 7 with
  | false => simp
  | true => simp [eq_comm]

/-- A store, and a pop if there is one. -/
theorem store_right_iff {s' : CpuMem} {addr : BitVec 64} {value : BitVec w} {pop : Bool}
    (h : stack s' = stack (writeMem addr value s)) :
    stack (fpuPopIf pop s') = (stack s).popIf pop ↔ Keeps addr value s := by
  rw [stack_fpuPopIf, h, stack_writeMem_popIf_iff]

theorem fst_st_right_iff (pop : Bool) (i : Fin 8) :
    (fst pop (.st i)).Right F s ↔ (stack s).holds i = (stack s).holds 0 := by
  have hexec : stack ((fst pop (.st i)).exec F s) =
      ((stack s).setSt i ((stack s).st 0)).popIf pop := by
    rw [exec, stack_fpuPopIf, Dest.write, stack_fpuStackSet]
    exact congrArg (fun val => ((stack s).setSt i val).popIf pop) (fpuStackGet_eq 0 s)
  rw [Right, hexec, effect, Stack.popIf_eq_popIf_iff]
  constructor
  · rintro ⟨-, -, hholds⟩
    by_cases hi : i = 0
    · rw [hi]
    · refine (hholds i fun _ => hi).trans ?_
      exact Function.update_self ..
  · intro h
    refine ⟨rfl, rfl, fun j _ => ?_⟩
    change (stack s).holds j = Function.update (stack s).holds i ((stack s).holds 0) j
    rw [← h, Function.update_eq_self]

theorem fxch_right (j : Fin 8) : (fxch j).Right F s := by
  have htag0 : fpuTagGet 0 s = (tag (top s + 0) s).setWidth 16 := fpuTagGet_eq 0 s
  have hst0 : fpuStackGet 0 s = (stack s).st 0 := fpuStackGet_eq 0 s
  have hset0 (val : BitVec 64) (s : CpuMem) :
      stack (fpuStackSet 0 val s) = (stack s).setSt 0 val := stack_fpuStackSet 0 val
  have hsetTag0 (val : BitVec 2) (s : CpuMem) : stack (fpuTagSet 0 (val.setWidth 16) s) =
      (stack s).setHolds 0 (val != 0b11) := stack_fpuTagSet 0 val
  rw [Right, exec, effect, stack_setC1Bit, htag0, hst0, fpuTagGet_eq, fpuStackGet_eq,
    stack_fpuTagSet, hsetTag0, stack_fpuStackSet, hset0]
  exact (stack s).setSt_setSt_exchange j

theorem fcom_right (src : Source) (pops : Fin 3) : (fcom src pops).Right F s := by
  have hmask : ∀ i : Fin 3, (0xB8FF : BitVec 16).getLsbD (11 + i) = true := by decide
  rw [Right, exec, effect, stack_fpuPop_iterate]
  refine congrArg (Stack.pop^[pops] ·) (stack_writeReg_sts ?_)
  refine BitVec.eq_of_getLsbD_eq fun i hi => ?_
  rw [BitVec.getLsbD_extractLsb', BitVec.getLsbD_extractLsb', getLsbD_insertField (by omega),
    if_neg (by omega), getLsbD_insertField (by omega), if_neg (by omega), BitVec.getLsbD_and]
  have hbit : (0xB8FF : BitVec 16).getLsbD (11 + i) = true := hmask ⟨i, hi⟩
  rw [hbit, Bool.and_true]

theorem fcomi_right (i : Fin 8) (pop : Bool) : (fcomi i pop).Right F s := by
  rw [Right, exec, effect, stack_fpuPopIf, stack_writeReg (by decide), stack_writeReg (by decide),
    stack_writeReg (by decide)]

theorem arith_right (op : FpOp) (reverse : Bool) (idx : Fin 8) (src : Source) (pop : Bool) :
    (arith op reverse idx src pop).Right F s := by
  have htag : ∀ s, stack (fpuTagSet idx 0b00 s) = (stack s).setHolds idx true := fun s =>
    stack_fpuTagSet idx 0b00
  rw [Right, exec, effect, stack_fpuPopIf, htag, stack_fpuStackSet, fpuStackGet_eq, read_eq]
  rfl

/-- An instruction is right exactly under its condition. -/
theorem right_iff (inst : Inst) (s : CpuMem) : inst.Right F s ↔ inst.Fits F s := by
  have hst0 : fpuStackGet 0 s = (stack s).st 0 := fpuStackGet_eq 0 s
  cases inst with
  | fld src =>
    rw [Right, exec, effect, read_eq]
    exact push_right_iff rfl
  | fldConst val => exact push_right_iff (stack_setC1Bit 0)
  | fild bytes addr =>
    rw [Right, exec, effect, read_eq]
    exact push_right_iff (stack_setC1Bit 0)
  | fst pop dst =>
    cases dst with
    | st i => exact fst_st_right_iff F pop i
    | m32 addr | m64 addr | m80 addr =>
      rw [Right, exec, hst0]
      exact store_right_iff rfl
  | fist pop bytes addr =>
    rw [Right, exec, hst0]
    exact store_right_iff (stack_setC1Bit 0)
  | fxch j => exact iff_of_true (fxch_right F j) trivial
  | fcom src pops => exact iff_of_true (fcom_right F src pops) trivial
  | fcomi i pop => exact iff_of_true (fcomi_right F i pop) trivial
  | arith op reverse idx src pop => exact iff_of_true (arith_right F op reverse idx src pop) trivial
  | fincstp => exact iff_of_true ((stack_setC1Bit 0).trans stack_fpuStackIndexMove_one) trivial
  | fdecstp => exact iff_of_true ((stack_setC1Bit 0).trans stack_fpuStackIndexMove_neg_one) trivial
  | ffree i => exact iff_of_true (stack_fpuTagSet i 0b11) trivial

/-- Every instruction has its condition. -/
def AllFit : List Inst → CpuMem → Prop
  | [], _ => True
  | inst :: insts, s => inst.Fits F s ∧ AllFit insts (inst.exec F s)

theorem Follows.stack_eq {insts : List Inst} {s : CpuMem} {a : Stack}
    (h : Follows F insts s a) : stack s = a := by
  cases insts with
  | nil => exact h
  | cons inst insts => exact h.1

/-- The stack of a state is followed through a run exactly if every instruction of it has its
condition. -/
theorem stack_follows_iff (insts : List Inst) (s : CpuMem) :
    Follows F insts s (stack s) ↔ AllFit F insts s := by
  induction insts generalizing s with
  | nil => exact iff_of_true rfl trivial
  | cons inst insts ih =>
    rw [Follows, AllFit, ← right_iff, ← ih]
    refine (and_iff_right rfl).trans ⟨fun h => ?_, fun ⟨hright, h⟩ => hright ▸ h⟩
    have hright : inst.Right F s := h.stack_eq
    exact ⟨hright, hright ▸ h⟩

end Inst

end Functions

/-- The state at the start, with nothing in memory. -/
def start : CpuMem where
  regs r :=
    match r with
    | .X87_STACK_BASE => 0x10000
    | .X87_TAG => (0xFFFF#16).setWidth 512
    | .X87_CTRL => (0x037F#16).setWidth 512
    | _ => 0
  mem _ := 0

def noFunctions : Functions where
  arith _ _ x _ := x
  convert _ _ _ _ _ _ := 0
  cmpgt _ _ := false
  cmpeq _ _ := false

theorem start_holds (i : Fin 8) : (stack start).holds i = false := by
  have hreg : start.regs .X87_TAG = (0xFFFF#16).setWidth 512 := rfl
  have htag : readReg 16 .X87_TAG start = 0xFFFF#16 := by
    rw [readReg, hreg, BitVec.setWidth_setWidth_of_le _ (by decide), BitVec.setWidth_eq]
  have hempty : ∀ k : Fin 8, ((0xFFFF#16).extractLsb' (2 * k) 2 != 0b11) = false := by decide
  have hholds (s : CpuMem) : (stack s).holds i =
      ((readReg 16 .X87_TAG s).extractLsb' (2 * (top s + i : Fin 8).val) 2 != 0b11) := rfl
  rw [hholds, htag]
  exact hempty _

/-- `FLD1` and `FST ST(1)`. There is a one in `ST(1)`, but its slot is marked as empty. -/
theorem not_stack_follows :
    ¬Inst.Follows noFunctions [.fldConst 0x3FF0000000000000, .fst false (.st 1)] start
      (stack start) := by
  rw [Inst.stack_follows_iff]
  rintro ⟨-, hholds, -⟩
  have hstack : ∃ val, stack ((Inst.fldConst 0x3FF0000000000000).exec noFunctions start) =
      (stack start).push val := by
    rw [Inst.exec, stack_fpuPush, stack_setC1Bit]
    exact ⟨_, rfl⟩
  obtain ⟨val, hval⟩ := hstack
  have hone (a : Stack) : (a.push val).holds 1 = a.holds 0 := rfl
  have hzero (a : Stack) : (a.push val).holds 0 = true := rfl
  rw [Inst.Fits, hval, hone, hzero, start_holds] at hholds
  exact Bool.false_ne_true hholds

end Arancini.X86.X87
