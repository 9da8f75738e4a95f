import Arancini.Llvm.Atomic
import Arancini.X86.Address
import Arancini.X86.Mov
import Arancini.X86.WriteFlags

/-!
# The LOCK prefix

An instruction that reads, changes and writes an operand in memory has two translations: one with an
atomic node for the prefix, and one with a load and a store. Without interference they are compared
by the state that their packets leave.

The width of an atomic node is the one of its operand. An immediate is not extended there, and the
one of `INC` and `DEC` has the type of the address. Without the prefix `XADD` computes the address a
second time, after it has written the register. `SUB` and `XOR` have no translation with the prefix,
and `CMPXCHG` none without it. `lock_same_iff` has the exact conditions.
-/

namespace Arancini.X86

open Ir
open Llvm (FlagNode FlagPort LockOp Alike)

variable {n w : ℕ} {ow : OpWidth}

/-! ## States -/

/-- The guest registers, its memory, which is one of bytes, and the flags. -/
@[ext]
structure LockState where
  regs : CpuState
  mem : ℕ → ℕ
  flags : FlagState
  isByte : ∀ addr, mem addr < 256

namespace LockState

variable (s : LockState)

def cpu : CpuMem :=
  ⟨s.regs, s.mem⟩

/-- The registers by their offsets. -/
def guest : Guest where
  regs off := (Reg.ofOffset off).elim 0 fun r => (s.regs r).toNat
  mem := s.mem

/-- `compute_address`. -/
def address (site : Site) (m : MemOperand) : BitVec 64 :=
  m.address site s.guest

/-- `insert_read_mem`. -/
def load (n : ℕ) (addr : BitVec 64) : BitVec n :=
  BitVec.ofNat n (Guest.load s.mem addr.toNat (n / 8))

/-- `insert_write_mem`. -/
def store (addr : BitVec 64) (v : BitVec n) : LockState where
  regs := s.regs
  mem := Guest.store s.mem addr.toNat v.toNat (n / 8)
  flags := s.flags
  isByte := Guest.store_lt s.isByte _ _ _

/-- The state with these registers. -/
def setRegs (regs : CpuState) : LockState :=
  { s with regs }

/-- `write_operand` of a register. -/
def writeGpr (reg : GprReg) (v : BitVec n) : Except String LockState := do
  let regs ← X86.writeGpr reg .unsignedInteger v s.regs
  return s.setRegs regs

/-- `write_flags`. -/
def writeFlags (node : OpNode w) (acts : Flag → FlagOp) : Except String LockState := do
  let writes ← node.writeFlags acts
  return { s with flags := OpNode.runWrites node writes s.flags }

end LockState

/-! ## The instructions -/

/-- The operand that is not in memory. An immediate that is not as wide as the instruction is
extended with its sign. -/
inductive LockSource (ow : OpWidth)
  | reg (r : GprReg) (h : r.part.width = ow.bits)
  | imm (signed : Bool) (iw : OpWidth) (value : BitVec iw.bits)
      (h : (iw = .byte ∨ iw.bits = ow.immBits) ∧ (signed ∨ iw = ow))

def LockSource.operand : LockSource ow → MovOperand
  | reg r _ => .reg r
  | imm signed iw value _ => .imm signed iw.bits value

/-- The operations of two operands. -/
inductive LockArith
  | ADD
  | SUB
  | AND
  | OR
  | XOR
  deriving DecidableEq

/-- The instructions that take the prefix, with their operand in memory. `memFirst` says that this
is the first one. -/
inductive LockInst (ow : OpWidth)
  | arith (op : LockArith) (m : MemOperand) (src : LockSource ow)
  | inc (m : MemOperand)
  | dec (m : MemOperand)
  | xadd (m : MemOperand) (r : GprReg) (h : r.part.width = ow.bits)
  | xchg (memFirst : Bool) (m : MemOperand) (r : GprReg) (h : r.part.width = ow.bits)
  | cmpxchg (m : MemOperand) (r : GprReg) (h : r.part.width = ow.bits)

/-! ## Without the prefix -/

namespace LockArith

/-- What `binop_translator` inserts. -/
def node (lhs rhs : BitVec w) : LockArith → FlagNode w
  | ADD => .addSub .add lhs rhs
  | SUB => .addSub .sub lhs rhs
  | AND => .logic .band FlagNode.band_logic lhs rhs
  | OR => .logic .bor FlagNode.bor_logic lhs rhs
  | XOR => .logic .bxor FlagNode.bxor_logic lhs rhs

/-- The arguments of `write_flags`. -/
def acts : LockArith → Flag → FlagOp
  | ADD | SUB => OpNode.sumActs
  | AND | OR | XOR => OpNode.logicActs

end LockArith

/-- The arguments of `write_flags` after `INC` and `DEC`. -/
def oneActs : Flag → FlagOp
  | .CF => .ignore
  | _ => .update

section Plain

variable (site : Site) (s : LockState)

/-- `binop_translator`. The address is computed for the load and for the store. -/
def translateArith (ow : OpWidth) (op : LockArith) (m : MemOperand) (src : MovOperand) :
    Except String LockState := do
  let op0 := s.load ow.bits (s.address site m)
  let op1 ← src.read s.cpu
  let op1 ← op1.autoCast (.u ow.bits)
  let rslt := op.node op0 (op1.bits.setWidth ow.bits)
  let s := s.store (s.address site m) rslt.value
  s.writeFlags (.arith rslt) op.acts

/-- `unop_translator`. -/
def translateOne (ow : OpWidth) (op : Riscv.AddSub) (m : MemOperand) : Except String LockState :=
  let op0 := s.load ow.bits (s.address site m)
  let rslt := FlagNode.addSub op op0 (BitVec.ofNat ow.bits 1)
  let s := s.store (s.address site m) rslt.value
  s.writeFlags (.arith rslt) oneActs

/-- The case of `XADD`. The register is written before the address is computed for the store. -/
def translateXadd (m : MemOperand) (r : GprReg) : Except String LockState := do
  let dst := s.load r.part.width (s.address site m)
  let src ← readGpr r s.regs
  let sum := FlagNode.addSub .add src dst
  let s ← s.writeFlags (.arith sum) OpNode.sumActs
  let s ← s.writeGpr r dst
  return s.store (s.address site m) sum.value

/-! ## With the prefix -/

/-- A `binary_atomic` node, and `write_flags`. -/
def atomicBinop (op : LockOp) (acts : Flag → FlagOp) (addr : BitVec 64) (rhs : BitVec n) :
    Except String LockState :=
  let node := op.node (s.load n addr) rhs
  let s := s.store addr node.value
  s.writeFlags (.atomic node (by cases op <;> nofun)) acts

/-- The operations that the atomic translator has a case for. -/
def LockArith.atomic : LockArith → Except String LockOp
  | ADD => .ok .add
  | AND => .ok .band
  | OR => .ok .bor
  | SUB | XOR => .error "handle_poison"

/-- The arguments of `write_flags` in these cases. -/
def lockActs : LockOp → Flag → FlagOp
  | .add => OpNode.sumActs
  | .band | .bor => OpNode.logicActs

/-- `ADD_LOCK`, `AND_LOCK` and `OR_LOCK`. -/
def translateArithLock (op : LockArith) (m : MemOperand) (src : MovOperand) :
    Except String LockState := do
  let op ← op.atomic
  let src ← src.read s.cpu
  atomicBinop s op (lockActs op) (s.address site m) src.bits

/-- `INC_LOCK` and `DEC_LOCK`. The constant has the type of the address. -/
def translateOneLock (op : Riscv.AddSub) (m : MemOperand) : Except String LockState :=
  let addr := s.address site m
  let node := FlagNode.addSub op (s.load 64 addr) 1#64
  let s := s.store addr node.value
  s.writeFlags (.atomic node nofun) oneActs

/-- `XADD_LOCK`. -/
def translateXaddLock (m : MemOperand) (r : GprReg) : Except String LockState := do
  let addr := s.address site m
  let src ← readGpr r s.regs
  let old := s.load r.part.width addr
  let xadd := FlagNode.addSub .add old src
  let s ← (s.store addr xadd.value).writeGpr r old
  s.writeFlags (.atomic xadd nofun) OpNode.sumActs

/-- `XCHG` with an operand in memory. It has the same class with the prefix, and either operand can
be the one in memory. -/
def translateXchg (m : MemOperand) (r : GprReg) : Except String LockState := do
  let addr := s.address site m
  let src ← readGpr r s.regs
  let old := s.load r.part.width addr
  (s.store addr src).writeGpr r old

/-- `CMPXCHG_LOCK`. The accumulator is the part of `RAX` with as many bits. -/
def translateCmpxchgLock (m : MemOperand) (r : GprReg) : Except String LockState := do
  let addr := s.address site m
  let acc ← readReg r.part.width (xedregToOffset (.gpr rax)) s.regs
  let src ← readGpr r s.regs
  let old := s.load r.part.width addr
  let res := FlagNode.addSub .sub acc old
  let s ← if old = acc then pure (s.store addr src) else do
    let regs ← X86.writeReg Reg.RAX.offset (old.setWidth 64) s.regs
    pure (s.setRegs regs)
  s.writeFlags (.atomic res nofun) OpNode.sumActs

end Plain

namespace LockInst

variable (site : Site) (s : LockState)

/-- The translation without the prefix, and what its packet does. An instruction without a
translator ends in a call of `handle_poison`. -/
def plain : LockInst ow → Except String LockState
  | arith op m src => translateArith site s ow op m src.operand
  | inc m => translateOne site s ow .add m
  | dec m => translateOne site s ow .sub m
  | xadd m r _ => translateXadd site s m r
  | xchg _ m r _ => translateXchg site s m r
  | cmpxchg .. => .error "handle_poison"

/-- The translation with the prefix. -/
def locked : LockInst ow → Except String LockState
  | arith op m src => translateArithLock site s op m src.operand
  | inc m => translateOneLock site s .add m
  | dec m => translateOneLock site s .sub m
  | xadd m r _ => translateXaddLock site s m r
  | xchg _ m r _ => translateXchg site s m r
  | cmpxchg m r _ => translateCmpxchgLock site s m r

/-- Both translations leave the same registers, memory and flags. -/
def Same (inst : LockInst ow) : Prop :=
  ∃ s', inst.locked site s = .ok s' ∧ inst.plain site s = .ok s'

end LockInst

/-! ## When the translations are the same -/

/-- An immediate that is not as wide as the instruction is enough for the operation. -/
def LockSource.fits (op : LockArith) (addr : BitVec 64) (s : LockState) : LockSource ow → Prop
  | reg .. => True
  | imm _ iw value _ => iw ≠ ow →
    Alike (s.load ow.bits addr) (op.node (s.load ow.bits addr) (value.signExtend ow.bits))
      (op.node (s.load iw.bits addr) value)

/-- The operation on 64 bits does what the one on the bits of the operand does. -/
def oneFits (ow : OpWidth) (op : Riscv.AddSub) (addr : BitVec 64) (s : LockState) : Prop :=
  ow ≠ .qword → Alike (s.load 64 addr) (.addSub op (s.load 64 addr) 1#64)
    (.addSub op (s.load ow.bits addr) (BitVec.ofNat ow.bits 1))

/-- The sum can be stored at the address that the operand has when the register has got what was in
memory. -/
def xaddFits (site : Site) (m : MemOperand) (r : GprReg) (s : LockState) : Prop :=
  let addr := s.address site m
  let old := s.load r.part.width addr
  let sum := (s.regs.gpr r.num).setWidth r.part.width + old
  ∀ y, r.Written old (s.regs.gpr r.num) y →
    s.store addr sum = s.store ((s.setRegs (s.regs.setGpr r.num y)).address site m) sum

/-- `SUB` and `XOR` are not translated with the prefix and `CMPXCHG` is not without it. -/
def LockInst.fits (site : Site) (s : LockState) : LockInst ow → Prop
  | arith op m src => op ≠ .SUB ∧ op ≠ .XOR ∧ src.fits op (s.address site m) s
  | inc m => oneFits ow .add (s.address site m) s
  | dec m => oneFits ow .sub (s.address site m) s
  | xadd m r _ => xaddFits site m r s
  | xchg .. => True
  | cmpxchg .. => False

/-! ## The flags -/

/-- The flag that a port is for. -/
def flagOf : FlagPort → Flag
  | .zero => .ZF
  | .carry => .CF
  | .overflow => .OF
  | .negative => .SF

/-- The flags after `write_flags` of a node with these ports. -/
def flagsAfter (port : FlagPort → Bool) (acts : Flag → FlagOp) (flags : FlagState) : FlagState
  | .ZF => (acts .ZF).after (port .zero) (flags .ZF)
  | .CF => (acts .CF).after (port .carry) (flags .CF)
  | .OF => (acts .OF).after (port .overflow) (flags .OF)
  | .SF => (acts .SF).after (port .negative) (flags .SF)
  | .PF => flags .PF
  | .AF => flags .AF

theorem flagsAfter_congr {port port' : FlagPort → Bool} {acts : Flag → FlagOp}
    (h : ∀ p, acts (flagOf p) = .update → port p = port' p) (flags : FlagState) :
    flagsAfter port acts flags = flagsAfter port' acts flags := by
  have hone : ∀ p old, (acts (flagOf p)).after (port p) old =
      (acts (flagOf p)).after (port' p) old := by
    intro p old
    cases hact : acts (flagOf p) with
    | update => exact h p hact
    | ignore | set0 | set1 => rfl
  ext flag
  cases flag with
  | ZF => exact hone .zero _
  | CF => exact hone .carry _
  | OF => exact hone .overflow _
  | SF => exact hone .negative _
  | PF | AF => rfl

/-- A port whose flag is updated is seen. -/
theorem port_eq_of_flagsAfter {port port' : FlagPort → Bool} {acts : Flag → FlagOp}
    {flags : FlagState} (h : flagsAfter port acts flags = flagsAfter port' acts flags)
    {p : FlagPort} (hact : acts (flagOf p) = .update) : port p = port' p := by
  have hflag := congrFun h (flagOf p)
  cases p with
  | zero | carry | overflow | negative =>
    simp only [flagOf] at hact hflag
    simpa only [flagsAfter, hact, FlagOp.after] using hflag

/-- The carry and the overflow of a logical operation are zero in any case. -/
theorem flagsAfter_logic (op : LockOp) (lhs rhs : BitVec w) (flags : FlagState) :
    flagsAfter (op.node lhs rhs).flag (lockActs op) flags =
      flagsAfter (op.node lhs rhs).flag OpNode.sumActs flags := by
  ext flag
  cases op <;> cases flag <;> rfl

namespace LockState

variable (s : LockState)

/-- The state with these flags. -/
def setFlags (flags : FlagState) : LockState :=
  { s with flags }

theorem writeFlags_eq {node : OpNode w} (h : node.PortSources) (acts : Flag → FlagOp) :
    s.writeFlags node acts = .ok (s.setFlags (flagsAfter (node.port ·) acts s.flags)) := by
  obtain ⟨writes, hwrites⟩ := (node.writeFlags_ok_iff acts).2 fun flag source hsource _ => by
    cases flag with
    | ZF => exact ⟨_, (Option.some.inj hsource).symm.trans h.zf⟩
    | CF => exact ⟨_, (Option.some.inj hsource).symm.trans h.cf⟩
    | OF => exact ⟨_, (Option.some.inj hsource).symm.trans h.of⟩
    | SF => exact ⟨_, (Option.some.inj hsource).symm.trans h.sf⟩
    | PF | AF => exact nomatch hsource
  rw [writeFlags, hwrites, ok_bind, OpNode.runWrites_writeFlags hwrites]
  refine congrArg (fun flags => Except.ok (s.setFlags flags)) (funext fun flag => ?_)
  cases flag with
  | ZF => simp only [OpNode.flagAfter, OpNode.source, h.zf, flagsAfter]; rfl
  | CF => simp only [OpNode.flagAfter, OpNode.source, h.cf, flagsAfter]; rfl
  | OF => simp only [OpNode.flagAfter, OpNode.source, h.of, flagsAfter]; rfl
  | SF => simp only [OpNode.flagAfter, OpNode.source, h.sf, flagsAfter]; rfl
  | PF | AF => rfl

theorem writeFlags_arith (node : FlagNode w) (acts : Flag → FlagOp) :
    s.writeFlags (.arith node) acts = .ok (s.setFlags (flagsAfter node.flag acts s.flags)) := by
  rw [writeFlags_eq s (OpNode.portSources_arith node)]
  refine congrArg (fun flags => Except.ok (s.setFlags flags)) (flagsAfter_congr ?_ _)
  rintro (_ | _ | _ | _) - <;> rfl

theorem writeFlags_atomic (node : FlagNode w) (h) (acts : Flag → FlagOp) :
    s.writeFlags (.atomic node h) acts = .ok (s.setFlags (flagsAfter node.flag acts s.flags)) := by
  rw [writeFlags_eq s (OpNode.portSources_atomic node h)]
  refine congrArg (fun flags => Except.ok (s.setFlags flags)) (flagsAfter_congr ?_ _)
  rintro (_ | _ | _ | _) - <;> rfl

/-! ## Operations of two widths -/

/-- The state after the operation of a node on the operand in memory. -/
def performed (addr : BitVec 64) (node : FlagNode w) (acts : Flag → FlagOp) : LockState :=
  (s.store addr node.value).setFlags (flagsAfter node.flag acts s.flags)

theorem setWidth_load (hle : n ≤ w) {k m : ℕ} (hn : 8 * k = n) (hw : 8 * m = w)
    (addr : BitVec 64) : (s.load w addr).setWidth n = s.load n addr := by
  subst hn hw
  have hpow : 2 ^ (8 * k) = 256 ^ k := pow_mul 2 8 k
  refine BitVec.eq_of_toNat_eq ?_
  rw [load, load, BitVec.setWidth_ofNat_of_le hle, BitVec.toNat_ofNat, BitVec.toNat_ofNat,
    Nat.mul_div_cancel_left _ (by decide), Nat.mul_div_cancel_left _ (by decide), hpow,
    Guest.load_mod_of_le (by omega)]

/-- The two widths do the same to the state. -/
theorem performed_eq_iff (hlt : n < w) {k m : ℕ} (hn : 8 * k = n) (hw : 8 * m = w)
    (hm : m ≤ 2 ^ 64) (addr : BitVec 64) {wide : FlagNode w} {narrow : FlagNode n}
    (hvalue : wide.value.setWidth n = narrow.value) {acts : Flag → FlagOp}
    (hacts : ∀ p ≠ .carry, acts (flagOf p) = .update)
    (hoverflow : wide.value >>> n = s.load w addr >>> n → wide.overflow = false)
    (hcarry : acts .CF = .update → wide.value >>> n = s.load w addr >>> n →
      narrow.carry = wide.carry) :
    s.performed addr narrow acts = s.performed addr wide acts ↔
      Alike (s.load w addr) wide narrow := by
  have hstore := Guest.store_setWidth_eq_iff (a := addr.toNat) s.isByte hn hw (by omega) hm
    wide.value
  have hdiv : n / 8 = k ∧ w / 8 = m := by omega
  have hload : s.load w addr = BitVec.ofNat w (Guest.load s.mem addr.toNat m) := by
    rw [load, hdiv.2]
  rw [hvalue, ← hload] at hstore
  rw [← Llvm.alike_iff hvalue hoverflow, ← hstore]
  constructor
  · intro h
    have hmem := congrArg mem h
    have hflags := congrArg flags h
    simp only [performed, setFlags, store, hdiv] at hmem hflags
    exact ⟨hmem, port_eq_of_flagsAfter hflags (hacts .zero nofun),
      port_eq_of_flagsAfter hflags (hacts .negative nofun),
      port_eq_of_flagsAfter hflags (hacts .overflow nofun)⟩
  · rintro ⟨hmem, hzero, hnegative, hover⟩
    have hport : ∀ p, acts (flagOf p) = .update → narrow.flag p = wide.flag p := by
      intro p hp
      cases p with
      | zero => exact hzero
      | negative => exact hnegative
      | overflow => exact hover
      | carry => exact hcarry hp (hstore.1 hmem)
    refine LockState.ext rfl ?_ (flagsAfter_congr hport s.flags)
    simpa only [performed, setFlags, store, hdiv] using hmem

end LockState

/-! ## Each instruction -/

theorem OpWidth.eq_of_bits_eq {iw ow : OpWidth} (h : iw.bits = ow.bits) : iw = ow := by
  cases iw <;> cases ow <;> first | rfl | exact absurd h (by decide)

theorem OpWidth.le_of_imm {iw ow : OpWidth} (h : iw = .byte ∨ iw.bits = ow.immBits) :
    iw.bits ≤ ow.bits := by
  rcases h with rfl | h
  · cases ow <;> decide
  · rw [h]
    cases ow <;> decide

/-- What depends on the width and the bits of a number only. -/
theorem Value.apply_bits_scalar {α : Type*} {c : TypeClass} (f : ∀ n, BitVec n → α) (x : BitVec n) :
    f _ (scalar c x).bits = f n x := by
  have hwidth : ∀ w, w = n → f w (x.setWidth w) = f n x := by
    rintro _ rfl
    rw [BitVec.setWidth_eq]
  exact hwidth _ (width_scalar x)

namespace LockInst

variable (site : Site) (s : LockState)

theorem same_iff_of_ok {inst : LockInst ow} {t t' : LockState} (h : inst.locked site s = .ok t)
    (h' : inst.plain site s = .ok t') : inst.Same site s ↔ t = t' := by
  constructor
  · rintro ⟨u, hu, hu'⟩
    rw [Except.ok.inj (h.symm.trans hu), Except.ok.inj (h'.symm.trans hu')]
  · rintro rfl
    exact ⟨t, h, h'⟩

section Arith

variable {op : LockArith} {lop : LockOp}

theorem node_of_atomic (h : op.atomic = .ok lop) (lhs rhs : BitVec w) :
    op.node lhs rhs = lop.node lhs rhs := by
  cases op with
  | ADD | AND | OR =>
    obtain rfl := Except.ok.inj h
    rfl
  | SUB | XOR => exact nomatch h

theorem acts_of_atomic (h : op.atomic = .ok lop) : op.acts = lockActs lop := by
  cases op with
  | ADD | AND | OR =>
    obtain rfl := Except.ok.inj h
    rfl
  | SUB | XOR => exact nomatch h

/-- The operation of a node, with all flags updated. -/
theorem atomicBinop_eq (lop : LockOp) (addr : BitVec 64) (rhs : BitVec n) :
    atomicBinop s lop (lockActs lop) addr rhs =
      .ok (s.performed addr (lop.node (s.load n addr) rhs) OpNode.sumActs) := by
  rw [atomicBinop, LockState.writeFlags_atomic, LockState.performed]
  exact congrArg (fun flags => Except.ok ((s.store addr _).setFlags flags))
    (flagsAfter_logic lop _ _ s.flags)

theorem translateArithLock_eq {src : MovOperand} {c : TypeClass} {x : BitVec n}
    (h : op.atomic = .ok lop) (m : MemOperand) (hsrc : src.read s.cpu = .ok (.scalar c x)) :
    translateArithLock site s op m src = .ok (s.performed (s.address site m)
      (lop.node (s.load n (s.address site m)) x) OpNode.sumActs) := by
  rw [translateArithLock, h, ok_bind, hsrc, ok_bind, atomicBinop_eq]
  exact Value.apply_bits_scalar (fun n x => Except.ok (s.performed (s.address site m)
    (lop.node (s.load n (s.address site m)) x) OpNode.sumActs)) x

theorem translateArith_eq {src : MovOperand} {v : Value} {x : BitVec ow.bits}
    (h : op.atomic = .ok lop) (m : MemOperand) (hsrc : src.read s.cpu = .ok v)
    (hcast : v.autoCast (.u ow.bits) = .ok (.u x)) :
    translateArith site s ow op m src = .ok (s.performed (s.address site m)
      (lop.node (s.load ow.bits (s.address site m)) x) OpNode.sumActs) := by
  have hbits : (Value.u x).bits.setWidth ow.bits = x :=
    (Value.setWidth_bits_scalar x).trans (BitVec.setWidth_eq x)
  rw [translateArith, hsrc, ok_bind, hcast, ok_bind, hbits, node_of_atomic h, acts_of_atomic h,
    LockState.writeFlags_arith, LockState.performed]
  exact congrArg (fun flags => Except.ok ((s.store (s.address site m) _).setFlags flags))
    (flagsAfter_logic lop _ _ s.flags)

theorem arith_same_iff (h : op.atomic = .ok lop) (m : MemOperand) (src : LockSource ow) :
    (arith op m src).Same site s ↔ src.fits op (s.address site m) s := by
  cases src with
  | reg r hr =>
    have hread := Place.read_operand (s := s.cpu) (.reg r hr)
    have hcast := Value.autoCast_scalar_self (c := .unsignedInteger) (d := .unsignedInteger)
      ((Place.reg r hr).value s.cpu)
    exact iff_of_true ⟨_, translateArithLock_eq site s h m hread,
      translateArith_eq site s h m hread hcast⟩ trivial
  | imm signed iw value himm =>
    obtain ⟨hiw, hsigned⟩ := himm
    have hle := OpWidth.le_of_imm hiw
    have hread : (MovOperand.imm signed iw.bits value).read s.cpu =
        .ok (.scalar (if signed then .signedInteger else .unsignedInteger) value) :=
      if_pos (by cases iw <;> decide)
    have hlocked := translateArithLock_eq site s h m hread
    by_cases heq : iw = ow
    · subst heq
      exact iff_of_true ⟨_, hlocked, translateArith_eq site s h m hread
        (Value.autoCast_scalar_self value)⟩ fun hne => absurd rfl hne
    · obtain rfl : signed = true := hsigned.resolve_right heq
      have hplain := translateArith_eq site s h m hread (Value.autoCast_signed hle value)
      have hlt : iw.bits < ow.bits :=
        lt_of_le_of_ne hle fun hbits => heq (OpWidth.eq_of_bits_eq hbits)
      have hload := s.setWidth_load hle iw.mul_div_bits ow.mul_div_bits (s.address site m)
      have hfits : (LockSource.imm true iw value ⟨hiw, hsigned⟩).fits op (s.address site m) s ↔
          Alike (s.load ow.bits (s.address site m)) (lop.node (s.load ow.bits (s.address site m))
            (value.signExtend ow.bits)) (lop.node (s.load iw.bits (s.address site m)) value) := by
        rw [LockSource.fits, node_of_atomic h, node_of_atomic h]
        exact forall_prop_of_true heq
      rw [@same_iff_of_ok ow site s (arith op m (.imm true iw value ⟨hiw, hsigned⟩)) _ _ hlocked
        hplain, hfits]
      refine s.performed_eq_iff hlt iw.mul_div_bits ow.mul_div_bits (by cases ow <;> decide) _ ?_
        (fun _ _ => rfl) (Llvm.AtomicInst.overflow_eq_false lop hlt) fun _ habove => ?_
      · rw [Llvm.AtomicInst.setWidth_value lop hle, hload]
      · have hcarry := Llvm.AtomicInst.carry_eq lop hlt
          ((s.load ow.bits (s.address site m)).setWidth 64) value
        rw [BitVec.setWidth_setWidth_of_le _ (hle.trans (MulDivInst.bits_le ow)),
          BitVec.setWidth_setWidth_of_le _ (MulDivInst.bits_le ow), BitVec.setWidth_eq,
          hload] at hcarry
        exact hcarry habove

end Arith

/-! ## One more and one less -/

theorem setWidth_addSub_one (op : Riscv.AddSub) (hle : w ≤ 64) (x : BitVec 64) :
    (FlagNode.addSub op x 1#64).value.setWidth w =
      (FlagNode.addSub op (x.setWidth w) 1#w).value := by
  cases op with
  | add => exact Llvm.AtomicInst.setWidth_add_one hle x
  | sub => exact Llvm.AtomicInst.setWidth_sub_one hle x

/-- There is no overflow that does not turn the sign. -/
theorem overflow_addSub_one (op : Riscv.AddSub) (hlt : w < 64) (x : BitVec 64)
    (h : (FlagNode.addSub op x 1#64).value >>> w = x >>> w) :
    (FlagNode.addSub op x 1#64).overflow = false := by
  cases op with
  | add => exact Llvm.saddOverflow_eq_false hlt h
  | sub =>
    have hmsb : (x - 1#64).msb = x.msb := msb_eq_of_ushiftRight hlt h
    have hover : (FlagNode.addSub .sub x 1#64).overflow = x.ssubOverflow 1#64 := rfl
    rw [hover, BitVec.ssubOverflow_eq, hmsb]
    simp

theorem translateOneLock_eq (op : Riscv.AddSub) (m : MemOperand) :
    translateOneLock site s op m = .ok (s.performed (s.address site m)
      (.addSub op (s.load 64 (s.address site m)) 1#64) oneActs) :=
  LockState.writeFlags_atomic ..

theorem translateOne_eq (op : Riscv.AddSub) (m : MemOperand) :
    translateOne site s ow op m = .ok (s.performed (s.address site m)
      (.addSub op (s.load ow.bits (s.address site m)) (BitVec.ofNat ow.bits 1)) oneActs) :=
  LockState.writeFlags_arith ..

theorem performed_one_iff (ow : OpWidth) (op : Riscv.AddSub) (addr : BitVec 64) :
    s.performed addr (.addSub op (s.load 64 addr) 1#64) oneActs =
      s.performed addr (.addSub op (s.load ow.bits addr) (BitVec.ofNat ow.bits 1)) oneActs ↔
        oneFits ow op addr s := by
  by_cases how : ow = .qword
  · subst how
    exact iff_of_true rfl fun hne => absurd rfl hne
  · have hle := MulDivInst.bits_le ow
    have hlt : ow.bits < 64 := lt_of_le_of_ne hle fun h => how (OpWidth.eq_of_bits_eq h)
    have hload := s.setWidth_load hle ow.mul_div_bits (by decide : 8 * 8 = 64) addr
    have hvalue := setWidth_addSub_one op hle (s.load 64 addr)
    rw [hload] at hvalue
    rw [oneFits, forall_prop_of_true how, eq_comm]
    exact s.performed_eq_iff hlt ow.mul_div_bits (by decide : 8 * 8 = 64) (by decide) addr hvalue
      (by rintro (_ | _ | _ | _) h <;> first | rfl | exact absurd rfl h)
      (overflow_addSub_one op hlt _) nofun

/-! ## Exchanges -/

theorem flag_add_comm (x y : BitVec w) (p : FlagPort) :
    (FlagNode.addSub .add x y).flag p = (FlagNode.addSub .add y x).flag p := by
  cases p with
  | zero => exact congrArg (· == 0) (BitVec.add_comm x y)
  | negative => exact congrArg BitVec.msb (BitVec.add_comm x y)
  | carry =>
    have hcarry : x.uaddOverflow y = y.uaddOverflow x := by
      rw [BitVec.uaddOverflow, BitVec.uaddOverflow, Nat.add_comm]
    exact hcarry
  | overflow =>
    have hover : x.saddOverflow y = y.saddOverflow x := by
      rw [BitVec.saddOverflow, BitVec.saddOverflow, Int.add_comm]
    exact hover

/-- A write of a view leaves one content. -/
theorem content_eq_of_written {r : GprReg} {v : BitVec r.part.width} {x y y' : BitVec 64}
    (h : r.Written v x y) (h' : r.Written v x y') : y = y' :=
  BitVec.eq_of_getLsbD_eq fun i hi => (h i hi).trans (h' i hi).symm

theorem writeGpr_eq (r : GprReg) (v : BitVec r.part.width) :
    ∃ y, s.writeGpr r v = .ok (s.setRegs (s.regs.setGpr r.num y)) ∧
      r.Written v (s.regs.gpr r.num) y := by
  obtain ⟨y, hy, hwritten⟩ := GprReg.writeGpr_spec r .unsignedInteger v s.regs
  refine ⟨y, ?_, hwritten⟩
  rw [LockState.writeGpr, hy]
  rfl

theorem xadd_same_iff (m : MemOperand) (r : GprReg) (h : r.part.width = ow.bits) :
    (xadd m r h : LockInst ow).Same site s ↔ xaddFits site m r s := by
  obtain ⟨y, hy, hwritten⟩ := writeGpr_eq s r (s.load r.part.width (s.address site m))
  -- the write of the register does not depend on memory or flags
  have hwrite : ∀ t : LockState, t.regs = s.regs →
      t.writeGpr r (s.load r.part.width (s.address site m)) =
        .ok (t.setRegs (s.regs.setGpr r.num y)) := by
    intro t ht
    obtain ⟨z, hz, hwritten'⟩ := writeGpr_eq t r (s.load r.part.width (s.address site m))
    rw [ht] at hz hwritten'
    rw [hz, content_eq_of_written hwritten hwritten']
  let src := (s.regs.gpr r.num).setWidth r.part.width
  let old := s.load r.part.width (s.address site m)
  let after := s.setRegs (s.regs.setGpr r.num y)
  have hlocked : (xadd m r h : LockInst ow).locked site s =
      .ok (((s.store (s.address site m) (old + src)).setRegs after.regs).setFlags
        (flagsAfter (FlagNode.addSub .add old src).flag OpNode.sumActs s.flags)) := by
    rw [locked, translateXaddLock, GprReg.readGpr_eq, ok_bind]
    dsimp only
    rw [hwrite (s.store _ _) rfl, ok_bind, LockState.writeFlags_atomic]
    rfl
  have hplain : (xadd m r h : LockInst ow).plain site s =
      .ok (((s.store (after.address site m) (src + old)).setRegs after.regs).setFlags
        (flagsAfter (FlagNode.addSub .add src old).flag OpNode.sumActs s.flags)) := by
    rw [plain, translateXadd, GprReg.readGpr_eq, ok_bind]
    dsimp only
    rw [LockState.writeFlags_arith, ok_bind, hwrite (s.setFlags (flagsAfter
      (FlagNode.addSub .add src old).flag OpNode.sumActs s.flags)) rfl, ok_bind]
    rfl
  have hcomm : (FlagNode.addSub .add old src).flag = (FlagNode.addSub .add src old).flag :=
    funext (flag_add_comm old src)
  rw [same_iff_of_ok site s hlocked hplain, BitVec.add_comm old src, hcomm]
  constructor
  · intro hsame z hz
    obtain rfl := content_eq_of_written hwritten hz
    have hmem := congrArg LockState.mem hsame
    exact LockState.ext rfl hmem rfl
  · intro hfits
    have hmem := congrArg LockState.mem (hfits y hwritten)
    exact LockState.ext rfl hmem rfl

theorem xchg_same (memFirst : Bool) (m : MemOperand) (r : GprReg) (h : r.part.width = ow.bits) :
    (xchg memFirst m r h : LockInst ow).Same site s := by
  let stored := s.store (s.address site m) ((s.regs.gpr r.num).setWidth r.part.width)
  obtain ⟨y, hy, -⟩ := writeGpr_eq stored r (s.load r.part.width (s.address site m))
  have hrun : translateXchg site s m r = .ok (stored.setRegs (stored.regs.setGpr r.num y)) := by
    rw [translateXchg, GprReg.readGpr_eq, ok_bind]
    exact hy
  exact ⟨_, hrun, hrun⟩

/-- The translations with the prefix and without it leave the same state exactly if the instruction
fits. -/
theorem lock_same_iff (inst : LockInst ow) : inst.Same site s ↔ inst.fits site s := by
  cases inst with
  | arith op m src =>
    cases hop : op.atomic with
    | ok lop =>
      have hne : op ≠ .SUB ∧ op ≠ .XOR := by
        constructor <;> rintro rfl <;> exact nomatch hop
      rw [arith_same_iff site s hop, fits, and_iff_right hne.1, and_iff_right hne.2]
    | error e =>
      have hlocked : (arith op m src).locked site s = .error e := by
        rw [locked, translateArithLock, hop]
        rfl
      refine iff_of_false ?_ fun h => ?_
      · rintro ⟨t, ht, -⟩
        exact nomatch hlocked.symm.trans ht
      · cases op with
        | SUB => exact h.1 rfl
        | XOR => exact h.2.1 rfl
        | ADD | AND | OR => exact nomatch hop
  | inc m =>
    rw [@same_iff_of_ok ow site s (inc m) _ _ (translateOneLock_eq site s .add m)
      (translateOne_eq site s .add m)]
    exact performed_one_iff s ow .add _
  | dec m =>
    rw [@same_iff_of_ok ow site s (dec m) _ _ (translateOneLock_eq site s .sub m)
      (translateOne_eq site s .sub m)]
    exact performed_one_iff s ow .sub _
  | xadd m r h => exact xadd_same_iff site s m r h
  | xchg memFirst m r h => exact iff_of_true (xchg_same site s memFirst m r h) trivial
  | cmpxchg m r h =>
    refine iff_of_false ?_ id
    rintro ⟨t, -, ht⟩
    exact nomatch ht

/-- Memory where all bytes are 255. -/
def allOnes : LockState where
  regs _ := 0
  mem _ := 255
  flags _ := false
  isByte _ := by decide

/-- The first byte of memory. -/
def atZero : MemOperand :=
  ⟨none, none, .one, 0, none⟩

/-- `INC` of a byte, which is an addition to eight bytes with the prefix. -/
theorem not_lock_same : ¬(inc atZero : LockInst .byte).Same ⟨0, 4⟩ allOnes := by
  rw [lock_same_iff]
  intro h
  have hload : allOnes.load 64 (allOnes.address ⟨0, 4⟩ atZero) = -1#64 := rfl
  have habove := (h nofun).above
  rw [hload] at habove
  exact absurd habove (by decide)

end LockInst

end Arancini.X86
