import Arancini.Ir.Node
import Arancini.Llvm.Flags

/-!
# The flags of a node

A translator names for each of the six flags what is to become of it, and `write_flags` writes the
flags of a node. Which port or constant a flag is taken from depends on the kind of the node.

There is no case for the parity flag and none for the adjust flag, so they keep what they have. A
kind without a case for one of the others is an error, and the sign of a constant is the one of an
unsigned number. `writeFlags_right_iff` says for which requests and nodes the flags are right.
-/

namespace Arancini.X86

open Llvm (FlagNode FlagPort)

/-! ## Nodes -/

/-- The flags in the order of the arguments of `write_flags`. There is no register for `AF`. -/
inductive Flag
  | ZF
  | CF
  | OF
  | SF
  | PF
  | AF
  deriving DecidableEq

/-- `flag_op`. -/
inductive FlagOp
  | ignore
  | set0
  | set1
  | update
  deriving DecidableEq

/-- `node_kinds`, where `other` stands for those without flags. -/
inductive OpKind
  | unaryArith
  | binaryArith
  | ternaryArith
  | unaryAtomic
  | binaryAtomic
  | ternaryAtomic
  | bitShift
  | constant
  | other
  deriving DecidableEq

inductive UnaryOp
  | bnot
  | neg
  deriving DecidableEq

/-- A node with the operation of `w` bits it computes. The atomic operations have no product, and
compare-and-exchange has the flags of a difference. -/
inductive OpNode (w : ℕ)
  | unaryArith (op : UnaryOp) (lhs : BitVec w)
  | arith (node : FlagNode w)
  | unaryAtomic (op : UnaryOp) (lhs : BitVec w)
  | atomic (node : FlagNode w) (h : ∀ cls lhs rhs, node ≠ .mul cls lhs rhs)
  | bitShift (op : Ir.ShiftOp) (input : BitVec w) (amount : ℕ)
  | constant (cvi : BitVec 64)
  | other (value : BitVec w)

variable {w : ℕ}

def UnaryOp.value (op : UnaryOp) (lhs : BitVec w) : BitVec w :=
  match op with
  | bnot => ~~~lhs
  | neg => -lhs

def shiftValue (op : Ir.ShiftOp) (input : BitVec w) (amount : ℕ) : BitVec w :=
  match op with
  | .lsl => input <<< amount
  | .lsr => input >>> amount
  | .asr => input.sshiftRight amount

/-- The state of the flags. -/
abbrev FlagState :=
  Flag → Bool

namespace OpNode

def kind : OpNode w → OpKind
  | unaryArith .. => .unaryArith
  | arith (.ternary ..) => .ternaryArith
  | arith _ => .binaryArith
  | unaryAtomic .. => .unaryAtomic
  | atomic (.ternary ..) _ => .ternaryAtomic
  | atomic .. => .binaryAtomic
  | bitShift .. => .bitShift
  | constant _ => .constant
  | other _ => .other

/-- The result of the operation. A constant has the low bits of its number. -/
def value : OpNode w → BitVec w
  | unaryArith op lhs | unaryAtomic op lhs => op.value lhs
  | arith node | atomic node _ => node.value
  | bitShift op input amount => shiftValue op input amount
  | constant cvi => cvi.setWidth w
  | other value => value

/-- What a port gives. -/
def port (p : FlagPort) (node : OpNode w) : Bool :=
  match p, node with
  | p, arith node | p, atomic node _ => node.flag p
  | .zero, node => node.value == 0
  | .negative, node => node.value.msb
  | .carry, _ | .overflow, _ => false

/-- `constant_node::is_zero` of an integer. -/
def isZero : OpNode w → Bool
  | constant cvi => cvi == 0
  | _ => false

/-- `constant_node::const_val_i`, which is an `unsigned long`. -/
def constValI : OpNode w → ℕ
  | constant cvi => cvi.toNat
  | _ => 0

/-! ## `write_flags` -/

/-- What a flag is written from. -/
inductive FlagSource
  | constant (b : Bool)
  | port (p : FlagPort)
  deriving DecidableEq

/-- The source of an update of `ZF`. -/
def updateZf (op : OpNode w) : Except String FlagSource :=
  match op.kind with
  | .unaryArith | .binaryArith | .ternaryArith => .ok (.port .zero)
  | .unaryAtomic | .binaryAtomic | .ternaryAtomic => .ok (.port .zero)
  | .bitShift => .ok (.port .zero)
  | .constant => .ok (.constant op.isZero)
  | _ => .error "unsupported operation node type for ZF"

def updateCf (op : OpNode w) : Except String FlagSource :=
  match op.kind with
  | .binaryArith | .ternaryArith => .ok (.port .carry)
  | .binaryAtomic | .ternaryAtomic => .ok (.port .carry)
  | _ => .error "unsupported operation node type for CF"

def updateOf (op : OpNode w) : Except String FlagSource :=
  match op.kind with
  | .binaryArith | .ternaryArith => .ok (.port .overflow)
  | .binaryAtomic | .ternaryAtomic => .ok (.port .overflow)
  | _ => .error "unsupported operation node type for OF"

/-- The source of an update of `SF`. The number of a constant is compared with zero as it is. -/
def updateSf (op : OpNode w) : Except String FlagSource :=
  match op.kind with
  | .unaryArith | .binaryArith | .ternaryArith => .ok (.port .negative)
  | .unaryAtomic | .binaryAtomic | .ternaryAtomic => .ok (.port .negative)
  | .bitShift => .ok (.port .negative)
  | .constant => .ok (.constant (op.constValI < 0))
  | _ => .error "unsupported operation node type for SF"

/-- The writes of one flag. -/
def writeFlag (flag : Flag) (action : FlagOp) (source : Except String FlagSource) :
    Except String (List (Flag × FlagSource)) :=
  match action with
  | .set0 => .ok [(flag, .constant false)]
  | .set1 => .ok [(flag, .constant true)]
  | .update => do
    let value ← source
    return [(flag, value)]
  | .ignore => .ok []

/-- `write_flags`, with the arguments for the flags as a function. -/
def writeFlags (op : OpNode w) (acts : Flag → FlagOp) :
    Except String (List (Flag × FlagSource)) := do
  let zf ← writeFlag .ZF (acts .ZF) op.updateZf
  let cf ← writeFlag .CF (acts .CF) op.updateCf
  let of ← writeFlag .OF (acts .OF) op.updateOf
  let sf ← writeFlag .SF (acts .SF) op.updateSf
  return zf ++ cf ++ of ++ sf

/-- The arguments after `AND`, `OR`, `XOR` and `TEST`. -/
def logicActs : Flag → FlagOp
  | .ZF | .SF | .PF => .update
  | .CF | .OF => .set0
  | .AF => .ignore

/-- The arguments after `ADD`, `ADC`, `SUB`, `SBB` and `CMP`. -/
def sumActs : Flag → FlagOp :=
  fun _ => .update

def FlagSource.eval (op : OpNode w) : FlagSource → Bool
  | constant b => b
  | port p => op.port p

/-- Run the writes. They read the ports of a node that was computed before. -/
def runWrites (op : OpNode w) : List (Flag × FlagSource) → FlagState → FlagState
  | [], s => s
  | (flag, value) :: l, s => runWrites op l (Function.update s flag (value.eval op))

/-! ## The reference -/

/-- An even number of ones in the low byte. -/
def parity (value : BitVec w) : Bool :=
  ((List.range 8).countP fun i => value.getLsbD i) % 2 == 0

/-- A carry out of the low four bits, of the operations that have it. -/
def adjust : OpNode w → Option Bool
  | arith (.addSub op lhs rhs) | atomic (.addSub op lhs rhs) _ =>
    some (lhs.getLsbD 4 ^^ rhs.getLsbD 4 ^^ (op.value lhs rhs).getLsbD 4)
  | arith (.ternary op lhs rhs top) | atomic (.ternary op lhs rhs top) _ =>
    some (lhs.getLsbD 4 ^^ rhs.getLsbD 4 ^^ (op.value lhs rhs top).getLsbD 4)
  | unaryArith .neg lhs | unaryAtomic .neg lhs => some (lhs.setWidth 4 != 0)
  | _ => none

/-- The carry of the operation. A negation borrows unless it is one of zero. -/
def carry : OpNode w → Option Bool
  | arith node | atomic node _ => some node.carry
  | unaryArith .neg lhs | unaryAtomic .neg lhs => some (lhs != 0)
  | _ => none

def overflow : OpNode w → Option Bool
  | arith node | atomic node _ => some node.overflow
  | unaryArith .neg lhs | unaryAtomic .neg lhs => some (lhs == BitVec.intMin w)
  | _ => none

/-- The flag of the result of the operation, if it is defined. -/
def flag (node : OpNode w) : Flag → Option Bool
  | .ZF => some (node.value == 0)
  | .CF => node.carry
  | .OF => node.overflow
  | .SF => some node.value.msb
  | .PF => some (parity node.value)
  | .AF => node.adjust

end OpNode

/-- What was asked for is there. -/
def FlagOp.Met (action : FlagOp) (result : Option Bool) (old new : Bool) : Prop :=
  match action with
  | ignore => new = old
  | set0 => new = false
  | set1 => new = true
  | update => ∀ b ∈ result, new = b

namespace OpNode

/-- The flags are written, and each is what was asked for. -/
def WritesFlags (node : OpNode w) (acts : Flag → FlagOp) (s : FlagState) : Prop :=
  ∃ writes, node.writeFlags acts = .ok writes ∧
    ∀ flag, (acts flag).Met (node.flag flag) (s flag) (runWrites node writes s flag)

/-- The kinds that have a zero and a sign. -/
def hasSign (node : OpNode w) : Prop :=
  node.kind ≠ .other

/-- The kinds that have a carry and an overflow. -/
def hasCarry (node : OpNode w) : Prop :=
  node.kind ∈ [.binaryArith, .ternaryArith, .binaryAtomic, .ternaryAtomic]

/-- There is a case for each update of a flag with a case at all, the flags without one have what
was asked for, and a constant is zero only with all its bits and has no sign. -/
structure Fits (node : OpNode w) (acts : Flag → FlagOp) (s : FlagState) : Prop where
  sign : acts .ZF = .update ∨ acts .SF = .update → node.hasSign
  carry : acts .CF = .update ∨ acts .OF = .update → node.hasCarry
  zero : ∀ cvi, node = .constant cvi → acts .ZF = .update → (cvi = 0 ↔ cvi.setWidth w = 0)
  negative : ∀ cvi, node = .constant cvi → acts .SF = .update → (cvi.setWidth w).msb = false
  pf : (acts .PF).Met (node.flag .PF) (s .PF) (s .PF)
  af : (acts .AF).Met (node.flag .AF) (s .AF) (s .AF)

end OpNode

/-! ## One flag -/

/-- What a flag has after its writes, if an update gives `value`. -/
def FlagOp.after (action : FlagOp) (value old : Bool) : Bool :=
  match action with
  | ignore => old
  | set0 => false
  | set1 => true
  | update => value

theorem FlagOp.met_after_iff (action : FlagOp) (result : Option Bool) (value old : Bool) :
    action.Met result old (action.after value old) ↔
      (action = .update → ∀ b ∈ result, value = b) := by
  cases action with
  | update => exact ⟨fun h _ => h, fun h => h rfl⟩
  | ignore | set0 | set1 => exact iff_of_true rfl nofun

namespace OpNode

/-- The value of a source. -/
def FlagSource.read (op : OpNode w) : Except String FlagSource → Bool
  | .ok value => value.eval op
  | .error _ => false

section Flag

variable (op : OpNode w) (flag : Flag) (action : FlagOp) (source : Except String FlagSource)

theorem writeFlag_ok_iff :
    (∃ l, writeFlag flag action source = .ok l) ↔
      (action = .update → ∃ value, source = .ok value) := by
  cases action with
  | update =>
    cases source with
    | ok value => exact iff_of_true ⟨_, rfl⟩ fun _ => ⟨value, rfl⟩
    | error e => exact iff_of_false nofun fun h => nomatch (h rfl).choose_spec
  | ignore | set0 | set1 => exact iff_of_true ⟨_, rfl⟩ nofun

theorem runWrites_append (l l' : List (Flag × FlagSource)) (s : FlagState) :
    runWrites op (l ++ l') s = runWrites op l' (runWrites op l s) := by
  induction l generalizing s with
  | nil => rfl
  | cons write l ih => exact ih _

theorem runWrites_writeFlag {l : List (Flag × FlagSource)}
    (h : writeFlag flag action source = .ok l) (s : FlagState) :
    runWrites op l s =
      Function.update s flag (action.after (FlagSource.read op source) (s flag)) := by
  cases action with
  | update =>
    cases source with
    | ok value =>
      obtain rfl := Except.ok.inj h
      rfl
    | error e => exact nomatch h
  | ignore =>
    obtain rfl := Except.ok.inj h
    exact (Function.update_eq_self flag s).symm
  | set0 | set1 =>
    obtain rfl := Except.ok.inj h
    rfl

end Flag

/-! ## All flags -/

/-- The flags with a case, and their sources. -/
def source (op : OpNode w) : Flag → Option (Except String FlagSource)
  | .ZF => some op.updateZf
  | .CF => some op.updateCf
  | .OF => some op.updateOf
  | .SF => some op.updateSf
  | .PF | .AF => none

/-- What a flag has after `write_flags`. -/
def flagAfter (op : OpNode w) (acts : Flag → FlagOp) (s : FlagState) (flag : Flag) : Bool :=
  match op.source flag with
  | some source => (acts flag).after (FlagSource.read op source) (s flag)
  | none => s flag

theorem writeFlags_ok_iff (op : OpNode w) (acts : Flag → FlagOp) :
    (∃ writes, op.writeFlags acts = .ok writes) ↔
      ∀ flag, ∀ source ∈ op.source flag, acts flag = .update → ∃ value, source = .ok value := by
  have hflag := fun flag source => writeFlag_ok_iff flag (acts flag) source
  constructor
  · rintro ⟨writes, h⟩ flag source hsource
    rw [← hflag flag source]
    obtain ⟨zf, hzf, h⟩ := bind_eq_ok.1 h
    obtain ⟨cf, hcf, h⟩ := bind_eq_ok.1 h
    obtain ⟨of, hof, h⟩ := bind_eq_ok.1 h
    obtain ⟨sf, hsf, -⟩ := bind_eq_ok.1 h
    cases flag with
    | ZF => exact ⟨zf, Option.some.inj hsource ▸ hzf⟩
    | CF => exact ⟨cf, Option.some.inj hsource ▸ hcf⟩
    | OF => exact ⟨of, Option.some.inj hsource ▸ hof⟩
    | SF => exact ⟨sf, Option.some.inj hsource ▸ hsf⟩
    | PF | AF => exact nomatch hsource
  · intro h
    obtain ⟨zf, hzf⟩ := (hflag .ZF _).2 (h .ZF _ rfl)
    obtain ⟨cf, hcf⟩ := (hflag .CF _).2 (h .CF _ rfl)
    obtain ⟨of, hof⟩ := (hflag .OF _).2 (h .OF _ rfl)
    obtain ⟨sf, hsf⟩ := (hflag .SF _).2 (h .SF _ rfl)
    refine ⟨zf ++ cf ++ of ++ sf, ?_⟩
    rw [writeFlags, hzf, ok_bind, hcf, ok_bind, hof, ok_bind, hsf]
    rfl

theorem runWrites_writeFlags {op : OpNode w} {acts : Flag → FlagOp}
    {writes : List (Flag × FlagSource)} (h : op.writeFlags acts = .ok writes) (s : FlagState) :
    runWrites op writes s = op.flagAfter acts s := by
  obtain ⟨zf, hzf, h⟩ := bind_eq_ok.1 h
  obtain ⟨cf, hcf, h⟩ := bind_eq_ok.1 h
  obtain ⟨of, hof, h⟩ := bind_eq_ok.1 h
  obtain ⟨sf, hsf, h⟩ := bind_eq_ok.1 h
  obtain rfl := Except.ok.inj h
  rw [runWrites_append, runWrites_append, runWrites_append, runWrites_writeFlag op _ _ _ hzf,
    runWrites_writeFlag op _ _ _ hcf, runWrites_writeFlag op _ _ _ hof,
    runWrites_writeFlag op _ _ _ hsf]
  funext flag
  cases flag <;> rfl

/-! ## The updates -/

/-- A source gives the flag of the result. -/
def SourceRight (op : OpNode w) (flag : Flag) (source : Except String FlagSource) : Prop :=
  (∃ value, source = .ok value) ∧ ∀ b ∈ op.flag flag, FlagSource.read op source = b

/-- The sources of a node with an arithmetic operation. -/
structure PortSources (node : OpNode w) : Prop where
  zf : node.updateZf = .ok (.port .zero)
  cf : node.updateCf = .ok (.port .carry)
  of : node.updateOf = .ok (.port .overflow)
  sf : node.updateSf = .ok (.port .negative)
  kind : node.hasCarry

theorem portSources_arith (node : FlagNode w) : (arith node).PortSources := by
  cases node with
  | ternary => exact ⟨rfl, rfl, rfl, rfl, by simp [hasCarry, OpNode.kind]⟩
  | addSub | mul | logic => exact ⟨rfl, rfl, rfl, rfl, by simp [hasCarry, OpNode.kind]⟩

theorem portSources_atomic (node : FlagNode w) (h : ∀ cls lhs rhs, node ≠ .mul cls lhs rhs) :
    (atomic node h).PortSources := by
  cases node with
  | ternary => exact ⟨rfl, rfl, rfl, rfl, by simp [hasCarry, OpNode.kind]⟩
  | addSub | mul | logic => exact ⟨rfl, rfl, rfl, rfl, by simp [hasCarry, OpNode.kind]⟩

theorem hasSign_of_hasCarry {node : OpNode w} (h : node.hasCarry) : node.hasSign := by
  intro hkind
  rw [hasCarry, hkind] at h
  exact absurd h (by decide)

theorem sourceRight_of_ok {node : OpNode w} {flag : Flag} {source : Except String FlagSource}
    {value : FlagSource} (h : source = .ok value) :
    node.SourceRight flag source ↔ ∀ b ∈ node.flag flag, value.eval node = b := by
  subst h
  exact and_iff_right ⟨value, rfl⟩

theorem sourceRight_zf_iff (node : OpNode w) :
    node.SourceRight .ZF node.updateZf ↔
      node.hasSign ∧ ∀ cvi, node = .constant cvi → (cvi = 0 ↔ cvi.setWidth w = 0) := by
  cases node with
  | unaryArith | unaryAtomic | bitShift =>
    refine iff_of_true ((sourceRight_of_ok rfl).2 ?_) ⟨nofun, nofun⟩
    exact fun b hb => Option.some.inj hb
  | arith node =>
    have hport := portSources_arith node
    refine iff_of_true ((sourceRight_of_ok hport.zf).2 ?_) ⟨hasSign_of_hasCarry hport.kind, nofun⟩
    exact fun b hb => Option.some.inj hb
  | atomic node h =>
    have hport := portSources_atomic node h
    refine iff_of_true ((sourceRight_of_ok hport.zf).2 ?_) ⟨hasSign_of_hasCarry hport.kind, nofun⟩
    exact fun b hb => Option.some.inj hb
  | constant cvi =>
    have hsource : (constant cvi : OpNode w).updateZf = .ok (.constant (cvi == 0)) := rfl
    rw [sourceRight_of_ok hsource]
    constructor
    · intro h
      refine ⟨nofun, fun cvi' hcvi => ?_⟩
      cases hcvi
      have hflag : (cvi == 0) = (cvi.setWidth w == 0) := h _ rfl
      rw [← beq_iff_eq, hflag, beq_iff_eq]
    · rintro ⟨-, h⟩ b hb
      obtain rfl := Option.some.inj hb
      have hflag : (cvi == 0) = true ↔ (cvi.setWidth w == 0) = true := by simpa using h cvi rfl
      exact Bool.eq_iff_iff.2 hflag
  | other value => exact iff_of_false (fun h => nomatch h.1.choose_spec) fun h => h.1 rfl

theorem sourceRight_sf_iff (node : OpNode w) :
    node.SourceRight .SF node.updateSf ↔
      node.hasSign ∧ ∀ cvi, node = .constant cvi → (cvi.setWidth w).msb = false := by
  cases node with
  | unaryArith | unaryAtomic | bitShift =>
    refine iff_of_true ((sourceRight_of_ok rfl).2 ?_) ⟨nofun, nofun⟩
    exact fun b hb => Option.some.inj hb
  | arith node =>
    have hport := portSources_arith node
    refine iff_of_true ((sourceRight_of_ok hport.sf).2 ?_) ⟨hasSign_of_hasCarry hport.kind, nofun⟩
    exact fun b hb => Option.some.inj hb
  | atomic node h =>
    have hport := portSources_atomic node h
    refine iff_of_true ((sourceRight_of_ok hport.sf).2 ?_) ⟨hasSign_of_hasCarry hport.kind, nofun⟩
    exact fun b hb => Option.some.inj hb
  | constant cvi =>
    have hunsigned : decide (cvi.toNat < 0) = false := decide_eq_false (Nat.not_lt_zero _)
    have hsource : (constant cvi : OpNode w).updateSf = .ok (.constant (cvi.toNat < 0)) := rfl
    rw [sourceRight_of_ok hsource]
    constructor
    · intro h
      refine ⟨nofun, fun cvi' hcvi => ?_⟩
      cases hcvi
      exact (h _ rfl).symm.trans hunsigned
    · rintro ⟨-, h⟩ b hb
      obtain rfl := Option.some.inj hb
      exact hunsigned.trans (h cvi rfl).symm
  | other value => exact iff_of_false (fun h => nomatch h.1.choose_spec) fun h => h.1 rfl

/-- `CF` and `OF` are right where there is a case for them. -/
theorem sourceRight_carry_iff (node : OpNode w) :
    (node.SourceRight .CF node.updateCf ↔ node.hasCarry) ∧
      (node.SourceRight .OF node.updateOf ↔ node.hasCarry) := by
  cases node with
  | arith node =>
    have hport := portSources_arith node
    refine ⟨iff_of_true ((sourceRight_of_ok hport.cf).2 ?_) hport.kind,
      iff_of_true ((sourceRight_of_ok hport.of).2 ?_) hport.kind⟩
    · exact fun b hb => Option.some.inj hb
    · exact fun b hb => Option.some.inj hb
  | atomic node h =>
    have hport := portSources_atomic node h
    refine ⟨iff_of_true ((sourceRight_of_ok hport.cf).2 ?_) hport.kind,
      iff_of_true ((sourceRight_of_ok hport.of).2 ?_) hport.kind⟩
    · exact fun b hb => Option.some.inj hb
    · exact fun b hb => Option.some.inj hb
  | unaryArith | unaryAtomic | bitShift | constant | other =>
    refine ⟨iff_of_false (fun h => nomatch h.1.choose_spec) ?_,
      iff_of_false (fun h => nomatch h.1.choose_spec) ?_⟩
    · simp [hasCarry, OpNode.kind]
    · simp [hasCarry, OpNode.kind]

/-! ## When the flags are right -/

/-- The flags are right exactly if each flag with a case is where it is updated, and each flag
without one is as it is. -/
theorem writesFlags_iff_sources (node : OpNode w) (acts : Flag → FlagOp) (s : FlagState) :
    node.WritesFlags acts s ↔ ∀ flag, match node.source flag with
      | some source => acts flag = .update → node.SourceRight flag source
      | none => (acts flag).Met (node.flag flag) (s flag) (s flag) := by
  have hok := writeFlags_ok_iff node acts
  constructor
  · rintro ⟨writes, h, hmet⟩ flag
    have hsources := hok.1 ⟨writes, h⟩ flag
    have hflag := hmet flag
    rw [runWrites_writeFlags h, flagAfter] at hflag
    cases hsource : node.source flag with
    | none =>
      rw [hsource] at hflag
      exact hflag
    | some source =>
      rw [hsource, FlagOp.met_after_iff] at hflag
      exact fun hupdate => ⟨hsources source hsource hupdate, hflag hupdate⟩
  · intro h
    obtain ⟨writes, hwrites⟩ := hok.2 fun flag source hsource hupdate => by
      have hflag := h flag
      rw [hsource] at hflag
      exact (hflag hupdate).1
    refine ⟨writes, hwrites, fun flag => ?_⟩
    have hflag := h flag
    rw [runWrites_writeFlags hwrites, flagAfter]
    cases hsource : node.source flag with
    | none =>
      rw [hsource] at hflag
      exact hflag
    | some source =>
      rw [hsource] at hflag
      exact (FlagOp.met_after_iff ..).2 fun hupdate => (hflag hupdate).2

/-- The flags are right exactly if there is a case for what is asked for, or it is there already. -/
theorem writeFlags_right_iff (node : OpNode w) (acts : Flag → FlagOp) (s : FlagState) :
    node.WritesFlags acts s ↔ node.Fits acts s := by
  obtain ⟨hcf, hof⟩ := sourceRight_carry_iff node
  have hzf := sourceRight_zf_iff node
  have hsf := sourceRight_sf_iff node
  rw [writesFlags_iff_sources]
  constructor
  · intro h
    refine ⟨?_, ?_, fun cvi hcvi hupdate => (hzf.1 (h .ZF hupdate)).2 cvi hcvi,
      fun cvi hcvi hupdate => (hsf.1 (h .SF hupdate)).2 cvi hcvi, h .PF, h .AF⟩
    · rintro (hupdate | hupdate)
      · exact (hzf.1 (h .ZF hupdate)).1
      · exact (hsf.1 (h .SF hupdate)).1
    · rintro (hupdate | hupdate)
      · exact hcf.1 (h .CF hupdate)
      · exact hof.1 (h .OF hupdate)
  · rintro ⟨hsign, hcarry, hzero, hnegative, hpf, haf⟩ flag
    cases flag with
    | ZF =>
      exact fun hupdate => hzf.2 ⟨hsign (.inl hupdate), fun cvi hcvi => hzero cvi hcvi hupdate⟩
    | CF => exact fun hupdate => hcf.2 (hcarry (.inl hupdate))
    | OF => exact fun hupdate => hof.2 (hcarry (.inr hupdate))
    | SF =>
      exact fun hupdate => hsf.2 ⟨hsign (.inr hupdate), fun cvi hcvi => hnegative cvi hcvi hupdate⟩
    | PF => exact hpf
    | AF => exact haf

/-- After an arithmetic operation it is the flags without a case that have to be there. -/
theorem writesFlags_arith_iff (node : FlagNode w) (acts : Flag → FlagOp) (s : FlagState) :
    (arith node).WritesFlags acts s ↔
      (acts .PF).Met (some (parity node.value)) (s .PF) (s .PF) ∧
        (acts .AF).Met (arith node).adjust (s .AF) (s .AF) := by
  have hcarry := (portSources_arith node).kind
  obtain ⟨hcf, hof⟩ := sourceRight_carry_iff (arith node)
  have hzf := (sourceRight_zf_iff (arith node)).2 ⟨hasSign_of_hasCarry hcarry, nofun⟩
  have hsf := (sourceRight_sf_iff (arith node)).2 ⟨hasSign_of_hasCarry hcarry, nofun⟩
  rw [writesFlags_iff_sources]
  constructor
  · intro h
    exact ⟨h .PF, h .AF⟩
  · rintro ⟨hpf, haf⟩ flag
    cases flag with
    | ZF => exact fun _ => hzf
    | CF => exact fun _ => hcf.2 hcarry
    | OF => exact fun _ => hof.2 hcarry
    | SF => exact fun _ => hsf
    | PF => exact hpf
    | AF => exact haf

/-- After `AND`, `OR`, `XOR` and `TEST` the parity has to be there. -/
theorem writesFlags_logicActs_iff (node : FlagNode w) (s : FlagState) :
    (arith node).WritesFlags logicActs s ↔ s .PF = parity node.value := by
  rw [writesFlags_arith_iff]
  simp [logicActs, FlagOp.Met]

/-- After a sum or a difference the adjust flag has to be there as well. -/
theorem writesFlags_sumActs_iff (node : FlagNode w) (s : FlagState) :
    (arith node).WritesFlags sumActs s ↔
      s .PF = parity node.value ∧ ∀ b ∈ (arith node).adjust, s .AF = b := by
  rw [writesFlags_arith_iff]
  simp [sumActs, FlagOp.Met]

/-- `ADD` of 1 and 2 when no flag is set. The parity of 3 is even. -/
theorem not_writesFlags_add :
    ¬(arith (.addSub .add 1 2) : OpNode 8).WritesFlags sumActs fun _ => false := by
  intro h
  exact absurd ((writesFlags_sumActs_iff _ _).1 h).1 (by decide)

end OpNode

end Arancini.X86
