import Mathlib.Algebra.Group.Nat.Defs
import Mathlib.Data.List.Sort
import Mathlib.Tactic.Common
import Arancini.X86.Reg

/-!
# The intermediate representation

A packet is what one guest instruction was translated to. It holds a graph of nodes :
value nodes compute a value from the ports of other nodes, and action nodes do
something. The builder creates a node after the nodes it reads, and appends each action
node to the list of actions as it creates it. `Packet` has the nodes in the order they
were created, so a node is its position in that list, its operands come before it
(`operand_lt`), and the list of actions is increasing (`sorted`).

A chunk is a list of packets, of one basic block or of one function.
-/

namespace Arancini.Ir

/-- A node of a packet, as its position in the order of creation. -/
abbrev NodeId := ℕ

/-- `value_type_class`. -/
inductive TypeClass
  | none
  | signedInteger
  | unsignedInteger
  | floatingPoint
  deriving DecidableEq, Repr

/-- `value_type`. -/
structure ValueType where
  typeClass : TypeClass
  elementWidth : ℕ
  nrElements : ℕ
  deriving DecidableEq, Repr

namespace ValueType

/-- Width in bits. -/
def width (vt : ValueType) : ℕ :=
  vt.elementWidth * vt.nrElements

def u (width : ℕ) : ValueType :=
  ⟨.unsignedInteger, width, 1⟩

def s (width : ℕ) : ValueType :=
  ⟨.signedInteger, width, 1⟩

def f (width : ℕ) : ValueType :=
  ⟨.floatingPoint, width, 1⟩

end ValueType

/-- `port_kinds`. -/
inductive PortKind
  | value
  | constant
  | zero
  | negative
  | overflow
  | carry
  | operationValue
  deriving DecidableEq, Repr

/-- An output of a node. -/
structure Port where
  kind : PortKind
  type : ValueType
  owner : NodeId
  deriving DecidableEq, Repr

/-- How a packet moves the PC, in increasing order of `br_type`. -/
inductive BrType
  | none
  | sys
  | br
  | csel
  | call
  | ret
  deriving DecidableEq, Repr

/-- The number of the enumerator. -/
def BrType.toNat : BrType → ℕ
  | none => 0
  | sys => 1
  | br => 2
  | csel => 3
  | call => 4
  | ret => 5

inductive ShiftOp
  | lsl
  | lsr
  | asr
  deriving DecidableEq, Repr

inductive CastOp
  | bitcast
  | zx
  | sx
  | trunc
  | convert
  deriving DecidableEq, Repr

inductive FpConvertType
  | none
  | round
  | trunc
  deriving DecidableEq, Repr

inductive UnaryArithOp
  | bnot
  | neg
  | complement
  | sqrt
  deriving DecidableEq, Repr

inductive BinaryArithOp
  | add | sub | mul | div | mod | band | bor | bxor
  | cmpeq | cmpne | cmpgt
  | cmpoeq | cmpolt | cmpole | cmpueq | cmpult | cmpune | cmpunlt | cmpunle | cmpo | cmpu
  deriving DecidableEq, Repr

inductive TernaryArithOp
  | adc
  | sbb
  deriving DecidableEq, Repr

inductive UnaryAtomicOp
  | neg
  | bnot
  deriving DecidableEq, Repr

inductive BinaryAtomicOp
  | add | sub | band | bor | xadd | bxor | btc | btr | bts | xchg
  deriving DecidableEq, Repr

inductive TernaryAtomicOp
  | adc
  | sbb
  | cmpxchg
  deriving DecidableEq, Repr

/-- The nodes of `node.h`. A branch has no target until its label is created. -/
inductive Node
  | label (name : String)
  | br (target : Option NodeId)
  | condBr (cond : Port) (target : Option NodeId)
  | readPc
  | writePc (value : Port) (brType : BrType) (constTarget : ℕ)
  | constant (vt : ValueType) (val : ℕ)
  | readReg (vt : ValueType) (regoff regidx : ℕ) (regname : String)
  | readMem (vt : ValueType) (address : Port)
  | writeReg (regoff regidx : ℕ) (regname : String) (value : Port)
  | writeMem (address value : Port)
  | csel (condition trueval falseval : Port)
  | bitShift (op : ShiftOp) (input amount : Port)
  | cast (op : CastOp) (targetType : ValueType) (sourceValue : Port) (convertType : FpConvertType)
  | unaryArith (op : UnaryArithOp) (lhs : Port)
  | binaryArith (op : BinaryArithOp) (lhs rhs : Port)
  | ternaryArith (op : TernaryArithOp) (lhs rhs top : Port)
  | unaryAtomic (op : UnaryAtomicOp) (lhs : Port)
  | binaryAtomic (op : BinaryAtomicOp) (address rhs : Port)
  | ternaryAtomic (op : TernaryAtomicOp) (address rhs top : Port)
  | bitExtract (sourceValue : Port) (start length : ℕ)
  | bitInsert (sourceValue bits : Port) (start length : ℕ)
  | vectorExtract (sourceVector : Port) (index : ℕ)
  | vectorInsert (sourceVector : Port) (index : ℕ) (insertValue : Port)
  | readLocal (vt : ValueType) (lcl : ℕ)
  | writeLocal (lcl : ℕ) (value : Port)
  | internalCall (fn : String) (retType : ValueType) (args : List Port)
  deriving DecidableEq, Repr

namespace Node

/-- The ports a node reads, in the order `default_visitor` visits them. -/
def operands : Node → List Port
  | label _ | br _ | readPc | constant .. | readReg .. | readLocal .. => []
  | condBr c _ => [c]
  | writePc v _ _ => [v]
  | readMem _ a => [a]
  | writeReg _ _ _ v => [v]
  | writeMem a v => [a, v]
  | csel c t f => [c, t, f]
  | bitShift _ i a => [i, a]
  | cast _ _ s _ => [s]
  | unaryArith _ l => [l]
  | binaryArith _ l r => [l, r]
  | ternaryArith _ l r t => [l, r, t]
  | unaryAtomic _ l => [l]
  | binaryAtomic _ a r => [a, r]
  | ternaryAtomic _ a r t => [a, r, t]
  | bitExtract s _ _ => [s]
  | bitInsert s b _ _ => [s, b]
  | vectorExtract s _ => [s]
  | vectorInsert s _ v => [s, v]
  | writeLocal _ v => [v]
  | internalCall _ _ args => args

/-- `is_action`. -/
def isAction : Node → Bool
  | label _ | br _ | condBr .. | writePc .. | writeReg .. | writeMem .. | writeLocal .. => true
  | unaryAtomic .. | binaryAtomic .. | ternaryAtomic .. | internalCall .. => true
  | _ => false

/-- `updates_pc` of an action node. -/
def updatesPc : Node → BrType
  | writePc _ t _ => t
  | internalCall .. => .sys
  | _ => .none

/-- The node writes the PC : a `write_pc`, or a `write_reg` of it. -/
def writesPc : Node → Bool
  | writePc .. => true
  | writeReg off _ _ _ => off == Reg.PC.offset
  | _ => false

end Node

/-- What a translator inserts into a packet. `targets` lists the uses of the ports : the
owner and the kind of a port, and a node that reads it. -/
structure Body where
  nodes : List Node
  actions : List NodeId
  targets : List (NodeId × PortKind × NodeId)
  operand_lt : ∀ (n : NodeId) (node : Node), nodes[n]? = some node →
    ∀ o ∈ node.operands, o.owner < n
  sorted : actions.Pairwise (· < ·)
  isAction : ∀ a ∈ actions, ∃ node, nodes[a]? = some node ∧ node.isAction

/-- A translated guest instruction. -/
structure Packet extends Body where
  address : ℕ

theorem Packet.owner_lt (p : Packet) : ∀ (n : NodeId) (node : Node), p.nodes[n]? = some node →
    ∀ o ∈ node.operands, o.owner < n :=
  p.operand_lt

theorem sorted_one : ([1] : List NodeId).Pairwise (· < ·) :=
  List.pairwise_singleton ..

/-- In a jump, a constant comes before the write of the PC. -/
theorem operand_lt_jump (target : ℕ) : ∀ (n : NodeId) (node : Node),
    [.constant (.u 64) target, .writePc ⟨.value, .u 64, 0⟩ .br 0][n]? = some node →
      ∀ o ∈ node.operands, o.owner < n := by
  rintro (_ | _ | n) node h <;> simp at h <;> subst h <;> simp [Node.operands]

theorem isAction_jump (target : ℕ) : ∀ a ∈ [1], ∃ node : Node,
    [.constant (.u 64) target, .writePc ⟨.value, .u 64, 0⟩ .br 0][a]? = some node ∧
      node.isAction := by
  simp [Node.isAction]

/-- `chunk`. -/
structure Chunk where
  name : String
  packets : List Packet

namespace Body

/-- A body no node has been inserted into. -/
def empty : Body where
  nodes := []
  actions := []
  targets := []
  operand_lt := by simp
  sorted := .nil
  isAction := by simp

/-- The actions themselves. -/
def actionNodes (b : Body) : List Node :=
  b.actions.filterMap (b.nodes[·]?)

/-- `packet::updates_pc` : the greatest `br_type` of an action. -/
def updatesPc (b : Body) : BrType :=
  b.actionNodes.foldl
    (fun max a => if a.updatesPc.toNat > max.toNat then a.updatesPc else max) .none

/-- `Path b i l` : control that stands at node `i` runs the actions `l` and reaches the
end of the packet. -/
inductive Path (b : Body) : NodeId → List NodeId → Prop
  | done {i : NodeId} : b.nodes[i]? = none → Path b i []
  | skip {i : NodeId} {l : List NodeId} : i < b.nodes.length → i ∉ b.actions → Path b (i + 1) l →
      Path b i l
  | next {i : NodeId} {l : List NodeId} {node : Node} : b.nodes[i]? = some node → i ∈ b.actions →
      (∀ t, node ≠ .br t) → Path b (i + 1) l → Path b i (i :: l)
  | br {i t : NodeId} {l : List NodeId} : b.nodes[i]? = some (.br (some t)) → i ∈ b.actions →
      Path b t l → Path b i (i :: l)
  | taken {i t : NodeId} {l : List NodeId} {c : Port} : b.nodes[i]? = some (.condBr c (some t)) →
      i ∈ b.actions → Path b t l → Path b i (i :: l)

/-- A path runs actions of the packet. -/
theorem Path.mem_actions {b : Body} {i : NodeId} {l : List NodeId} (h : b.Path i l) :
    ∀ a ∈ l, a ∈ b.actions := by
  induction h with
  | done => simp
  | skip _ _ _ ih => exact ih
  | next _ hi _ _ ih | br _ hi _ ih | taken _ hi _ ih =>
    intro a ha
    rcases List.mem_cons.1 ha with rfl | ha
    · exact hi
    · exact ih a ha

/-- Some action of the path writes the PC. -/
def SetsPc (b : Body) (path : List NodeId) : Prop :=
  ∃ i ∈ path, ∃ node, b.nodes[i]? = some node ∧ node.writesPc

/-- The last action of the path that writes the PC writes the constant `pc`. -/
def SetsPcTo (b : Body) (path : List NodeId) (pc : ℕ) : Prop :=
  ∃ pre i post v t c vt, path = pre ++ i :: post ∧ b.nodes[i]? = some (.writePc v t c) ∧
    b.nodes[v.owner]? = some (.constant vt pc) ∧ ¬b.SetsPc post

theorem SetsPcTo.setsPc {b : Body} {path : List NodeId} {pc : ℕ} (h : b.SetsPcTo path pc) :
    b.SetsPc path := by
  obtain ⟨pre, i, post, v, t, c, vt, rfl, hi, -⟩ := h
  exact ⟨i, by simp, _, hi, rfl⟩

end Body

end Arancini.Ir
