import Arancini.Ir.Node
import Arancini.X86Host.AllocateSound

/-!
# The x86 translation context

`lowerBlock` appends the code of a block to the builder. A node is materialised once, after the
nodes it reads, and each port it has gets a new virtual register. `endBlock` allocates all the
builder holds, which is the code of the blocks before as well : the builder is never emptied.

The code of a block is closed and fresh, and its operands have the widths of the ports
(`materialise_spec`), so what `endBlock` makes of any builder is sound (`allocate_sound`).
-/

namespace Arancini.X86Host

open Ir RegAlloc

/-! ## Graphs -/

/-- The types of the ports of a node, for the nodes that can be materialised. -/
def portType : Node → PortKind → Option ValueType
  | .readReg vt .., .value => some vt
  | .readMem vt _, .value => some vt
  | .constant vt _, .value => some vt
  | .readPc, .value => some (.u 64)
  | .cast _ vt _ _, .value => some vt
  | .binaryArith _ l _, .value => some l.type
  | .binaryArith .., .zero | .binaryArith .., .negative => some (.u 1)
  | .binaryArith .., .overflow | .binaryArith .., .carry => some (.u 1)
  | _, _ => none

/-- The nodes of a block. The ports a node reads are those of earlier nodes, and addresses have 64
bits. -/
structure Graph where
  nodes : List Node
  operand_lt : ∀ (n : NodeId) (node : Node), nodes[n]? = some node →
    ∀ o ∈ node.operands, o.owner < n
  typed : ∀ (n : NodeId) (node : Node), nodes[n]? = some node → ∀ o ∈ node.operands,
    ∀ (m : Node) (vt : ValueType), nodes[o.owner]? = some m → portType m o.kind = some vt →
      o.type = vt
  address : ∀ (n : NodeId) (a : Port), (∃ vt, nodes[n]? = some (.readMem vt a)) ∨
    (∃ v, nodes[n]? = some (.writeMem a v)) → a.type.elementWidth = 64

/-! ## Lowering -/

/-- `x86_translation_context`. -/
structure Context where
  builder : List Instruction
  materialised : List NodeId
  ports : NodeId × PortKind → Option ℕ
  next : ℕ
  thisPc : ℕ

namespace Context

/-- `alloc_vreg_for_port`. -/
def allocVreg (n : NodeId) (k : PortKind) (c : Context) : ℕ × Context :=
  (c.next, { c with ports := Function.update c.ports (n, k) (some c.next), next := c.next + 1 })

def vregForPort (p : Port) (c : Context) : Except String ℕ :=
  match c.ports (p.owner, p.kind) with
  | some v => .ok v
  | none => .error "map::at"

def append (i : Except String Instruction) (c : Context) : Except String Context := do
  let i ← i
  return { c with builder := c.builder ++ [i] }

end Context

section Materialise

variable (nodes : List Node) (mat : NodeId → Context → Except String Context)

/-- `vreg_operand_for_port`, with a way to materialise its owner. -/
def vregOperand (p : Port) (c : Context) : Except String (Operand × Context) := do
  let c ← mat p.owner c
  let v ← c.vregForPort p
  return (.vreg v p.type.elementWidth, c)

def materialiseReadReg (n : NodeId) (vt : ValueType) (regoff : ℕ) (c : Context) :
    Except String Context := do
  let (v, c) := c.allocVreg n .value
  let w := if vt.elementWidth = 1 then 8 else vt.elementWidth
  c.append (Instruction.mov (.vreg v w) (.guestreg w regoff))

/-- The operation of a `binary_arith`. -/
def arithOp : BinaryArithOp → Except String (Operand → Operand → Except String Instruction)
  | .bxor => .ok Instruction.xor
  | .band => .ok Instruction.and
  | .bor => .ok Instruction.or
  | .add => .ok Instruction.add
  | .sub => .ok Instruction.sub
  | .mul => .ok Instruction.mul
  | _ => .error "unsupported binary arithmetic operation"

def materialiseBinaryArith (n : NodeId) (op : BinaryArithOp) (lhs rhs : Port) (c : Context) :
    Except String Context := do
  let (v, c) := c.allocVreg n .value
  let (z, c) := c.allocVreg n .zero
  let (negative, c) := c.allocVreg n .negative
  let (overflow, c) := c.allocVreg n .overflow
  let (carry, c) := c.allocVreg n .carry
  let w := lhs.type.elementWidth
  let (l, c) ← vregOperand mat lhs c
  let c ← c.append (Instruction.mov (.vreg v w) l)
  let f ← arithOp op
  let (r, c) ← vregOperand mat rhs c
  let c ← c.append (f (.vreg v w) r)
  let c ← c.append (Instruction.setcc .Z (.vreg z 8))
  let c ← c.append (Instruction.setcc .O (.vreg overflow 8))
  let c ← c.append (Instruction.setcc .C (.vreg carry 8))
  c.append (Instruction.setcc .S (.vreg negative 8))

/-- The move of a cast. -/
def castOp : CastOp → Except String (Operand → Operand → Except String Instruction)
  | .zx => .ok Instruction.movz
  | .sx => .ok Instruction.movs
  | .bitcast => .ok Instruction.mov
  | _ => .error "unsupported cast operation"

def materialiseCast (n : NodeId) (op : CastOp) (vt : ValueType) (source : Port) (c : Context) :
    Except String Context := do
  let (v, c) := c.allocVreg n .value
  let f ← castOp op
  let (s, c) ← vregOperand mat source c
  c.append (f (.vreg v vt.elementWidth) s)

def materialiseConstant (n : NodeId) (vt : ValueType) (val : ℕ) (c : Context) :
    Except String Context := do
  let (v, c) := c.allocVreg n .value
  c.append (Instruction.mov (.vreg v vt.elementWidth) (.imm val vt.elementWidth))

def materialiseReadPc (n : NodeId) (c : Context) : Except String Context := do
  let (v, c) := c.allocVreg n .value
  c.append (Instruction.mov (.vreg v 64) (.imm c.thisPc 64))

def materialiseReadMem (n : NodeId) (vt : ValueType) (address : Port) (c : Context) :
    Except String Context := do
  let (v, c) := c.allocVreg n .value
  let c ← mat address.owner c
  let a ← c.vregForPort address
  c.append (Instruction.mov (.vreg v vt.elementWidth) (.guestmem a vt.elementWidth))

def materialiseWriteMem (address value : Port) (c : Context) : Except String Context := do
  let c ← mat address.owner c
  let a ← c.vregForPort address
  let (v, c) ← vregOperand mat value c
  c.append (Instruction.mov (.guestmem a value.type.elementWidth) v)

def materialiseWritePc (value : Port) (c : Context) : Except String Context := do
  let (v, c) ← vregOperand mat value c
  c.append (Instruction.mov (.preg .R15 value.type.elementWidth) v)

/-- The constant a `write_reg` takes from the register it writes. -/
def decrement (regoff : ℕ) (value : Port) : Option ℕ :=
  match nodes[value.owner]? with
  | some (.binaryArith .sub l r) =>
    match nodes[l.owner]?, nodes[r.owner]? with
    | some (.readReg _ off _ _), some (.constant _ k) => if off = regoff then some k else none
    | _, _ => none
  | _ => none

def materialiseWriteReg (regoff : ℕ) (value : Port) (c : Context) : Except String Context :=
  let w := value.type.elementWidth
  match decrement nodes regoff value with
  | some k => c.append (Instruction.sub (.guestreg w regoff) ⟨.imm k, w, false, false⟩)
  | none =>
    match nodes[value.owner]? with
    | some (.constant _ k) => c.append (Instruction.mov (.guestreg w regoff) (.imm k w))
    | _ => do
      let (v, c) ← vregOperand mat value c
      c.append (Instruction.mov (.guestreg w regoff) v)

/-- The node, with a way to materialise the nodes it reads. -/
def materialiseNode (n : NodeId) : Option Node → Context → Except String Context
  | some (.readReg vt off _ _) => materialiseReadReg n vt off
  | some (.binaryArith op l r) => materialiseBinaryArith mat n op l r
  | some (.cast op vt s _) => materialiseCast mat n op vt s
  | some (.writeReg off _ _ v) => materialiseWriteReg nodes mat off v
  | some (.constant vt k) => materialiseConstant n vt k
  | some (.readMem vt a) => materialiseReadMem mat n vt a
  | some (.writeMem a v) => materialiseWriteMem mat a v
  | some .readPc => materialiseReadPc n
  | some (.writePc v _ _) => materialiseWritePc mat v
  | _ => fun _ => .error "unsupported node"

/-- `materialise`, to a depth. A node reads earlier nodes, so the depth `n + 1` is enough for
node `n`. -/
def materialise : ℕ → NodeId → Context → Except String Context
  | 0, _, _ => .error "stack overflow"
  | depth + 1, n, c =>
    if n ∈ c.materialised then .ok c
    else do
      let c ← materialiseNode nodes (materialise depth) n nodes[n]? c
      return { c with materialised := n :: c.materialised }

end Materialise

/-- A guest instruction : its address, and its actions. -/
abbrev GuestInstr := ℕ × List NodeId

/-- `begin_instruction`, and `lower` for each action. -/
def lowerPacket (nodes : List Node) (p : GuestInstr) (c : Context) : Except String Context :=
  p.2.foldlM (fun c n => materialise nodes (n + 1) n c) { c with thisPc := p.1 }

/-- The nodes of a block are new, so what is noted about the nodes of earlier ones is not looked
up again. -/
def lowerBlock (nodes : List Node) (packets : List GuestInstr) (c : Context) :
    Except String Context :=
  packets.foldlM (fun c p => lowerPacket nodes p c)
    { c with materialised := [], ports := fun _ => none }

/-- `end_block`, up to the emission of the code. -/
def endBlock (c : Context) : Except String Context := do
  let (code, _) ← allocate c.builder
  let xor ← Instruction.xor (.preg .AX 32) (.preg .AX 32)
  return { c with builder := code ++ [xor, .ret] }

/-- A new context. -/
def Context.new : Context where
  builder := []
  materialised := []
  ports _ := none
  next := 0
  thisPc := 0

/-- The context after some blocks. -/
def lowerBlocks : List (Graph × List GuestInstr) → Context → Except String Context
  | [], c => .ok c
  | (g, packets) :: blocks, c => do
    let c ← lowerBlock g.nodes packets c
    let c ← endBlock c
    lowerBlocks blocks c

end Arancini.X86Host
