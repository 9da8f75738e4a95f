import Arancini.Ir.Delay

/-!
# The order of evaluation in a translated instruction

A translator inserts a read where it means it to happen. The back-ends evaluate it at its
first use, which may be later : the shadow of the two orders, without any dropped write,
says when the two give the same guest. `returns_iff_of_inOrder` is for every packet, so for
every instruction and every form of its operands.

Of the translators, `fpu_translator` has the instruction that goes wrong. `FYL2X` reads its
second operand from the x87 stack, pops the stack, and then pushes a product that is the
first use of the operand. The operand is then looked for from the new top of the stack.
-/

namespace Arancini.X86

open Ir

/-! ## A packet of its own -/

section Packet

variable (ops : Ops) (p : Packet)

def code : List (List Node × List NodeId) :=
  [(p.nodes, p.actions)]

/-- No packet is next. -/
def alone : Flow := fun _ _ => none

/-- The packet, each read where the translator inserted it. -/
def asInserted : Machine Config (Option Guest) :=
  machine ops alone [p.graph] (eagerPlan (code p))

/-- The packet as the back-ends run it. -/
def atFirstUse : Machine Config (Option Guest) :=
  machine ops alone [p.graph] (lazyPlan (code p))

/-- The run as inserted, and what the run at first use finds. -/
def orderShadow : Machine Shadow (Option Guest) :=
  Shadow.machine ops alone [p.graph] (eagerPlan (code p)) (lazyPlan (code p))

/-- All along the run, no action writes what a node reads between the place of the node
and its first use, and control has passed the first use of each operand of an action. -/
def InOrder (g : Guest) : Prop :=
  ∀ s, (orderShadow ops p).Visits (.enter ops 0 g []) s →
    s.sound ops alone [p.graph] (eagerPlan (code p)) (lazyPlan (code p))

variable {ops p}

end Packet

/-! ## Building a packet -/

/-- The nodes inserted so far. -/
abbrev Builder :=
  StateM (List Node)

namespace Builder

/-- Insert a node. Its value has type `vt`. -/
def insert (vt : ValueType) (node : Node) : Builder Port := fun nodes =>
  (⟨.value, vt, nodes.length⟩, nodes ++ [node])

def const (vt : ValueType) (v : ℕ) : Builder Port :=
  insert vt (.constant vt v)

def readReg (vt : ValueType) (r : Reg) (name : String) : Builder Port :=
  insert vt (.readReg vt r.offset r.idx name)

def writeReg (r : Reg) (name : String) (v : Port) : Builder Port :=
  insert v.type (.writeReg r.offset r.idx name v)

def readMem (vt : ValueType) (addr : Port) : Builder Port :=
  insert vt (.readMem vt addr)

def writeMem (addr v : Port) : Builder Port :=
  insert v.type (.writeMem addr v)

def binop (op : BinaryArithOp) (a b : Port) : Builder Port :=
  insert a.type (.binaryArith op a b)

def not (a : Port) : Builder Port :=
  insert a.type (.unaryArith .bnot a)

def lsl (a amt : Port) : Builder Port :=
  insert a.type (.bitShift .lsl a amt)

def lsr (a amt : Port) : Builder Port :=
  insert a.type (.bitShift .lsr a amt)

def csel (c t f : Port) : Builder Port :=
  insert t.type (.csel c t f)

def bitExtract (v : Port) (start len : ℕ) : Builder Port :=
  insert (.u len) (.bitExtract v start len)

def bitInsert (v bits : Port) (start len : ℕ) : Builder Port :=
  insert v.type (.bitInsert v bits start len)

def bitcast (vt : ValueType) (v : Port) : Builder Port :=
  insert vt (.cast .bitcast vt v .none)

/-- `insert_zx`. A value that has the width already is left alone. -/
def zx (vt : ValueType) (v : Port) : Builder Port :=
  if vt.width = v.type.width then pure v else insert vt (.cast .zx vt v .none)

def internalCall (fn : String) (retType : ValueType) (args : List Port) : Builder Port :=
  insert retType (.internalCall fn retType args)

end Builder

open Builder

/-- Operands come before the nodes that read them. -/
def wellFormed (nodes : List Node) : Bool :=
  nodes.zipIdx.all fun (node, n) => node.operands.all (·.owner < n)

/-- The packet of the inserted nodes. The actions are in the order they were inserted. -/
def packetOf (address : ℕ) (nodes : List Node) (h : wellFormed nodes) : Packet where
  nodes := nodes
  actions := (List.range nodes.length).filter fun n => nodes[n]?.any (·.isAction)
  targets := nodes.zipIdx.flatMap fun (node, n) => node.operands.map fun o => (o.owner, o.kind, n)
  operand_lt n node hn o ho := by
    have hmem : (node, n) ∈ nodes.zipIdx := by
      rw [List.mem_zipIdx_iff_getElem?]
      exact hn
    simpa using List.all_eq_true.1 (List.all_eq_true.1 h _ hmem) o ho
  sorted := (List.pairwise_lt_range).filter _
  isAction a ha := by
    obtain ⟨-, ha⟩ := List.mem_filter.1 ha
    cases hnode : nodes[a]? with
    | none => simp [hnode] at ha
    | some node => exact ⟨node, rfl, by simpa [hnode] using ha⟩
  address := address

/-! ## The x87 stack -/

/-- `fpu_compute_stack_index` : the index of `ST(i)` among the registers. -/
def fpuComputeStackIndex (i : ℕ) : Builder Port := do
  let status ← readReg (.u 16) .X87_STS "X87_STS"
  let top ← zx (.u 64) (← bitExtract status 11 3)
  if i = 0 then
    return top
  else
    let top ← binop .add top (← const (.u 64) i)
    binop .mod top (← const (.u 64) 8)

/-- `fpu_compute_stack_addr`. -/
def fpuComputeStackAddr (i : ℕ) : Builder Port := do
  let base ← readReg (.u 64) .X87_STACK_BASE "X87_STACK_BASE"
  let top ← fpuComputeStackIndex i
  let top ← binop .mul top (← const (.u 64) 8)
  binop .add base top

/-- `fpu_stack_get`. -/
def fpuStackGet (i : ℕ) : Builder Port := do
  let addr ← fpuComputeStackAddr i
  bitcast (.f 64) (← readMem (.f 64) addr)

/-- `fpu_stack_set`. -/
def fpuStackSet (i : ℕ) (v : Port) : Builder Port := do
  let addr ← fpuComputeStackAddr i
  writeMem addr v

/-- `fpu_tag_get`. -/
def fpuTagGet (i : ℕ) : Builder Port := do
  let tag ← readReg (.u 16) .X87_TAG "X87_TAG"
  let top ← fpuComputeStackIndex i
  let shift ← lsl top (← const (.u 1) 1)
  let res ← lsr tag shift
  binop .band res (← const (.u 16) 0b11)

/-- `fpu_tag_set`. -/
def fpuTagSet (i : ℕ) (v : Port) : Builder Port := do
  let tag ← readReg (.u 16) .X87_TAG "X87_TAG"
  let top ← fpuComputeStackIndex i
  let shift ← lsl top (← const (.u 1) 1)
  let clear ← Builder.not (← lsl (← const (.u 16) 0b11) shift)
  let tag ← binop .band tag clear
  let tag ← binop .bor tag (← lsl v shift)
  writeReg .X87_TAG "X87_TAG" tag

/-- `fpu_stack_index_move` by `d`, a `u8`. -/
def fpuStackIndexMove (d : ℕ) : Builder Port := do
  let status ← readReg (.u 16) .X87_STS "X87_STS"
  let top ← zx (.u 8) (← bitExtract status 11 3)
  let top ← binop .add top (← const (.u 8) d)
  let top ← binop .band top (← const (.u 8) 0b111)
  let status ← bitInsert status top 11 3
  writeReg .X87_STS "X87_STS" status

/-- `fpu_push`. -/
def fpuPush (v : Port) : Builder Port := do
  let orig ← bitcast (.f 64) v
  let overflow ← binop .cmpeq (← fpuTagGet 7) (← const (.u 16) 0b11)
  let normalized ← binop .band (← bitcast (.u 64) v) (← const (.u 64) 0x7FFFFFFFFFFFFFFF)
  let isZero ← binop .cmpeq normalized (← const (.u 64) 0)
  let tagDefault ← zx (.u 16) isZero
  let c1Default ← const (.u 16) 0
  let tagOverflow ← const (.u 16) 0b10
  let valOverflow ← bitcast (.f 64) (← const (.u 64) 0xFFF8000000000000)
  let c1Overflow ← const (.u 16) 1
  let _ ← fpuTagSet 7 (← csel overflow tagDefault tagOverflow)
  let _ ← fpuStackSet 7 (← csel overflow orig valOverflow)
  let c1 ← csel overflow c1Default c1Overflow
  let status ← readReg (.u 16) .X87_STS "X87_STS"
  let status ← bitInsert status c1 9 1
  let _ ← writeReg .X87_STS "X87_STS" status
  fpuStackIndexMove 255

/-- `fpu_pop`. -/
def fpuPop : Builder Port := do
  let _ ← fpuTagSet 0 (← const (.u 16) 0b11)
  fpuStackIndexMove 1

/-- `fpu_translator` on `FYL2X`. -/
def fyl2x : Builder Port := do
  let _ ← fpuPop
  let st0 ← fpuStackGet 7
  let st1 ← fpuStackGet 0
  let log ← internalCall "log2" (.f 64) [st0]
  let res ← binop .mul st1 log
  let _ ← fpuPop
  fpuPush res

/-- `branch_translator` on a near `RET`. -/
def ret : Builder Port := do
  let rsp ← readReg (.u 64) .RSP "RSP"
  let retaddr ← readMem (.u 64) rsp
  let newRsp ← binop .add rsp (← const (.u 64) 8)
  let _ ← writeReg .RSP "RSP" newRsp
  insert (.u 64) (.writePc retaddr .ret 0)

/-! ## Two instructions -/

/-- The operations on integers. Of those on `f64` only the product with one and the
logarithm of two are as they are. -/
def someOps : Ops where
  value
    | .unaryArith .bnot a, [x] => fun _ => 2 ^ a.type.width - 1 - x
    | .binaryArith .add a _, [x, y] => fun _ => (x + y) % 2 ^ a.type.width
    | .binaryArith .mul a _, [x, y] => fun _ =>
      if a.type = .f 64 then
        if y = 0x3FF0000000000000 then x else 0
      else
        x * y % 2 ^ a.type.width
    | .binaryArith .mod _ _, [x, y] => fun _ => x % y
    | .binaryArith .band _ _, [x, y] => fun _ => x &&& y
    | .binaryArith .bor _ _, [x, y] => fun _ => x ||| y
    | .binaryArith .cmpeq _ _, [x, y] => fun _ => if x = y then 1 else 0
    | .bitShift .lsl a _, [x, y] => fun _ => x * 2 ^ y % 2 ^ a.type.width
    | .bitShift .lsr _ _, [x, y] => fun _ => x / 2 ^ y
    | .csel _ _ _, [c, t, f] => fun _ => if c = 0 then f else t
    | .cast _ vt _ _, [x] => fun _ => x % 2 ^ vt.width
    | .bitExtract _ start len, [x] => fun _ => x / 2 ^ start % 2 ^ len
    | .bitInsert _ _ start len, [x, y] => fun _ =>
      x / 2 ^ (start + len) * 2 ^ (start + len) + y % 2 ^ len * 2 ^ start + x % 2 ^ start
    | _, _ => fun _ => 0
  atomic _ _ v := (fun _ => v, v)
  call _ args g := (g, if args = [0x4000000000000000] then 0x3FF0000000000000 else 0)
  local₀ _ := 0

/-- Two on the two places at the top of the x87 stack, which is at `0x1000`. -/
def twos : Guest where
  regs off :=
    if off = Reg.X87_STACK_BASE.offset then 0x1000
    else if off = Reg.X87_STS.offset then 6 * 2 ^ 11
    else if off = Reg.X87_TAG.offset then 0x0FFF
    else 0
  mem a := if a = 0x1037 ∨ a = 0x103F then 0x40 else 0

def retPacket : Packet :=
  packetOf 0 (ret []).2 (by decide)

def fyl2xPacket : Packet :=
  packetOf 0 (fyl2x []).2 (by decide +kernel)

end Arancini.X86
