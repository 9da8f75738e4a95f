import Mathlib.Logic.Function.Basic
import Arancini.Ir.Node
import Arancini.Lib.Machine

/-!
# Evaluating a chunk

The actions of a packet run in the order of the list, but for its branches. When the
nodes in between are evaluated is a matter of the `Plan`. `eagerPlan` evaluates a value
node where the translator inserted it. `lazyPlan` is the rule of the back-ends : the code
of a value node stands before the first action of the list that uses it, and later uses
find the value there. A jump over that code leaves the node without a value, or with the
one of an earlier turn of a loop. A node whose value is known at translation time, such as
a constant, has it throughout.

The machine passes over the nodes of a packet in the order of creation, evaluates the
nodes the plan has at each, and runs it if it is an active action. At the end of a packet
`flow` says which packet is next. The meaning of the operations is a parameter `Ops`.
-/

namespace Arancini.Ir

/-- The guest : its registers, by offset in the CPU state, and its memory. -/
structure Guest where
  regs : ℕ → ℕ
  mem : ℕ → ℕ

namespace Guest

/-- Read `len` bytes from `addr` on, in little-endian order. -/
def load (mem : ℕ → ℕ) (addr : ℕ) : ℕ → ℕ
  | 0 => 0
  | len + 1 => mem (addr % 2 ^ 64) + 256 * load mem (addr + 1) len

/-- Write the low `len` bytes of `v` from `addr` on. -/
def store (mem : ℕ → ℕ) (addr v : ℕ) : ℕ → ℕ → ℕ
  | 0 => mem
  | len + 1 => store (Function.update mem (addr % 2 ^ 64) (v % 256)) (addr + 1) (v / 256) len

def setReg (g : Guest) (off v : ℕ) : Guest :=
  { g with regs := Function.update g.regs off v }

def setMem (g : Guest) (addr v len : ℕ) : Guest :=
  { g with mem := store g.mem addr v len }

end Guest

/-- What a value node or an action gives on each of its ports. -/
abbrev Result :=
  PortKind → ℕ

/-- What the operations do. An atomic operation takes the content of its memory operand
to its results and the new content. A local variable has some content before it is
written. -/
structure Ops where
  value : Node → List ℕ → Result
  atomic : Node → List ℕ → ℕ → Result × ℕ
  call : String → List ℕ → Guest → Guest × ℕ
  local₀ : ℕ → ℕ

/-- The results of the nodes that have been evaluated. -/
abbrev Env :=
  NodeId → Option Result

/-- The value of a port. -/
def Env.port (env : Env) (o : Port) : Option ℕ :=
  (env o.owner).map (· o.kind)

/-- The nodes of a packet and the address of its instruction. -/
structure Graph where
  address : ℕ
  nodes : List Node
  operand_lt : ∀ (n : NodeId) (node : Node), nodes[n]? = some node →
    ∀ o ∈ node.operands, o.owner < n

def Packet.graph (p : Packet) : Graph :=
  ⟨p.address, p.nodes, p.owner_lt⟩

/-- Where a chunk stands : before node `pos` of packet `pkt`. -/
structure Config where
  pkt : ℕ
  pos : NodeId
  guest : Guest
  locals : ℕ → ℕ
  env : Env

section Run

variable (ops : Ops)

/-- At the start of a packet. -/
def Config.enter (pkt : ℕ) (g : Guest) : Config :=
  ⟨pkt, 0, g, ops.local₀, fun _ => none⟩

/-- The result of a value node. -/
def evalNode (address : ℕ) (g : Guest) (locals : ℕ → ℕ) (env : Env) : Node → Option Result
  | .constant _ v => some fun _ => v
  | .readPc => some fun _ => address
  | .readReg vt off _ _ => some fun _ => g.regs off % 2 ^ vt.width
  | .readLocal _ l => some fun _ => locals l
  | .readMem vt a => (env.port a).map fun addr _ => Guest.load g.mem addr (vt.width / 8)
  | node => (node.operands.mapM env.port).map (ops.value node)

/-- Evaluate a node of the packet. -/
def evalOne (p : Graph) (g : Guest) (locals : ℕ → ℕ) (env : Env) (n : NodeId) : Env :=
  Function.update env n (p.nodes[n]?.bind (evalNode ops p.address g locals env))

/-- What an action does : the guest and the local variables after it, what it gives on
its ports, if anything, and the node control goes to. -/
structure Outcome where
  guest : Guest
  locals : ℕ → ℕ
  result : Option Result
  next : NodeId

/-- An atomic operation of width `vt` on the memory at `addr`. -/
def execAtomic (node : Node) (vt : ValueType) (addr : ℕ) (vals : List ℕ) (pos : NodeId) (g : Guest)
    (locals : ℕ → ℕ) : Outcome :=
  let (res, new) := ops.atomic node vals (Guest.load g.mem addr (vt.width / 8))
  ⟨g.setMem addr new (vt.width / 8), locals, some res, pos + 1⟩

/-- A compare-and-exchange that finds another value than the accumulator's leaves it
there. -/
def Outcome.accumulate (op : TernaryAtomicOp) (vals : List ℕ) (o : Outcome) : Outcome :=
  match op, vals, o.result with
  | .cmpxchg, acc :: _, some res =>
    if res .value = acc then o else { o with guest := o.guest.setReg Reg.RAX.offset (res .value) }
  | _, _, _ => o

theorem Outcome.next_accumulate (op : TernaryAtomicOp) (vals : List ℕ) (o : Outcome) :
    (o.accumulate op vals).next = o.next := by
  unfold accumulate
  grind

/-- Run the action at `pos` on the values of its operands. A branch that was given no
target is stuck. -/
def exec (node : Node) (vals : List ℕ) (pos : NodeId) (g : Guest) (locals : ℕ → ℕ) :
    Option Outcome :=
  match node, vals with
  | .br t, _ => t.map fun t => ⟨g, locals, none, t⟩
  | .condBr _ t, [v] => t.map fun t => ⟨g, locals, none, if v = 0 then pos + 1 else t⟩
  | .writePc .., [v] => some ⟨g.setReg Reg.PC.offset v, locals, none, pos + 1⟩
  | .writeReg off _ _ _, [v] => some ⟨g.setReg off v, locals, none, pos + 1⟩
  | .writeMem _ o, [addr, v] => some ⟨g.setMem addr v (o.type.width / 8), locals, none, pos + 1⟩
  | .writeLocal l _, [v] => some ⟨g, Function.update locals l v, none, pos + 1⟩
  | .unaryAtomic _ o, addr :: vals => some (execAtomic ops node o.type addr vals pos g locals)
  | .binaryAtomic _ _ o, addr :: vals => some (execAtomic ops node o.type addr vals pos g locals)
  | .ternaryAtomic op _ o _, addr :: vals =>
    some ((execAtomic ops node o.type addr vals pos g locals).accumulate op vals)
  | .internalCall fn _ _, vals =>
    let (g, v) := ops.call fn vals g
    some ⟨g, locals, some fun _ => v, pos + 1⟩
  | _, _ => some ⟨g, locals, none, pos + 1⟩

/-- When nodes are evaluated, and which actions run. -/
structure Plan where
  evals : ℕ → NodeId → List NodeId
  active : ℕ → NodeId → Bool

/-- The packet after packet `k`, given the PC, or none when the chunk is left. -/
abbrev Flow :=
  ℕ → ℕ → Option ℕ

variable (flow : Flow) (ps : List Graph)

/-- At the end of a packet. -/
def leave (c : Config) : Config ⊕ Option Guest :=
  match flow c.pkt (c.guest.regs Reg.PC.offset) with
  | some k => .inl (.enter ops k c.guest)
  | none => .inr (some c.guest)

/-- The configuration after an action. -/
def Config.after (c : Config) (o : Outcome) : Config :=
  ⟨c.pkt, o.next, o.guest, o.locals,
    match o.result with
    | some r => Function.update c.env c.pos (some r)
    | none => c.env⟩

/-- Run the action at `c.pos`. One with an operand that has no value is stuck. -/
def act (node : Node) (c : Config) : Option Config :=
  (node.operands.mapM c.env.port).bind fun vals =>
    (exec ops node vals c.pos c.guest c.locals).map c.after

/-- Evaluate the nodes the plan has at `c.pos`. -/
def Config.eval (plan : Plan) (p : Graph) (c : Config) : Config :=
  { c with env := (plan.evals c.pkt c.pos).foldl (evalOne ops p c.guest c.locals) c.env }

/-- Move on, or be stuck. -/
def moveOn {σ ρ : Type*} : Option σ → σ ⊕ Option ρ
  | some c => .inl c
  | none => .inr none

/-- The machine that runs the packets `ps` by a plan, and goes on as `done` says at the end
of a packet. A run that is stuck returns `none`. -/
def runPackets {ρ : Type*} (plan : Plan) (done : Config → Config ⊕ Option ρ) :
    Machine Config (Option ρ) where
  step c :=
    match ps[c.pkt]? with
    | none => .inr none
    | some p =>
      match p.nodes[c.pos]? with
      | none => done c
      | some node =>
        let c := c.eval ops plan p
        if plan.active c.pkt c.pos then moveOn (act ops node c)
        else .inl { c with pos := c.pos + 1 }

/-- The machine that goes on with the packet `flow` has, or is done. -/
def machine (plan : Plan) : Machine Config (Option Guest) :=
  runPackets ops ps plan (leave ops flow)

section Step

variable {ops flow ps} {ρ : Type*} {plan : Plan} {done : Config → Config ⊕ Option ρ} {c : Config}
  {p : Graph} {node : Node}

theorem runPackets_of_stray (hp : ps[c.pkt]? = none) :
    (runPackets ops ps plan done).step c = .inr none := by
  simp [runPackets, hp]

theorem runPackets_of_end (hp : ps[c.pkt]? = some p) (hn : p.nodes[c.pos]? = none) :
    (runPackets ops ps plan done).step c = done c := by
  simp [runPackets, hp, hn]

theorem runPackets_of_active (hp : ps[c.pkt]? = some p) (hn : p.nodes[c.pos]? = some node)
    (ha : plan.active c.pkt c.pos) :
    (runPackets ops ps plan done).step c = moveOn (act ops node (c.eval ops plan p)) := by
  simp [runPackets, Config.eval, hp, hn, ha]

theorem runPackets_of_inactive (hp : ps[c.pkt]? = some p) (hn : p.nodes[c.pos]? = some node)
    (ha : plan.active c.pkt c.pos = false) :
    (runPackets ops ps plan done).step c =
      .inl { c.eval ops plan p with pos := c.pos + 1 } := by
  simp [runPackets, Config.eval, hp, hn, ha]

theorem step_of_stray (hp : ps[c.pkt]? = none) :
    (machine ops flow ps plan).step c = .inr none :=
  runPackets_of_stray hp

theorem step_of_end (hp : ps[c.pkt]? = some p) (hn : p.nodes[c.pos]? = none) :
    (machine ops flow ps plan).step c = leave ops flow c :=
  runPackets_of_end hp hn

theorem step_of_active (hp : ps[c.pkt]? = some p) (hn : p.nodes[c.pos]? = some node)
    (ha : plan.active c.pkt c.pos) :
    (machine ops flow ps plan).step c = moveOn (act ops node (c.eval ops plan p)) :=
  runPackets_of_active hp hn ha

theorem step_of_inactive (hp : ps[c.pkt]? = some p) (hn : p.nodes[c.pos]? = some node)
    (ha : plan.active c.pkt c.pos = false) :
    (machine ops flow ps plan).step c =
      .inl { c.eval ops plan p with pos := c.pos + 1 } :=
  runPackets_of_inactive hp hn ha

end Step

end Run

/-! ## What evaluation depends on -/

/-- The register a node reads. -/
def Node.readsReg : Node → Option ℕ
  | .readReg _ off _ _ => some off
  | _ => none

theorem mapM_congr {f g : Port → Option ℕ} : ∀ {l : List Port}, (∀ o ∈ l, f o = g o) →
    l.mapM f = l.mapM g
  | [], _ => rfl
  | o :: l, h => by
    rw [List.mapM_cons, List.mapM_cons, h o (by simp), mapM_congr fun x hx => h x (by simp [hx])]

/-- A node evaluates to the same on guests that agree on what it reads. -/
theorem evalNode_congr (ops : Ops) {address : ℕ} {g g' : Guest} {locals locals' : ℕ → ℕ}
    {env env' : Env}
    {node : Node} (hport : ∀ o ∈ node.operands, env.port o = env'.port o)
    (hreg : ∀ off, node.readsReg = some off → g.regs off = g'.regs off)
    (hmem : ∀ vt a b, node = .readMem vt a → env.port a = some b →
      Guest.load g.mem b (vt.width / 8) = Guest.load g'.mem b (vt.width / 8))
    (hlcl : ∀ vt l, node = .readLocal vt l → locals l = locals' l) :
    evalNode ops address g locals env node = evalNode ops address g' locals' env' node := by
  have hvals := mapM_congr hport
  cases node
  case readReg vt off idx name => simp [evalNode, hreg off rfl]
  case readLocal vt l => simp [evalNode, hlcl vt l rfl]
  case readMem vt a =>
    have ha := hport a (by simp [Node.operands])
    cases hb : env.port a with
    | none => simp [evalNode, ← ha, hb]
    | some b => simp [evalNode, ← ha, hb, hmem vt a b rfl hb]
  all_goals simp only [evalNode, hvals]

theorem foldl_evalOne_of_notMem {ops : Ops} {p : Graph} {g : Guest} {locals : ℕ → ℕ} {n : NodeId} :
    ∀ {l : List NodeId} {env : Env}, n ∉ l → l.foldl (evalOne ops p g locals) env n = env n
  | [], _, _ => rfl
  | m :: l, env, h => by
    have hnm : n ≠ m := fun h' => h (by simp [h'])
    rw [List.foldl_cons, foldl_evalOne_of_notMem fun h' => h (by simp [h']), evalOne,
      Function.update_of_ne hnm]

/-- Nodes that are evaluated in the order they were created have the values their operands
give. -/
theorem foldl_evalOne_of_mem {ops : Ops} {p : Graph} {g : Guest} {locals : ℕ → ℕ} {n : NodeId} :
    ∀ {l : List NodeId} {env : Env}, l.Pairwise (· < ·) → n ∈ l →
      l.foldl (evalOne ops p g locals) env n = p.nodes[n]?.bind
        (evalNode ops p.address g locals (l.foldl (evalOne ops p g locals) env))
  | m :: l, env, hl, h => by
    obtain ⟨hm, hl⟩ := List.pairwise_cons.1 hl
    rcases List.mem_cons.1 h with rfl | h
    · have hnot : n ∉ l := fun h' => lt_irrefl n (hm n h')
      rw [List.foldl_cons, foldl_evalOne_of_notMem hnot, evalOne, Function.update_self]
      cases hn : p.nodes[n]? with
      | none => rfl
      | some node =>
        refine (evalNode_congr ops (fun o ho => ?_) (fun _ _ => rfl) (fun _ _ _ _ _ => rfl)
          fun _ _ _ => rfl).symm
        have ho := p.operand_lt n node hn o ho
        have hol : o.owner ∉ l := fun h' => lt_asymm ho (hm o.owner h')
        rw [Env.port, Env.port, foldl_evalOne_of_notMem hol, Function.update_of_ne ho.ne]
    · rw [List.foldl_cons]
      exact foldl_evalOne_of_mem hl h

/-! ## The two plans -/

/-- The value nodes among the nodes below `n` that `needed` nodes depend on. -/
def needs (nodes : List Node) : NodeId → List NodeId → List NodeId
  | 0, _ => []
  | n + 1, needed =>
    match nodes[n]? with
    | some node =>
      if n ∈ needed ∧ !node.isAction then
        needs nodes n (node.operands.map (·.owner) ++ needed) ++ [n]
      else
        needs nodes n needed
    | none => needs nodes n needed

/-- The value nodes an action depends on, operands first. -/
def uses (nodes : List Node) (a : NodeId) : List NodeId :=
  match nodes[a]? with
  | some node => needs nodes a (node.operands.map (·.owner))
  | none => []

/-- An operation `get_as_int` folds. -/
def Node.folds : Node → Bool
  | .constant .. | .readPc | .bitShift .. | .bitExtract .. => true
  | .cast op _ _ _ => op != .convert
  | .binaryArith op _ _ => op ∈ [.add, .sub, .mul, .div, .mod, .band, .bor, .bxor]
  | _ => false

/-- A flag of node `n` is used. -/
def flagsNeeded (nodes : List Node) (n : NodeId) : Bool :=
  nodes.any fun node => node.operands.any fun o => o.owner == n && o.kind != .value

/-- The nodes whose value is known when the code is generated, and part of the code of
each use. -/
def knowns (nodes : List Node) : List NodeId :=
  (List.range nodes.length).foldl
    (fun known n =>
      if nodes[n]?.any fun node => node.folds && node.operands.all (·.owner ∈ known) &&
          !flagsNeeded nodes n then known ++ [n] else known) []

/-- The nodes that the action at `n` is the first of `actions` to use. -/
def firstUses (nodes : List Node) (actions : List NodeId) (n : NodeId) : List NodeId :=
  let done := knowns nodes ++ (actions.filter (· < n)).flatMap (uses nodes)
  (uses nodes n).filter (· ∉ done)

theorem lt_of_mem_needs {nodes : List Node} : ∀ {n : NodeId} {needed : List NodeId} {m : NodeId},
    m ∈ needs nodes n needed → m < n
  | n + 1, needed, m, h => by
    unfold needs at h
    split at h
    · split at h
      · rcases List.mem_append.1 h with h | h
        · exact Nat.lt_succ_of_lt (lt_of_mem_needs h)
        · obtain rfl : m = n := by simpa using h
          exact Nat.lt_succ_self m
      · exact Nat.lt_succ_of_lt (lt_of_mem_needs h)
    · exact Nat.lt_succ_of_lt (lt_of_mem_needs h)

theorem sorted_needs {nodes : List Node} : ∀ {n : NodeId} {needed : List NodeId},
    (needs nodes n needed).Pairwise (· < ·)
  | 0, _ => .nil
  | n + 1, needed => by
    unfold needs
    split
    · split
      · refine List.pairwise_append.2 ⟨sorted_needs, by simp, fun m hm k hk => ?_⟩
        obtain rfl : k = n := by simpa using hk
        exact lt_of_mem_needs hm
      · exact sorted_needs
    · exact sorted_needs

/-- The nodes an action uses first come in the order they were created. -/
theorem sorted_firstUses (nodes : List Node) (actions : List NodeId) (n : NodeId) :
    (firstUses nodes actions n).Pairwise (· < ·) := by
  refine List.Pairwise.filter _ ?_
  unfold uses
  split
  · exact sorted_needs
  · exact .nil

/-- Nodes are evaluated at their first use by one of the actions, but for those whose value
is known throughout. -/
def lazyPlan (code : List (List Node × List NodeId)) : Plan where
  evals k n :=
    match code[k]? with
    | some (nodes, actions) =>
      (if n = 0 then knowns nodes else []) ++ if n ∈ actions then firstUses nodes actions n else []
    | none => []
  active k n :=
    match code[k]? with
    | some (_, actions) => n ∈ actions
    | none => false

/-- Nodes are evaluated where they were inserted. -/
def eagerPlan (code : List (List Node × List NodeId)) : Plan where
  evals k n :=
    match code[k]? with
    | some (nodes, _) =>
      (if n = 0 then knowns nodes else []) ++
        if n ∉ knowns nodes ∧ nodes[n]?.any fun node => !node.isAction then [n] else []
    | none => []
  active k n :=
    match code[k]? with
    | some (_, actions) => n ∈ actions
    | none => false

/-! ## A chunk as the back-ends run it -/

namespace Chunk

def graphs (c : Chunk) : List Graph :=
  c.packets.map (·.graph)

/-- The nodes and the actions of each packet. -/
def code (c : Chunk) : List (List Node × List NodeId) :=
  c.packets.map fun p => (p.nodes, p.actions)

end Chunk

/-- The packet after packet `k`, of packets at these addresses that update the PC so. A
basic block runs its packets one after the other. In a function a branch goes to the
packet at the PC, or leaves, and calls and returns leave. -/
def nextPacket (wholeFunction : Bool) (ps : List (ℕ × BrType)) : Flow := fun k pc =>
  let fall := if k + 1 < ps.length then some (k + 1) else none
  match wholeFunction, ps[k]? with
  | true, some (_, .br) | true, some (_, .csel) => ps.findIdx? (·.1 == pc)
  | true, some (_, .call) | true, some (_, .ret) => none
  | _, _ => fall

namespace Chunk

def flow (wholeFunction : Bool) (c : Chunk) : Flow :=
  nextPacket wholeFunction (c.packets.map fun p => (p.address, p.updatesPc))

/-- The chunk as the back-ends run it. -/
def machine (ops : Ops) (wholeFunction : Bool) (c : Chunk) : Machine Config (Option Guest) :=
  Ir.machine ops (c.flow wholeFunction) c.graphs (lazyPlan c.code)

end Chunk

end Arancini.Ir
