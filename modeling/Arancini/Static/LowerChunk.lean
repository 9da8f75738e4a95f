import Mathlib.Data.List.Basic
import Arancini.Ir.Eval

/-!
# The control flow of a generated function

`lower_chunk` makes one block of each packet and ends it by what the packet does to the PC.
A packet that leaves it alone falls into the block after it, and so does a call, once the
callee has returned. A direct branch goes to the block of its target if that was folded to a
constant, and every other branch goes to `mid`, a switch over the addresses of the packets.
What the switch does not know leaves to `MainLoop`.

The meaning of a chunk is the run of its packets in which the next packet is the one at the
PC. Both are machines over the same packets that differ in what they do at the end of one
(`chunkRun`, `functionRun`). `functionRun_eq_iff` says when they make the same run : the end of
the last packet must branch or return, and no branch may go to the address zero, which the
packet at the end of the chunk is given.
-/

namespace Arancini.Static

open Ir

/-! ## The blocks -/

/-- A constant that `create_static_br` knows the address of : a number, or, where the guest is
relocated, `guest_base` plus the address of a packet and an offset. -/
inductive Folded
  | int (v : BitVec 64)
  | guest (pc offs : BitVec 64)

/-- The address that is looked up among the packets. -/
def Folded.addr : Folded → BitVec 64
  | int v => v
  | guest pc offs => offs + pc

/-- The value in a guest at `base`. -/
def Folded.value (base : BitVec 64) : Folded → BitVec 64
  | int v => v
  | guest pc offs => base + pc + offs

/-- What `lower_chunk` is given besides the chunk : where the guest is, zero for an
executable, the constants that the IR builder of LLVM folds the values of packet `k` to, and
whether there is a function at an address. -/
structure Engine where
  base : BitVec 64
  fold : ℕ → Port → Option Folded
  fns : BitVec 64 → Bool

/-- A block of the function. -/
inductive Target
  | insn (k : ℕ)
  | mid

inductive Callee
  | function (addr : BitVec 64)
  | mainLoop

inductive Terminator
  | br (t : Target)
  | condBr (cond : Port) (t f : Target)
  | ret

/-- What follows the actions of a packet in its block. -/
structure Block where
  call : Option Callee
  terminator : Terminator

def addrOf (p : Packet) : BitVec 64 :=
  BitVec.ofNat 64 p.address

/-- `blocks->find`. -/
def findBlock (ps : List Packet) (addr : BitVec 64) : Option ℕ :=
  ps.findIdx? (addrOf · == addr)

/-- Where a branch to a value goes. -/
def follow (e : Engine) (ps : List Packet) (k : ℕ) (v : Port) : Target :=
  match (e.fold k v).bind fun x => findBlock ps x.addr with
  | some j => .insn j
  | none => .mid

/-- The value the last instruction of the packet stores, and if it stores it to the PC. -/
def lastStore (p : Packet) : Option (Bool × Port) :=
  match p.actions.getLast?.bind (p.nodes[·]?) with
  | some (.writePc v _ _) => some (true, v)
  | some (.writeReg off _ _ v) => some (off == Reg.PC.offset, v)
  | some (.writeMem _ v) => some (false, v)
  | _ => none

/-- `create_static_br`. -/
def createStaticBr (e : Engine) (ps : List Packet) (k : ℕ) (p : Packet) : Option Terminator :=
  match lastStore p with
  | some (true, v) => some (.br (follow e ps k v))
  | _ => none

/-- `create_static_condbr`. The instruction before the store is a select if the stored value
is one, made for the last action and not folded. -/
def createStaticCondbr (e : Engine) (ps : List Packet) (k : ℕ) (p : Packet) :
    Option Terminator :=
  match p.actions.getLast?, lastStore p with
  | some a, some (_, v) =>
    match p.nodes[v.owner]? with
    | some (.csel c t f) =>
      if v.owner ∈ firstUses p.nodes p.actions a ∧ (e.fold k v).isNone then
        some (.condBr c (follow e ps k t) (follow e ps k f))
      else
        none
    | _ => none
  | _, _ => none

/-- `get_static_fn`, or `MainLoop`. -/
def getStaticFn (e : Engine) (p : Packet) : Callee :=
  let targets := p.actionNodes.filterMap fun a =>
    match a with
    | .writePc _ .call t => some (BitVec.ofNat 64 t)
    | _ => none
  match targets.getLast? with
  | some t => if t ≠ 0 ∧ e.fns (t + addrOf p) then .function (t + addrOf p) else .mainLoop
  | none => .mainLoop

/-- The end of the block of packet `k`. -/
def lowerPacket (e : Engine) (ps : List Packet) (k : ℕ) (p : Packet) : Block :=
  let next := if k + 1 < ps.length then .br (.insn (k + 1)) else .ret
  match p.updatesPc with
  | .none | .sys => ⟨none, next⟩
  | .call => ⟨some (getStaticFn e p), next⟩
  | .br => ⟨none, (createStaticBr e ps k p).getD (.br .mid)⟩
  | .csel => ⟨none, (createStaticCondbr e ps k p).getD (.br .mid)⟩
  | .ret => ⟨none, .ret⟩

/-- `lower_chunk`. Of two packets at one address the first has an empty block. -/
def lowerChunk (e : Engine) (c : Chunk) : Except String (List Block) :=
  if (c.packets.map addrOf).Nodup then
    .ok (c.packets.zipIdx.map fun (p, k) => lowerPacket e c.packets k p)
  else
    .error "function verification failed"

/-! ## Two runs of a chunk -/

/-- How a function ends. -/
inductive Exit
  | returned (g : Guest)
  | left (g : Guest)

def pcOf (g : Guest) : BitVec 64 :=
  BitVec.ofNat 64 (g.regs Reg.PC.offset)

/-- The packets, in a guest at `base`. -/
def graphsAt (base : BitVec 64) (c : Chunk) : List Graph :=
  c.packets.map fun p => ⟨(base + addrOf p).toNat, p.nodes, p.owner_lt⟩

/-- The packet of the instruction at `pc`. The packets at address zero are no
instructions. -/
def packetAt (base : BitVec 64) (ps : List Packet) (pc : BitVec 64) : Option ℕ :=
  ps.findIdx? fun p => addrOf p != 0 && base + addrOf p == pc

section Run

variable (ops : Ops) (callAt : BitVec 64 → Guest → Guest) (e : Engine) (ps : List Packet)

/-- The packet after packet `k`, or the code at `chunkEnd`. -/
def fall (chunkEnd : ℕ) (k : ℕ) (g : Guest) : Ir.Config ⊕ Option Exit :=
  if k + 1 < ps.length then .inl (.enter ops (k + 1) g)
  else .inr (some (.left (g.setReg Reg.PC.offset chunkEnd)))

/-- The end of a packet. A callee returns to the instruction after the call. -/
def chunkStep (chunkEnd : ℕ) (c : Ir.Config) : Ir.Config ⊕ Option Exit :=
  match ps[c.pkt]? with
  | none => .inr none
  | some p =>
    match p.updatesPc with
    | .none | .sys => fall ops ps chunkEnd c.pkt c.guest
    | .call => fall ops ps chunkEnd c.pkt (callAt (pcOf c.guest) c.guest)
    | .br | .csel =>
      match packetAt e.base ps (pcOf c.guest) with
      | some k => .inl (.enter ops k c.guest)
      | none => .inr (some (.left c.guest))
    | .ret => .inr (some (.returned c.guest))

/-- The run in which the next packet is the one at the PC. -/
def chunkRun (c : Chunk) (chunkEnd : ℕ) : Machine Ir.Config (Option Exit) :=
  runPackets ops (graphsAt e.base c) (lazyPlan c.code) (chunkStep ops callAt e c.packets chunkEnd)

/-- The blocks `mid` and `dyn`. -/
def dispatch (g : Guest) : Ir.Config ⊕ Option Exit :=
  match findBlock ps (pcOf g - e.base) with
  | some k => .inl (.enter ops k g)
  | none => .inr (some (.left g))

def goTo (g : Guest) : Target → Ir.Config ⊕ Option Exit
  | .insn k => .inl (.enter ops k g)
  | .mid => dispatch ops e ps g

/-- The effect of the call of a block. -/
def Block.callee (b : Block) (g : Guest) : Guest :=
  match b.call with
  | none => g
  | some (.function addr) => callAt (e.base + addr) g
  | some .mainLoop => callAt (pcOf g) g

/-- The end of a block. -/
def Block.step (b : Block) (c : Ir.Config) : Ir.Config ⊕ Option Exit :=
  let g := b.callee callAt e c.guest
  match b.terminator with
  | .br t => goTo ops e ps g t
  | .condBr cond t f =>
    match c.env.port cond with
    | some v => goTo ops e ps g (if v = 0 then f else t)
    | none => .inr none
  | .ret => .inr (some (.returned g))

/-- The run of the function. -/
def functionRun (c : Chunk) (blocks : List Block) : Machine Ir.Config (Option Exit) :=
  runPackets ops (graphsAt e.base c) (lazyPlan c.code) fun s =>
    match blocks[s.pkt]? with
    | some b => b.step ops callAt e c.packets s
    | none => .inr none

/-! ## When the two runs are the same -/

/-- What the translators see to : a branch inside a packet goes to a label, which is an
action, and a packet that moves the PC does so in its last action. -/
structure Translated (c : Chunk) : Prop where
  label : ∀ p ∈ c.packets, ∀ (n t : NodeId), (p.nodes[n]? = some (.br (some t)) ∨
    ∃ cond, p.nodes[n]? = some (.condBr cond (some t))) → t ∈ p.actions
  last : ∀ p ∈ c.packets, p.updatesPc = .br ∨ p.updatesPc = .csel →
    ∃ a v ct, p.actions.getLast? = some a ∧ p.nodes[a]? = some (.writePc v p.updatesPc ct)

/-- What the IR builder and the translators see to in the run from the first packet : a value
that is folded is what it was folded to, a number it is folded to is no address of the
chunk if the guest is relocated, and the constant target of a call is its target. -/
structure Sound (c : Chunk) (chunkEnd : ℕ) (g : Guest) : Prop where
  fold : ∀ s, (chunkRun ops callAt e c chunkEnd).Visits (.enter ops 0 g) s →
    ∀ v x, e.fold s.pkt v = some x → ∀ y, s.env.port v = some y →
      BitVec.ofNat 64 y = x.value e.base
  int : ∀ k v x, e.fold k v = some (.int x) → e.base = 0 ∨ findBlock c.packets x = none
  call : ∀ s, (chunkRun ops callAt e c chunkEnd).Visits (.enter ops 0 g) s →
    ∀ p, c.packets[s.pkt]? = some p → p.nodes[s.pos]? = none → p.updatesPc = .call →
      ∀ addr, getStaticFn e p = .function addr → pcOf s.guest = e.base + addr

/-- The function goes on as the chunk does : it does not run off its last packet, and no
branch goes to address zero when a packet was given that address. -/
def orderly (s : Ir.Config) : Bool :=
  match ps[s.pkt]? with
  | none => true
  | some p =>
    (p.nodes[s.pos]?).isSome ||
      match p.updatesPc with
      | .none | .sys | .call => s.pkt + 1 < ps.length
      | .br | .csel => pcOf s.guest ≠ e.base ∨ findBlock ps 0 = none
      | .ret => true

/-! ## The value a packet moves the PC by -/

variable {ops callAt e ps}

/-- The last action of the packet, a `write_pc` of `v`, has been run : the PC has the value of
`v`, and if that is a select it was made from values that are still there. -/
def Wrote (p : Packet) (a : NodeId) (v : Port) (s : Ir.Config) : Prop :=
  s.env.port v = some (s.guest.regs Reg.PC.offset) ∧
    ∀ c t f, p.nodes[v.owner]? = some (.csel c t f) → v.owner ∈ firstUses p.nodes p.actions a →
      ∃ x y z, s.env.port c = some x ∧ s.env.port t = some y ∧ s.env.port f = some z ∧
        s.guest.regs Reg.PC.offset = if x = 0 then z else y

/-- Beyond its last action a packet has moved the PC. -/
def Moved (ps : List Packet) (s : Ir.Config) : Prop :=
  ∀ p a v t ct, ps[s.pkt]? = some p → p.actions.getLast? = some a → a < s.pos →
    p.nodes[a]? = some (.writePc v t ct) → Wrote p a v s

/-- A select takes its value from one of two ports. -/
def Selects (ops : Ops) : Prop :=
  ∀ c t f x y z, ops.value (.csel c t f) [x, y, z] = fun _ => if x = 0 then z else y

theorem next_of_exec {node : Node} {vals : List ℕ} {pos : NodeId} {g : Guest} {locals : ℕ → ℕ}
    {o : Outcome} (h : exec ops node vals pos g locals = some o) :
    o.next = pos + 1 ∨ node = .br (some o.next) ∨ ∃ c, node = .condBr c (some o.next) := by
  unfold exec at h
  split at h
  case h_1 _ _ t =>
    obtain ⟨t, rfl, rfl⟩ := Option.map_eq_some_iff.1 h
    exact .inr (.inl rfl)
  case h_2 _ _ c t v =>
    obtain ⟨t, rfl, rfl⟩ := Option.map_eq_some_iff.1 h
    by_cases hv : v = 0
    · exact .inl (by simp [hv])
    · exact .inr (.inr ⟨c, by simp [hv]⟩)
  case h_9 op _ _ _ _ vals =>
    cases h
    exact .inl (Outcome.next_accumulate op vals _)
  all_goals
    cases h
    exact .inl rfl

theorem moved_enter (k : ℕ) (g : Guest) : Moved ps (.enter ops k g) := by
  intro p a v t ct _ _ ha
  exact absurd ha (Nat.not_lt_zero a)

/-- The last action of a packet is at its end. -/
theorem le_of_getLast {p : Packet} {a n : NodeId} (ha : p.actions.getLast? = some a)
    (hn : n ∈ p.actions) : n ≤ a := by
  obtain ⟨l, hl⟩ : ∃ l, p.actions = l ++ [a] := by
    rw [List.getLast?_eq_some_iff] at ha
    exact ha
  have hs := p.sorted
  rw [hl] at hs hn
  rcases List.mem_append.1 hn with hn | hn
  · exact ((List.pairwise_append.1 hs).2.2 n hn a (by simp)).le
  · exact (List.mem_singleton.1 hn).le

theorem evals_of_getLast {c : Chunk} {p : Packet} {k : ℕ} {a : NodeId}
    (hp : c.packets[k]? = some p) (ha : a ∈ p.actions) (h0 : a ≠ 0) :
    (lazyPlan c.code).evals k a = firstUses p.nodes p.actions a := by
  simp [lazyPlan, Chunk.code, hp, ha, h0]

theorem evals_of_notMem {c : Chunk} {p : Packet} {k : ℕ} {a : NodeId}
    (hp : c.packets[k]? = some p) (ha : a ∉ p.actions) (h0 : a ≠ 0) :
    (lazyPlan c.code).evals k a = [] := by
  simp [lazyPlan, Chunk.code, hp, ha, h0]

theorem active_iff {c : Chunk} {p : Packet} {k : ℕ} {a : NodeId} (hp : c.packets[k]? = some p) :
    (lazyPlan c.code).active k a = true ↔ a ∈ p.actions := by
  simp [lazyPlan, Chunk.code, hp]

theorem graph_of_packet {base : BitVec 64} {c : Chunk} {p : Packet} {k : ℕ}
    (hp : c.packets[k]? = some p) :
    (graphsAt base c)[k]? = some ⟨(base + addrOf p).toNat, p.nodes, p.owner_lt⟩ := by
  simp [graphsAt, hp]

theorem mapM_one {f : Port → Option ℕ} {a : Port} {vals : List ℕ} (h : [a].mapM f = some vals) :
    ∃ x, f a = some x ∧ vals = [x] := by
  obtain ⟨x, hx, h⟩ := Option.bind_eq_some_iff.1 ((List.mapM_cons ..).symm.trans h)
  exact ⟨x, hx, (Option.some.inj h).symm⟩

theorem mapM_three {f : Port → Option ℕ} {a b c : Port} {vals : List ℕ}
    (h : [a, b, c].mapM f = some vals) :
    ∃ x y z, f a = some x ∧ f b = some y ∧ f c = some z ∧ vals = [x, y, z] := by
  obtain ⟨x, hx, h⟩ := Option.bind_eq_some_iff.1 ((List.mapM_cons ..).symm.trans h)
  obtain ⟨l, hl, h⟩ := Option.bind_eq_some_iff.1 h
  obtain ⟨y, hy, hl⟩ := Option.bind_eq_some_iff.1 ((List.mapM_cons ..).symm.trans hl)
  obtain ⟨l', hl', hl⟩ := Option.bind_eq_some_iff.1 hl
  obtain ⟨z, hz, rfl⟩ := mapM_one hl'
  obtain rfl := Option.some.inj hl
  exact ⟨x, y, z, hx, hy, hz, (Option.some.inj h).symm⟩

/-- The write of the PC leaves the value it wrote, and what that was selected from. -/
theorem wrote_of_act (hops : Selects ops) {c : Chunk} {p : Packet} {q : Graph} {s d : Ir.Config}
    {v : Port} {t : BrType} {ct : ℕ} (hp : c.packets[s.pkt]? = some p) (hq : q.nodes = p.nodes)
    (hpos : s.pos ∈ p.actions) (hnode : p.nodes[s.pos]? = some (.writePc v t ct))
    (hact : act ops (.writePc v t ct) (s.eval ops (lazyPlan c.code) q) = some d) :
    Wrote p s.pos v d := by
  obtain ⟨vals, hvals, hexec⟩ := Option.bind_eq_some_iff.1 hact
  obtain ⟨x, hx, rfl⟩ := mapM_one hvals
  obtain rfl : (s.eval ops (lazyPlan c.code) q).after
      ⟨s.guest.setReg Reg.PC.offset x, s.locals, none, s.pos + 1⟩ = d := Option.some.inj hexec
  refine ⟨by simpa [Ir.Config.after, Guest.setReg] using hx, fun cond tv fv hsel hfirst => ?_⟩
  have hlt : v.owner < s.pos := p.operand_lt s.pos _ hnode v (by simp [Node.operands])
  have henv : (s.eval ops (lazyPlan c.code) q).env v.owner = q.nodes[v.owner]?.bind
      (evalNode ops q.address s.guest s.locals (s.eval ops (lazyPlan c.code) q).env) := by
    simp only [Ir.Config.eval, evals_of_getLast hp hpos (Nat.ne_of_gt (Nat.zero_lt_of_lt hlt))]
    exact foldl_evalOne_of_mem (sorted_firstUses _ _ _) hfirst
  obtain ⟨r, hr, hrx⟩ := Option.map_eq_some_iff.1 hx
  rw [hr, hq, hsel] at henv
  obtain ⟨vals, hvals, rfl⟩ := Option.map_eq_some_iff.1 henv.symm
  obtain ⟨y, z, w, hy, hz, hw, rfl⟩ := mapM_three hvals
  rw [hops] at hrx
  exact ⟨y, z, w, hy, hz, hw, by simp [Ir.Config.after, Guest.setReg, hrx]⟩

/-- A step inside a packet keeps what its last action has done. -/
theorem moved_of_step (hops : Selects ops) {c : Chunk} (hc : Translated c) {base : BitVec 64}
    {done : Ir.Config → Ir.Config ⊕ Option Exit}
    (hdone : ∀ s d, done s = .inl d → ∃ k g, d = .enter ops k g) {s d : Ir.Config}
    (hs : (runPackets ops (graphsAt base c) (lazyPlan c.code) done).step s = .inl d)
    (h : Moved c.packets s) : Moved c.packets d := by
  cases hp : c.packets[s.pkt]? with
  | none =>
    rw [runPackets_of_stray (by simp [graphsAt, hp])] at hs
    cases hs
  | some p =>
    have hq := @graph_of_packet base c p s.pkt hp
    cases hn : p.nodes[s.pos]? with
    | none =>
      rw [runPackets_of_end hq hn] at hs
      obtain ⟨k, g, rfl⟩ := hdone s d hs
      exact moved_enter k g
    | some node =>
      by_cases hpos : s.pos ∈ p.actions
      · rw [runPackets_of_active hq hn ((active_iff hp).2 hpos)] at hs
        cases hact : act ops node (s.eval ops (lazyPlan c.code) _) with
        | none => rw [hact] at hs; cases hs
        | some d' =>
          rw [hact] at hs
          obtain rfl : d' = d := Sum.inl.inj hs
          obtain ⟨vals, -, hexec⟩ := Option.bind_eq_some_iff.1 hact
          obtain ⟨o, ho, hd⟩ := Option.map_eq_some_iff.1 hexec
          intro p' a v t ct hp' ha hlt hnode
          obtain rfl : p = p' := by
            rw [← hd] at hp'
            exact Option.some.inj (hp.symm.trans hp')
          have hle := le_of_getLast ha hpos
          have hnext : o.next = s.pos + 1 ∨ o.next ∈ p.actions := by
            rcases next_of_exec ho with h | h | h
            · exact .inl h
            · exact .inr (hc.label p (List.mem_of_getElem? hp) s.pos _ (.inl (h ▸ hn)))
            · obtain ⟨cond, h⟩ := h
              exact .inr (hc.label p (List.mem_of_getElem? hp) s.pos _ (.inr ⟨cond, h ▸ hn⟩))
          have hlt' : a < o.next := by rwa [← hd] at hlt
          rcases hnext with hnext | hnext
          · obtain rfl : a = s.pos := by
              rw [hnext] at hlt'
              exact le_antisymm (Nat.lt_succ_iff.1 hlt') hle
            obtain rfl := Option.some.inj (hn.symm.trans hnode)
            exact wrote_of_act hops hp rfl hpos hnode hact
          · exact absurd (le_of_getLast ha hnext) (not_le.2 hlt')
      · have hinactive : (lazyPlan c.code).active s.pkt s.pos = false := by
          rw [← Bool.not_eq_true, active_iff hp]
          exact hpos
        rw [runPackets_of_inactive hq hn hinactive] at hs
        obtain rfl := Sum.inl.inj hs
        intro p' a v t ct hp' ha hlt hnode
        obtain rfl : p = p' := Option.some.inj (hp.symm.trans hp')
        have hne : a ≠ s.pos := by
          rintro rfl
          exact hpos (List.mem_of_getLast? ha)
        have hlt' : a < s.pos := lt_of_le_of_ne (Nat.lt_succ_iff.1 hlt) hne
        have hw := h p a v t ct hp ha hlt' hnode
        have hevals := evals_of_notMem hp hpos (Nat.ne_of_gt (Nat.zero_lt_of_lt hlt'))
        simpa [Wrote, Ir.Config.eval, hevals] using hw

/-! ## The end of a packet -/

theorem findBlock_congr {ps : List Packet} {x y : BitVec 64} (h : x = y) :
    findBlock ps x = findBlock ps y := by rw [h]

/-- The switch and the chunk go the same way unless a branch goes to address zero. -/
theorem dispatch_eq_iff {g : Guest} :
    dispatch ops e ps g = (match packetAt e.base ps (pcOf g) with
      | some k => .inl (.enter ops k g)
      | none => .inr (some (.left g))) ↔ (pcOf g = e.base → findBlock ps 0 = none) := by
  by_cases hpc : pcOf g = e.base
  · have hnone : packetAt e.base ps (pcOf g) = none := by
      rw [packetAt, hpc, List.findIdx?_eq_none_iff]
      intro p _
      by_cases h0 : addrOf p = 0 <;> simp [h0]
    have hzero : pcOf g - e.base = 0 := by simp [hpc]
    rw [hnone, dispatch, findBlock_congr hzero]
    cases hf : findBlock ps 0 with
    | none => simp
    | some k => simp [hpc]
  · have hsame : findBlock ps (pcOf g - e.base) = packetAt e.base ps (pcOf g) := by
      refine congrArg (ps.findIdx? ·) (funext fun p => ?_)
      have hsub : addrOf p = pcOf g - e.base ↔ e.base + addrOf p = pcOf g := by
        constructor <;> intro h <;> bv_omega
      have hne : e.base + addrOf p = pcOf g → addrOf p ≠ 0 := by
        rintro h h0
        exact hpc (by rw [← h, h0]; simp)
      rw [Bool.eq_iff_iff]
      simpa [hsub] using hne
    rw [dispatch, hsame]
    simp [hpc]

/-- A branch to a folded value goes where the switch would go. -/
theorem goTo_follow {k : ℕ} {v : Port} {g : Guest} (hint : ∀ x, e.fold k v = some (.int x) →
      e.base = 0 ∨ findBlock ps x = none)
    (hfold : ∀ x, e.fold k v = some x → pcOf g = x.value e.base) :
    goTo ops e ps g (follow e ps k v) = dispatch ops e ps g := by
  unfold follow
  cases hx : e.fold k v with
  | none => rfl
  | some x =>
    rw [Option.bind_some]
    cases hj : findBlock ps x.addr with
    | none => rfl
    | some j =>
      have haddr : pcOf g - e.base = x.addr := by
        rw [hfold x hx]
        cases x with
        | int a =>
          rcases hint a hx with h | h
          · simp [Folded.value, Folded.addr, h]
          · cases h.symm.trans hj
        | guest a o =>
          simp only [Folded.value, Folded.addr]
          bv_omega
      simp only [goTo]
      rw [dispatch, haddr, hj]

theorem exists_enter_of_chunkStep {chunkEnd : ℕ} {s d : Ir.Config}
    (h : chunkStep ops callAt e ps chunkEnd s = .inl d) : ∃ k g, d = .enter ops k g := by
  have hfall : ∀ {k : ℕ} {g : Guest}, fall ops ps chunkEnd k g = .inl d →
      ∃ k g, d = .enter ops k g := by
    intro k g h
    unfold fall at h
    split_ifs at h
    exact ⟨_, _, (Sum.inl.inj h).symm⟩
  unfold chunkStep at h
  split at h
  · cases h
  · split at h
    · exact hfall h
    · exact hfall h
    · exact hfall h
    · split at h
      · exact ⟨_, _, (Sum.inl.inj h).symm⟩
      · cases h
    · split at h
      · exact ⟨_, _, (Sum.inl.inj h).symm⟩
      · cases h
    · cases h

/-- The chunk run keeps what the last action of a packet has done. -/
theorem moved_of_visits (hops : Selects ops) {c : Chunk} (hc : Translated c) {chunkEnd : ℕ}
    {s d : Ir.Config} (hv : (chunkRun ops callAt e c chunkEnd).Visits s d)
    (h : Moved c.packets s) :
    Moved c.packets d := by
  induction hv with
  | refl => exact h
  | move hs _ ih => exact ih (moved_of_step hops hc (fun _ _ => exists_enter_of_chunkStep) hs h)

/-- A packet that falls through does in both runs, unless it is the last. -/
theorem next_eq_iff {g : Guest} {k chunkEnd : ℕ} {b : Block} {s : Ir.Config}
    (hb : b.terminator = if k + 1 < ps.length then .br (.insn (k + 1)) else .ret)
    (hg : b.callee callAt e s.guest = g) :
    fall ops ps chunkEnd k g = b.step ops callAt e ps s ↔ k + 1 < ps.length := by
  unfold fall Block.step
  rw [hb, hg]
  by_cases hk : k + 1 < ps.length <;> simp [hk, goTo]

/-- The packet of a branch ends with the write of the PC. -/
theorem lastStore_of_last {c : Chunk} (hc : Translated c) {p : Packet} (hp : p ∈ c.packets)
    (hbr : p.updatesPc = .br ∨ p.updatesPc = .csel) :
    ∃ a v ct, p.actions.getLast? = some a ∧ p.nodes[a]? = some (.writePc v p.updatesPc ct) ∧
      lastStore p = some (true, v) := by
  obtain ⟨a, v, ct, ha, hnode⟩ := hc.last p hp hbr
  exact ⟨a, v, ct, ha, hnode, by simp [lastStore, ha, hnode]⟩

theorem createStaticCondbr_cases {k : ℕ} {p : Packet} {a : NodeId} {b : Bool} {v : Port}
    (ha : p.actions.getLast? = some a) (hlast : lastStore p = some (b, v)) :
    createStaticCondbr e ps k p = none ∨
      ∃ c t f, p.nodes[v.owner]? = some (.csel c t f) ∧ v.owner ∈ firstUses p.nodes p.actions a ∧
        createStaticCondbr e ps k p = some (.condBr c (follow e ps k t) (follow e ps k f)) := by
  unfold createStaticCondbr
  rw [ha, hlast]
  dsimp only
  split
  · next c t f hsel =>
    split_ifs with hif
    · exact .inr ⟨c, t, f, hsel, hif.1, rfl⟩
    · exact .inl rfl
  · exact .inl rfl

/-- At the end of a packet that branches, the block goes where the switch would go. -/
theorem branch_eq_dispatch {c : Chunk} (hc : Translated c) {chunkEnd : ℕ} {g : Guest}
    (hsound : Sound ops callAt e c chunkEnd g) {s : Ir.Config}
    (hv : (chunkRun ops callAt e c chunkEnd).Visits (.enter ops 0 g) s)
    (hm : Moved c.packets s) {p : Packet} (hp : c.packets[s.pkt]? = some p)
    (hend : p.nodes[s.pos]? = none) (hbr : p.updatesPc = .br ∨ p.updatesPc = .csel) :
    (lowerPacket e c.packets s.pkt p).step ops callAt e c.packets s =
      dispatch ops e c.packets s.guest := by
  obtain ⟨a, v, ct, ha, hnode, hlast⟩ := lastStore_of_last hc (List.mem_of_getElem? hp) hbr
  have hlt : a < s.pos := by
    have h₁ := (List.getElem?_eq_some_iff.1 hnode).1
    have h₂ := List.getElem?_eq_none_iff.1 hend
    exact lt_of_lt_of_le h₁ h₂
  obtain ⟨hport, hsel⟩ := hm p a v _ ct hp ha hlt hnode
  have hgo : ∀ w x, s.env.port w = some x → BitVec.ofNat 64 x = pcOf s.guest →
      goTo ops e c.packets s.guest (follow e c.packets s.pkt w) =
        dispatch ops e c.packets s.guest := fun w x hx hpc =>
    goTo_follow (hsound.int s.pkt w) fun y hy => by
      rw [← hpc]
      exact hsound.fold s hv w y hy x hx
  rcases hbr with hbr | hbr
  · have hblock : lowerPacket e c.packets s.pkt p = ⟨none, .br (follow e c.packets s.pkt v)⟩ := by
      simp [lowerPacket, hbr, createStaticBr, hlast]
    rw [hblock]
    exact hgo v _ hport rfl
  · have hblock : lowerPacket e c.packets s.pkt p =
        ⟨none, (createStaticCondbr e c.packets s.pkt p).getD (.br .mid)⟩ := by
      simp [lowerPacket, hbr]
    rw [hblock]
    rcases @createStaticCondbr_cases e c.packets s.pkt p a true v ha hlast with
      hnone | ⟨cond, t, f, hnode, hfirst, hsome⟩
    · rw [hnone]
      rfl
    · obtain ⟨x, y, z, hx, hy, hz, hpc⟩ := hsel cond t f hnode hfirst
      rw [hsome]
      simp only [Block.step, Block.callee, Option.getD_some, hx]
      by_cases h0 : x = 0
      · rw [if_pos h0]
        exact hgo f z hz (by rw [pcOf, hpc, if_pos h0])
      · rw [if_neg h0]
        exact hgo t y hy (by rw [pcOf, hpc, if_neg h0])

/-- At the end of a packet the function and the chunk go the same way if and only if the end
is orderly. -/
theorem step_eq_iff {c : Chunk} (hc : Translated c) {chunkEnd : ℕ} {g : Guest}
    (hsound : Sound ops callAt e c chunkEnd g) {s : Ir.Config}
    (hv : (chunkRun ops callAt e c chunkEnd).Visits (.enter ops 0 g) s)
    (hm : Moved c.packets s) {p : Packet} (hp : c.packets[s.pkt]? = some p)
    (hend : p.nodes[s.pos]? = none) :
    chunkStep ops callAt e c.packets chunkEnd s =
        (lowerPacket e c.packets s.pkt p).step ops callAt e c.packets s ↔
      orderly e c.packets s := by
  rw [chunkStep, orderly, hp]
  dsimp only
  rw [hend, Option.isSome_none, Bool.false_or]
  cases hty : p.updatesPc <;> dsimp only
  case none | sys =>
    rw [decide_eq_true_iff]
    refine next_eq_iff ?_ ?_ <;> simp [lowerPacket, hty, Block.callee]
  case call =>
    rw [decide_eq_true_iff]
    refine next_eq_iff (by simp only [lowerPacket, hty]) ?_
    simp only [lowerPacket, hty, Block.callee]
    cases hf : getStaticFn e p with
    | function addr => rw [hsound.call s hv p hp hend hty addr hf]
    | mainLoop => rfl
  case br | csel =>
    rw [branch_eq_dispatch hc hsound hv hm hp hend (by simp [hty])]
    rw [decide_eq_true_iff, ← imp_iff_not_or]
    exact eq_comm.trans dispatch_eq_iff
  case ret => simp [lowerPacket, hty, Block.step, Block.callee]

/-- The generated function runs as the chunk does if and only if each end of a packet the run
comes to is orderly : the packet is not the last one, or it branches or returns, and it does
not branch to address zero when the chunk has a packet of that address. -/
theorem functionRun_eq_iff (hops : Selects ops) {c : Chunk} (hc : Translated c)
    {blocks : List Block} (hblocks : lowerChunk e c = .ok blocks) {chunkEnd : ℕ} {g : Guest}
    (hsound : Sound ops callAt e c chunkEnd g) :
    (∀ n, (chunkRun ops callAt e c chunkEnd).after n (.enter ops 0 g) =
        (functionRun ops callAt e c blocks).after n (.enter ops 0 g)) ↔
      ∀ s, (chunkRun ops callAt e c chunkEnd).Visits (.enter ops 0 g) s →
        orderly e c.packets s := by
  rw [Machine.after_eq_iff]
  refine forall₂_congr fun s hv => ?_
  have hm : Moved c.packets s := moved_of_visits hops hc hv (moved_enter 0 g)
  have hblock : ∀ p, c.packets[s.pkt]? = some p →
      blocks[s.pkt]? = some (lowerPacket e c.packets s.pkt p) := by
    intro p hp
    unfold lowerChunk at hblocks
    split_ifs at hblocks
    obtain rfl := Except.ok.inj hblocks
    simp [hp]
  cases hp : c.packets[s.pkt]? with
  | none =>
    have hq : (graphsAt e.base c)[s.pkt]? = none := by simp [graphsAt, hp]
    rw [chunkRun, functionRun, runPackets_of_stray hq, runPackets_of_stray hq]
    simp [orderly, hp]
  | some p =>
    have hq := @graph_of_packet e.base c p s.pkt hp
    cases hn : p.nodes[s.pos]? with
    | none =>
      rw [chunkRun, functionRun, runPackets_of_end hq hn, runPackets_of_end hq hn]
      simp only [hblock p hp]
      exact step_eq_iff hc hsound hv hm hp hn
    | some node =>
      refine iff_of_true ?_ (by simp [orderly, hp, hn])
      rw [chunkRun, functionRun]
      cases ha : (lazyPlan c.code).active s.pkt s.pos with
      | true => rw [runPackets_of_active hq hn ha, runPackets_of_active hq hn ha]
      | false => rw [runPackets_of_inactive hq hn ha, runPackets_of_inactive hq hn ha]

/-! ## Constants -/

/-- The folding of plain constants. -/
def foldConst (c : Chunk) (k : ℕ) (v : Port) : Option Folded :=
  match c.packets[k]?.bind (·.nodes[v.owner]?) with
  | some (.constant _ x) => some (.int (BitVec.ofNat 64 x))
  | _ => none

/-- Constants that have been evaluated have their values. -/
def Constants (ps : List Packet) (s : Ir.Config) : Prop :=
  ∀ p n vt x r, ps[s.pkt]? = some p → p.nodes[n]? = some (.constant vt x) → s.env n = some r →
    r = fun _ => x

theorem constants_foldl {p : Graph} {g : Guest} {locals : ℕ → ℕ} {n : NodeId} {vt : ValueType}
    {x : ℕ} (hn : p.nodes[n]? = some (.constant vt x)) :
    ∀ {l : List NodeId} {env : Env}, (∀ r, env n = some r → r = fun _ => x) →
      ∀ r, l.foldl (evalOne ops p g locals) env n = some r → r = fun _ => x
  | [], _, h => h
  | m :: l, env, h => by
    rw [List.foldl_cons]
    refine constants_foldl hn fun r hr => ?_
    unfold evalOne at hr
    by_cases hnm : n = m
    · rw [← hnm, Function.update_self, hn] at hr
      exact (Option.some.inj hr).symm
    · rw [Function.update_of_ne hnm] at hr
      exact h r hr

theorem constants_of_visits {c : Chunk} {chunkEnd : ℕ} {s d : Ir.Config}
    (hv : (chunkRun ops callAt e c chunkEnd).Visits s d) (h : Constants c.packets s) :
    Constants c.packets d := by
  induction hv with
  | refl => exact h
  | @move s t d hs _ ih =>
    refine ih ?_
    cases hp : c.packets[s.pkt]? with
    | none =>
      rw [chunkRun, runPackets_of_stray (by simp [graphsAt, hp])] at hs
      cases hs
    | some p =>
      have hq := @graph_of_packet e.base c p s.pkt hp
      have heval : ∀ n vt x, p.nodes[n]? = some (.constant vt x) → ∀ r,
          (s.eval ops (lazyPlan c.code) ⟨(e.base + addrOf p).toNat, p.nodes, p.owner_lt⟩).env n =
            some r → r = fun _ => x := fun n vt x hn =>
        constants_foldl hn fun r hr => h p n vt x r hp hn hr
      cases hn : p.nodes[s.pos]? with
      | none =>
        rw [chunkRun, runPackets_of_end hq hn] at hs
        obtain ⟨k, g, rfl⟩ := exists_enter_of_chunkStep hs
        intro q n vt x r _ _ hr
        cases hr
      | some node =>
        intro q n vt x r hq' hconst hr
        cases ha : (lazyPlan c.code).active s.pkt s.pos with
        | false =>
          rw [chunkRun, runPackets_of_inactive hq hn ha] at hs
          obtain rfl := Sum.inl.inj hs
          obtain rfl := Option.some.inj (hp.symm.trans hq')
          exact heval n vt x hconst r hr
        | true =>
          rw [chunkRun, runPackets_of_active hq hn ha] at hs
          cases hact : act ops node (s.eval ops (lazyPlan c.code) _) with
          | none => rw [hact] at hs; cases hs
          | some d' =>
            rw [hact] at hs
            obtain rfl : d' = t := Sum.inl.inj hs
            obtain ⟨vals, -, hexec⟩ := Option.bind_eq_some_iff.1 hact
            obtain ⟨o, -, rfl⟩ := Option.map_eq_some_iff.1 hexec
            obtain rfl := Option.some.inj (hp.symm.trans hq')
            have hne : n ≠ s.pos := by
              rintro rfl
              obtain ⟨a, ha', hisact⟩ := p.isAction _ ((active_iff hp).1 ha)
              obtain rfl := Option.some.inj (hconst.symm.trans ha')
              cases hisact
            refine heval n vt x hconst r ?_
            cases hres : o.result with
            | none => simpa only [Ir.Config.after, hres] using hr
            | some res =>
              simp only [Ir.Config.after, hres] at hr
              exact (Function.update_of_ne hne _ _).symm.trans hr

/-- The folding of plain constants is sound, in an executable without static functions. -/
theorem sound_foldConst {base : BitVec 64} (hbase : base = 0) (c : Chunk) (chunkEnd : ℕ)
    (g : Guest) : Sound ops callAt ⟨base, foldConst c, fun _ => false⟩ c chunkEnd g where
  fold s hv v x hx y hy := by
    have hconst : Constants c.packets s :=
      constants_of_visits hv fun _ _ _ _ _ _ _ h => by cases h
    dsimp only [foldConst] at hx
    split at hx
    · next vt z hnode =>
      obtain ⟨p, hp, hn⟩ := Option.bind_eq_some_iff.1 hnode
      obtain ⟨r, hr, rfl⟩ := Option.map_eq_some_iff.1 hy
      rw [← Option.some.inj hx, hconst p v.owner vt z r hp hn hr]
      rfl
    · cases hx
  int _ _ _ _ := .inl hbase
  call s _ p _ _ _ addr haddr := by
    unfold getStaticFn at haddr
    dsimp only at haddr
    split at haddr
    · simp at haddr
    · cases haddr

end Run

/-! ## Two functions -/

/-- A packet that jumps to `target`. -/
def jump (address target : ℕ) : Packet where
  nodes := [.constant (.u 64) target, .writePc ⟨.value, .u 64, 0⟩ .br 0]
  actions := [1]
  targets := [(0, .value, 1)]
  operand_lt := operand_lt_jump target
  sorted := sorted_one
  isAction := isAction_jump target
  address := address

/-- A packet that returns to the address in `RAX`. -/
def returnTo (address : ℕ) : Packet where
  nodes := [.readReg (.u 64) Reg.RAX.offset Reg.RAX.idx "RAX",
    .writePc ⟨.value, .u 64, 0⟩ .ret 0]
  actions := [1]
  targets := [(0, .value, 1)]
  operand_lt := by
    rintro (_ | _ | n) node h <;> simp at h <;> subst h <;> simp [Node.operands]
  sorted := sorted_one
  isAction := by simp [Node.isAction]
  address := address

/-- A packet without actions, as of `NOP`. -/
def nop (address : ℕ) : Packet where
  toBody := .empty
  address := address

/-- Operations that do nothing but select. -/
def selectOps : Ops where
  value node vals _ :=
    match node, vals with
    | .csel .., [x, y, z] => if x = 0 then z else y
    | _, _ => 0
  atomic _ _ v := (fun _ => v, v)
  call _ _ g := (g, 0)
  local₀ _ := 0

def noGuest : Guest :=
  ⟨fun _ => 0, fun _ => 0⟩

/-- A jump over a `NOP` to a return. -/
def jumpToReturn : Chunk :=
  ⟨"f", [jump 0x1000 0x1006, nop 0x1005, returnTo 0x1006]⟩

/-- The engine for an executable that has no other function. -/
def plainEngine (c : Chunk) : Engine :=
  ⟨0, foldConst c, fun _ => false⟩

/-- The jump goes to the block of the return, and the function returns. -/
theorem functionRun_eq_jumpToReturn :
    ∃ blocks, lowerChunk (plainEngine jumpToReturn) jumpToReturn = .ok blocks ∧
      ∀ n, (chunkRun selectOps (fun _ g => g) (plainEngine jumpToReturn) jumpToReturn
          0x1007).after n
          (.enter selectOps 0 noGuest) =
        (functionRun selectOps (fun _ g => g) (plainEngine jumpToReturn) jumpToReturn
          blocks).after n
          (.enter selectOps 0 noGuest) := by
  refine ⟨_, rfl, (functionRun_eq_iff (fun _ _ _ _ _ _ => rfl) ⟨?_, ?_⟩ rfl
    (sound_foldConst rfl jumpToReturn _ _)).2 fun s hs => ?_⟩
  · rintro p hp n t h
    simp only [jumpToReturn, List.mem_cons, List.not_mem_nil, or_false] at hp
    rcases hp with rfl | rfl | rfl <;> rcases n with _ | _ | n <;>
      simp [jump, nop, returnTo, Body.empty] at h
  · rintro p hp h
    simp only [jumpToReturn, List.mem_cons, List.not_mem_nil, or_false] at hp
    rcases hp with rfl | rfl | rfl
    · exact ⟨1, _, _, rfl, rfl⟩
    · rcases h with h | h <;> cases h
    · rcases h with h | h <;> cases h
  · have hall : (chunkRun selectOps (fun _ g => g) (plainEngine jumpToReturn) jumpToReturn
        0x1007).always (orderly (plainEngine jumpToReturn) jumpToReturn.packets) 20
          (.enter selectOps 0 noGuest) := by
      decide
    exact Machine.of_always hall hs

def onlyNop : Chunk :=
  ⟨"f", [nop 0x1000]⟩

/-- A function that ends with a `NOP` returns to the host after it. The guest goes on with the
code at `0x1001`. -/
theorem not_functionRun_eq_onlyNop :
    ∃ blocks, lowerChunk (plainEngine onlyNop) onlyNop = .ok blocks ∧
      ¬∀ n, (chunkRun selectOps (fun _ g => g) (plainEngine onlyNop) onlyNop 0x1001).after n
          (.enter selectOps 0 noGuest) =
        (functionRun selectOps (fun _ g => g) (plainEngine onlyNop) onlyNop blocks).after n
          (.enter selectOps 0 noGuest) := by
  refine ⟨_, rfl, fun h => ?_⟩
  have hleft : (chunkRun selectOps (fun _ g => g) (plainEngine onlyNop) onlyNop 0x1001).after 1
      (.enter selectOps 0 noGuest) =
        .inr (some (.left (noGuest.setReg Reg.PC.offset 0x1001))) := rfl
  cases hleft.symm.trans (h 1)

end Arancini.Static
