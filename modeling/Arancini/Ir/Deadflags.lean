import Mathlib.Data.List.Basic
import Arancini.Ir.Delay
import Arancini.Lib.Except

/-!
# Dead flags

`deadflags_opt_visitor` goes over the packets of a chunk from the last to the first, and
over the actions of a packet from the last to the first. It deletes a write of a flag when
a write of it has been visited before, and no read since. The reads of a packet count only
once the whole packet has been visited.

`visit` is the traversal of one packet. `default_visitor` enters a node through a port
once, and an atomic operation or a call that it has entered through a port it does not
visit at all. The traversal meets the reads and writes of flags in some order, `events`,
and `handle` is what the visitor does at each. `visitChunk` is the pass.

The order of the list is not the order of a run. A write that is skipped, or a packet that
a branch jumps over, still makes the writes before it dead, and a node whose first use was
a dead write is evaluated at the next. `Harmless` rules these out for a run, by the shadow
of the pass, and `returns_iff_of_harmless` says that the pass then changes nothing.
-/

namespace Arancini.Ir

/-- `flag_regs_offsets_`. -/
def flagRegs : List ℕ :=
  [Reg.ZF.offset, Reg.CF.offset, Reg.OF.offset, Reg.SF.offset, Reg.PF.offset]

/-- A flag the traversal of a packet meets. -/
inductive FlagEvent
  | read (off : ℕ)
  | write (n : NodeId) (off : ℕ)
  deriving DecidableEq

namespace Node

/-- A node that is not visited when it has been entered through a port. -/
def visitedOnce : Node → Bool
  | unaryAtomic .. | binaryAtomic .. | ternaryAtomic .. | internalCall .. => true
  | _ => false

/-- The flag a node reads or writes. -/
def flagEvent (n : NodeId) : Node → List FlagEvent
  | readReg _ off _ _ => if off ∈ flagRegs then [.read off] else []
  | writeReg off _ _ _ => if off ∈ flagRegs then [.write n off] else []
  | _ => []

/-- An arithmetic or an atomic operation. -/
def hasFlagPorts : Node → Bool
  | unaryArith .. | binaryArith .. | ternaryArith .. => true
  | unaryAtomic .. | binaryAtomic .. | ternaryAtomic .. => true
  | _ => false

end Node

/-- The nodes that were entered through a port, and the flags met, in order. -/
structure Visit where
  seen : List NodeId
  events : List FlagEvent

/-- `accept` of node `n`, at most `fuel` ports deep. -/
def accept (nodes : List Node) : ℕ → NodeId → Visit → Visit
  | 0, _, v => v
  | fuel + 1, n, v =>
    match nodes[n]? with
    | none => v
    | some node =>
      if node.visitedOnce ∧ n ∈ v.seen then v
      else
        node.operands.foldl
          (fun v o =>
            if o.owner ∈ v.seen then v
            else accept nodes fuel o.owner { v with seen := o.owner :: v.seen })
          { v with events := v.events ++ node.flagEvent n }

/-- The traversal of a packet. Operands come before a node, so the depth of node `n` is at
most `n`. -/
def visit (nodes : List Node) (actions : List NodeId) : Visit :=
  actions.foldr (fun a v => accept nodes (a + 1) a v) ⟨[], []⟩

def Body.events (b : Body) : List FlagEvent :=
  (visit b.nodes b.actions).events

/-- The fields of the visitor. -/
structure Flags where
  delete : List NodeId
  live : List ℕ
  newLive : List ℕ
  lastSe : List ℕ

/-- `visit_read_reg_node` and `visit_write_reg_node`. -/
def handle (v : Flags) : FlagEvent → Flags
  | .read off => { v with newLive := off :: v.newLive }
  | .write n off =>
    if off ∉ v.lastSe then
      { v with lastSe := off :: v.lastSe, live := v.live.filter (· ≠ off) }
    else if off ∈ v.live then
      { v with live := v.live.filter (· ≠ off) }
    else
      { v with delete := v.delete ++ [n] }

/-- The port a flag takes its value from, by the name of its register. -/
def flagPort (regname : String) : Option PortKind :=
  match regname.toList.take 2 with
  | [ 'Z', 'F'] => some .zero
  | [ 'C', 'F'] => some .carry
  | [ 'O', 'F'] => some .overflow
  | [ 'S', 'F'] => some .negative
  | _ => none

/-- Remove a deleted write from the targets of the port it reads. -/
def unlink (nodes : List Node) (targets : List (NodeId × PortKind × NodeId)) (n : NodeId) :
    Except String (List (NodeId × PortKind × NodeId)) :=
  match nodes[n]? with
  | some (.writeReg _ _ name v) =>
    if nodes[v.owner]?.any (·.hasFlagPorts) then
      match flagPort name with
      | some kind => .ok (targets.filter (· ≠ (v.owner, kind, n)))
      | none => .error "unsupported flag for flag optimisation"
    else .ok targets
  | _ => .ok targets

/-- The packet without the deleted actions. -/
def Packet.without (p : Packet) (delete : List NodeId)
    (targets : List (NodeId × PortKind × NodeId)) : Packet where
  nodes := p.nodes
  actions := p.actions.filter (· ∉ delete)
  targets := targets
  operand_lt := p.owner_lt
  sorted := p.sorted.filter _
  isAction a ha := p.isAction a (List.mem_filter.1 ha).1
  address := p.address

/-- `visit_packet`. -/
def visitPacket (p : Packet) (v : Flags) : Except String (Packet × Flags) := do
  let v := p.events.foldl handle v
  let targets ← v.delete.foldlM (unlink p.nodes) p.targets
  return (p.without v.delete targets,
    { v with delete := [], live := v.newLive ++ v.live, newLive := [] })

/-- The packets in reverse order. -/
def visitPackets : List Packet → Except String (List Packet × Flags)
  | [] => .ok ([], ⟨[], [], [], []⟩)
  | p :: ps => do
    let (ps, v) ← visitPackets ps
    let (p, v) ← visitPacket p v
    return (p :: ps, v)

/-- `visit_chunk`. -/
def visitChunk (c : Chunk) : Except String Chunk := do
  let (ps, _) ← visitPackets c.packets
  return { c with packets := ps }

/-! ## Which writes are dead -/

/-- The flag is written. -/
def writesFlag (off : ℕ) (es : List FlagEvent) : Bool :=
  es.any fun e => match e with
    | .write _ off' => off' == off
    | .read _ => false

def readsFlag (off : ℕ) (es : List FlagEvent) : Bool :=
  es.contains (.read off)

/-- A later packet writes the flag. -/
def written (off : ℕ) (later : List (List FlagEvent)) : Bool :=
  later.any (writesFlag off)

/-- The first later packet that uses the flag reads it. -/
def exposed (off : ℕ) : List (List FlagEvent) → Bool
  | [] => false
  | es :: later => readsFlag off es || (!writesFlag off es && exposed off later)

/-- The writes among `es` that are dead : the packet writes the flag again, or a later one
does and none reads it before. `done` are the events visited before `es`. -/
def deadWrites (later : List (List FlagEvent)) (done : List FlagEvent) :
    List FlagEvent → List NodeId
  | [] => []
  | .read off :: es => deadWrites later (done ++ [.read off]) es
  | .write n off :: es =>
    (if writesFlag off done || (written off later && !exposed off later) then [n] else []) ++
      deadWrites later (done ++ [.write n off]) es

/-- The dead writes of each packet. -/
def deadIn : List Packet → List (List NodeId)
  | [] => []
  | p :: ps => deadWrites (ps.map (·.events)) [] p.events :: deadIn ps

/-- The pass knows the port that the write of a flag reads. -/
def unlinkable (nodes : List Node) (n : NodeId) : Bool :=
  match nodes[n]? with
  | some (.writeReg _ _ name v) => !nodes[v.owner]?.any (·.hasFlagPorts) || (flagPort name).isSome
  | _ => true

/-- The nodes of the packets, and the actions the pass leaves of each. -/
def kept (ps : List Packet) : List (Graph × List NodeId) :=
  List.zipWith (fun p dead => (p.graph, p.actions.filter (· ∉ dead))) ps (deadIn ps)

/-! ## What the pass deletes -/

theorem writesFlag_concat_write (off f : ℕ) (n : NodeId) (es : List FlagEvent) :
    writesFlag f (es ++ [.write n off]) = (writesFlag f es || off == f) := by
  simp [writesFlag]

theorem writesFlag_concat_read (off f : ℕ) (es : List FlagEvent) :
    writesFlag f (es ++ [.read off]) = writesFlag f es := by
  simp [writesFlag]

theorem readsFlag_concat_write (off f : ℕ) (n : NodeId) (es : List FlagEvent) :
    readsFlag f (es ++ [.write n off]) = readsFlag f es := by
  simp [readsFlag]

theorem readsFlag_concat_read (off f : ℕ) (es : List FlagEvent) :
    readsFlag f (es ++ [.read off]) = (readsFlag f es || f == off) := by
  rw [Bool.eq_iff_iff]
  simp [readsFlag]

/-- What the fields of the visitor are after the later packets and the events `done` of
the current one. -/
structure FlagsInv (later : List (List FlagEvent)) (done : List FlagEvent) (v : Flags) : Prop where
  lastSe : ∀ off, off ∈ v.lastSe ↔ writesFlag off done ∨ written off later
  live : ∀ off, off ∈ v.live ↔ writesFlag off done = false ∧ exposed off later
  newLive : ∀ off, off ∈ v.newLive ↔ readsFlag off done

/-- The visitor deletes the write of a flag that it has met before, and whose flag is not
live. -/
theorem handle_spec {later : List (List FlagEvent)} {done : List FlagEvent} {v : Flags}
    (h : FlagsInv later done v) (e : FlagEvent) :
    FlagsInv later (done ++ [e]) (handle v e) ∧
      (handle v e).delete = v.delete ++ deadWrites later done [e] := by
  cases e with
  | read off =>
    refine ⟨⟨fun f => ?_, fun f => ?_, fun f => ?_⟩, by simp [handle, deadWrites]⟩
    · rw [writesFlag_concat_read]
      exact h.lastSe f
    · rw [writesFlag_concat_read]
      exact h.live f
    · rw [readsFlag_concat_read]
      simp [handle, h.newLive f, or_comm]
  | write n off =>
    have hse := h.lastSe off
    have hlive := h.live off
    have hnew : ∀ f, f ∈ v.newLive ↔ readsFlag f (done ++ [.write n off]) := fun f => by
      rw [readsFlag_concat_write]
      exact h.newLive f
    have hsplit : ∀ f, writesFlag f (done ++ [.write n off]) = (writesFlag f done || off == f) :=
      fun f => writesFlag_concat_write off f n done
    by_cases h1 : off ∈ v.lastSe
    · by_cases h2 : off ∈ v.live
      · have hh : handle v (.write n off) = { v with live := v.live.filter (· ≠ off) } := by
          simp [handle, h1, h2]
        rw [hh]
        refine ⟨⟨fun f => ?_, fun f => ?_, hnew⟩, ?_⟩
        · grind [h.lastSe f]
        · grind [h.live f]
        · grind [deadWrites]
      · have hh : handle v (.write n off) = { v with delete := v.delete ++ [n] } := by
          simp [handle, h1, h2]
        rw [hh]
        refine ⟨⟨fun f => ?_, fun f => ?_, hnew⟩, ?_⟩
        · grind [h.lastSe f]
        · grind [h.live f]
        · grind [deadWrites]
    · have hh : handle v (.write n off) =
          { v with lastSe := off :: v.lastSe, live := v.live.filter (· ≠ off) } := by
        simp [handle, h1]
      rw [hh]
      refine ⟨⟨fun f => ?_, fun f => ?_, hnew⟩, ?_⟩
      · grind [h.lastSe f]
      · grind [h.live f]
      · grind [deadWrites]

theorem foldl_handle_spec {later : List (List FlagEvent)} (es : List FlagEvent) :
    ∀ {done : List FlagEvent} {v : Flags}, FlagsInv later done v →
      FlagsInv later (done ++ es) (es.foldl handle v) ∧
        (es.foldl handle v).delete = v.delete ++ deadWrites later done es := by
  induction es with
  | nil => exact fun h => ⟨by simpa using h, by simp [deadWrites]⟩
  | cons e es ih =>
    intro done v h
    obtain ⟨hinv, hdel⟩ := handle_spec h e
    obtain ⟨hinv', hdel'⟩ := ih hinv
    refine ⟨by simpa using hinv', ?_⟩
    rw [List.foldl_cons, hdel', hdel]
    cases e <;> simp [deadWrites]

theorem foldlM_unlink {nodes : List Node} : ∀ {dead : List NodeId}
    {targets : List (NodeId × PortKind × NodeId)}, (∀ n ∈ dead, unlinkable nodes n) →
      ∃ targets', dead.foldlM (unlink nodes) targets = .ok targets'
  | [], targets, _ => ⟨targets, rfl⟩
  | n :: dead, targets, h => by
    obtain ⟨targets₁, h₁⟩ : ∃ targets₁, unlink nodes targets n = .ok targets₁ := by
      have hn := h n (by simp)
      unfold unlinkable at hn
      unfold unlink
      split at hn
      · next name v hnode =>
        cases hport : flagPort name with
        | some kind => split_ifs <;> exact ⟨_, rfl⟩
        | none =>
          rw [if_neg (by simpa [hport] using hn)]
          exact ⟨_, rfl⟩
      · exact ⟨_, rfl⟩
    have hdead : ∀ m ∈ dead, unlinkable nodes m := fun m hm => h m (by simp [hm])
    obtain ⟨targets', h'⟩ := foldlM_unlink hdead
    exact ⟨targets', by rw [List.foldlM_cons, h₁]; exact h'⟩

theorem visitPacket_of_ok {p : Packet} {v w : Flags} {targets : List (NodeId × PortKind × NodeId)}
    (hw : p.events.foldl handle v = w)
    (h : w.delete.foldlM (unlink p.nodes) p.targets = .ok targets) :
    visitPacket p v = .ok (p.without w.delete targets,
      { w with delete := [], live := w.newLive ++ w.live, newLive := [] }) := by
  subst hw
  exact bind_of_ok h _

theorem visitPackets_of_ok {p p' : Packet} {ps ps' : List Packet} {v v' : Flags}
    (hps : visitPackets ps = .ok (ps', v)) (hp : visitPacket p v = .ok (p', v')) :
    visitPackets (p :: ps) = .ok (p' :: ps', v') :=
  (bind_of_ok hps _).trans (bind_of_ok hp _)

/-- The pass leaves every action but the dead writes. -/
theorem visitPackets_spec : ∀ {ps : List Packet},
    (∀ pd ∈ ps.zip (deadIn ps), ∀ n ∈ pd.2, unlinkable pd.1.nodes n) →
      ∃ ps' v, visitPackets ps = .ok (ps', v) ∧ ps'.map (fun p => (p.graph, p.actions)) = kept ps ∧
        FlagsInv (ps.map (·.events)) [] v ∧ v.delete = [] ∧ v.newLive = []
  | [], _ => ⟨[], _, rfl, rfl, ⟨by simp [writesFlag, written], by simp [exposed],
      by simp [readsFlag]⟩, rfl, rfl⟩
  | p :: ps, h => by
    have hlater : ∀ pd ∈ ps.zip (deadIn ps), ∀ n ∈ pd.2, unlinkable pd.1.nodes n :=
      fun pd hpd n hn => h pd (by simp [deadIn, hpd]) n hn
    obtain ⟨ps', v, hps, hkept, hinv, hdel, hnew⟩ := visitPackets_spec hlater
    obtain ⟨hinv', hdel'⟩ := foldl_handle_spec p.events hinv
    generalize hw : p.events.foldl handle v = w at hinv' hdel'
    rw [hdel, List.nil_append] at hdel'
    rw [List.nil_append] at hinv'
    have hdead : ∀ n ∈ w.delete, unlinkable p.nodes n := by
      rw [hdel']
      exact fun n hn => h (p, _) (by simp [deadIn]) n hn
    obtain ⟨targets, htargets⟩ : ∃ t, w.delete.foldlM (unlink p.nodes) p.targets = .ok t :=
      foldlM_unlink hdead
    refine ⟨_, _, visitPackets_of_ok hps (visitPacket_of_ok hw htargets), ?_, ?_, rfl, rfl⟩
    · rw [List.map_cons, hkept, hdel']
      rfl
    · refine ⟨fun off => ?_, fun off => ?_, fun off => ?_⟩
      · simp [hinv'.lastSe off, written, writesFlag]
      · simp [hinv'.live off, hinv'.newLive off, exposed, writesFlag]
      · simp [readsFlag]

/-! ## What the pass leaves alone -/

/-- The events of the traversal are about nodes of the packet that write a register. -/
def WritesOnly (nodes : List Node) (es : List FlagEvent) : Prop :=
  ∀ n off, .write n off ∈ es → ∃ idx name v, nodes[n]? = some (.writeReg off idx name v)

theorem writeReg_of_mem_flagEvent {n m : NodeId} {off : ℕ} {node : Node}
    (h : .write m off ∈ node.flagEvent n) :
    m = n ∧ ∃ idx name v, node = .writeReg off idx name v := by
  cases node with
  | readReg vt off' idx name =>
    by_cases ho : off' ∈ flagRegs <;> simp [Node.flagEvent, ho] at h
  | writeReg off' idx name v =>
    by_cases ho : off' ∈ flagRegs
    · obtain ⟨rfl, rfl⟩ : m = n ∧ off = off' := by simpa [Node.flagEvent, ho] using h
      exact ⟨rfl, idx, name, v, rfl⟩
    · simp [Node.flagEvent, ho] at h
  | _ => simp [Node.flagEvent] at h

theorem writesOnly_accept {nodes : List Node} : ∀ {fuel n : ℕ} {v : Visit},
    WritesOnly nodes v.events → WritesOnly nodes (accept nodes fuel n v).events
  | 0, _, _, h => h
  | fuel + 1, n, v, h => by
    unfold accept
    split
    · exact h
    · next node hn =>
      split_ifs
      · exact h
      · have hfold : ∀ (l : List Port) (v : Visit), WritesOnly nodes v.events →
            WritesOnly nodes (l.foldl (fun v o =>
              if o.owner ∈ v.seen then v
              else accept nodes fuel o.owner { v with seen := o.owner :: v.seen }) v).events := by
          intro l
          induction l with
          | nil => exact fun v hv => hv
          | cons o l ih =>
            intro v hv
            rw [List.foldl_cons]
            refine ih _ ?_
            split_ifs
            · exact hv
            · exact writesOnly_accept hv
        refine hfold _ _ fun m off hm => ?_
        rcases List.mem_append.1 hm with hm | hm
        · exact h m off hm
        · obtain ⟨rfl, idx, name, v, rfl⟩ := writeReg_of_mem_flagEvent hm
          exact ⟨idx, name, v, hn⟩

theorem writesOnly_events (b : Body) : WritesOnly b.nodes b.events := by
  have h : ∀ l : List NodeId, WritesOnly b.nodes (visit b.nodes l).events := by
    intro l
    induction l with
    | nil => simp [visit, WritesOnly]
    | cons a l ih => exact writesOnly_accept ih
  exact h b.actions

theorem exists_write_of_mem_deadWrites {later : List (List FlagEvent)} {n : NodeId} :
    ∀ {es done : List FlagEvent}, n ∈ deadWrites later done es → ∃ off, .write n off ∈ es
  | .read f :: es, done, h => by
    have hes : n ∈ deadWrites later (done ++ [.read f]) es := h
    obtain ⟨off, hoff⟩ := exists_write_of_mem_deadWrites hes
    exact ⟨off, by simp [hoff]⟩
  | .write m off :: es, done, h => by
    rcases List.mem_append.1 h with h | h
    · obtain rfl : n = m := by
        split_ifs at h
        · simpa using h
        · simp at h
      exact ⟨off, by simp⟩
    · obtain ⟨off, h⟩ := exists_write_of_mem_deadWrites h
      exact ⟨off, by simp [h]⟩

/-- Dead writes do not update the PC. -/
theorem updatesPc_without {p : Packet} {later : List (List FlagEvent)} {q : Packet}
    (hq : (q.graph, q.actions) =
      (p.graph, p.actions.filter (· ∉ deadWrites later [] p.events))) :
    q.updatesPc = p.updatesPc := by
  obtain ⟨hgraph, hactions⟩ := Prod.mk.inj hq
  have hnodes : q.nodes = p.nodes := congrArg Graph.nodes hgraph
  have hnone : ∀ n ∈ deadWrites later [] p.events, ∀ node, p.nodes[n]? = some node →
      node.updatesPc = .none := by
    intro n hn node hnode
    obtain ⟨off, hoff⟩ := exists_write_of_mem_deadWrites hn
    obtain ⟨idx, name, v, hw⟩ := writesOnly_events p.toBody n off hoff
    obtain rfl := Option.some.inj (hnode.symm.trans hw)
    rfl
  rw [Body.updatesPc, Body.updatesPc, Body.actionNodes, Body.actionNodes, hnodes, hactions]
  generalize BrType.none = m
  induction p.actions generalizing m with
  | nil => rfl
  | cons a l ih =>
    by_cases ha : a ∈ deadWrites later [] p.events
    · rw [List.filter_cons_of_neg (by simpa using ha), ih]
      cases hnode : p.nodes[a]? with
      | none => simp [hnode]
      | some node => simp [hnode, hnone a ha node hnode, BrType.toNat]
    · rw [List.filter_cons_of_pos (by simpa using ha)]
      cases hnode : p.nodes[a]? with
      | none => rw [List.filterMap_cons_none hnode, List.filterMap_cons_none hnode, ih]
      | some node =>
        rw [List.filterMap_cons_some hnode, List.filterMap_cons_some hnode, List.foldl_cons,
          List.foldl_cons, ih]

/-- The packets the pass leaves are where they were, and update the PC as before. -/
theorem map_flow_of_kept : ∀ {ps qs : List Packet},
    qs.map (fun p => (p.graph, p.actions)) = kept ps →
    qs.map (fun p => (p.address, p.updatesPc)) = ps.map fun p => (p.address, p.updatesPc)
  | [], [], _ => rfl
  | [], q :: qs, h => by simp [kept] at h
  | p :: ps, [], h => by simp [kept, deadIn] at h
  | p :: ps, q :: qs, h => by
    obtain ⟨hq, hqs⟩ := List.cons.inj h
    have haddr : q.address = p.address := congrArg (fun x => x.1.address) hq
    rw [List.map_cons, List.map_cons, map_flow_of_kept hqs, updatesPc_without hq, haddr]

/-- The actions the pass leaves. -/
def keptCode (c : Chunk) : List (List Node × List NodeId) :=
  (kept c.packets).map fun x => (x.1.nodes, x.2)

theorem map_graph_kept : ∀ ps : List Packet, (kept ps).map (·.1) = ps.map (·.graph)
  | [] => rfl
  | _ :: ps => congrArg _ (map_graph_kept ps)

variable (ops : Ops) (wholeFunction : Bool)

/-- The shadow of the pass on a run of the chunk. -/
def shadow (c : Chunk) : Machine Shadow (Option Guest) :=
  Shadow.machine ops (c.flow wholeFunction) c.graphs (lazyPlan c.code) (lazyPlan (keptCode c))

/-- In the run from packet `k`, the deletion of the dead writes does no harm : no deleted
write is the last of its flag when the flag is read, when a call finds it or when the
chunk is left, and a node that is first used later reads there what it read before. And
no dead write of another flag than `ZF`, `CF`, `OF` and `SF` takes its value from an
arithmetic or an atomic operation. -/
structure Harmless (c : Chunk) (k : ℕ) (g : Guest) : Prop where
  unlinkable : ∀ pd ∈ c.packets.zip (deadIn c.packets), ∀ n ∈ pd.2, unlinkable pd.1.nodes n
  sound : ∀ s, (shadow ops wholeFunction c).Visits (.enter ops k g []) s →
    s.sound ops (c.flow wholeFunction) c.graphs (lazyPlan c.code) (lazyPlan (keptCode c))

variable {ops wholeFunction}

/-- Where the pass is harmless it does not throw, and the chunk it leaves returns the same
registers, memory and PC as the chunk it was given. -/
theorem returns_iff_of_harmless {c : Chunk} {k : ℕ} {g : Guest}
    (h : Harmless ops wholeFunction c k g) :
    ∃ c', visitChunk c = .ok c' ∧ ∀ r,
      (c.machine ops wholeFunction).Returns (.enter ops k g) r ↔
        (c'.machine ops wholeFunction).Returns (.enter ops k g) r := by
  obtain ⟨ps, v, hps, hkept, -⟩ := visitPackets_spec h.unlinkable
  refine ⟨{ c with packets := ps }, bind_of_ok hps _, fun r => ?_⟩
  have hflow : Chunk.flow wholeFunction { c with packets := ps } = c.flow wholeFunction :=
    congrArg (nextPacket wholeFunction) (map_flow_of_kept hkept)
  have hgraphs : Chunk.graphs { c with packets := ps } = c.graphs := by
    rw [Chunk.graphs, Chunk.graphs, ← map_graph_kept c.packets, ← hkept, List.map_map]
    rfl
  have hcode : Chunk.code { c with packets := ps } = keptCode c := by
    rw [keptCode, ← hkept, List.map_map]
    rfl
  rw [Chunk.machine, Chunk.machine, hflow, hgraphs, hcode]
  exact returns_iff_of_sound h.sound r

/-! ## A write that is skipped -/

/-- A packet that writes the constant `v` to `CF`. -/
def writeCF (address v : ℕ) : Packet where
  nodes := [.constant (.u 1) v, .writeReg Reg.CF.offset Reg.CF.idx "CF" ⟨.value, .u 1, 0⟩]
  actions := [1]
  targets := [(0, .value, 1)]
  operand_lt := by
    rintro (_ | _ | n) node h <;> simp at h <;> subst h <;> simp [Node.operands]
  sorted := sorted_one
  isAction := by simp [Node.isAction]
  address := address

/-- A packet that writes `0` to `CF` unless the constant `c` is not zero, as a shift by
`CL` does. -/
def writeCFUnless (address c : ℕ) : Packet where
  nodes := [.constant (.u 1) c, .condBr ⟨.value, .u 1, 0⟩ (some 4), .constant (.u 1) 0,
    .writeReg Reg.CF.offset Reg.CF.idx "CF" ⟨.value, .u 1, 2⟩, .label "endif"]
  actions := [1, 3, 4]
  targets := [(0, .value, 1), (2, .value, 3)]
  operand_lt := by
    rintro (_ | _ | _ | _ | _ | n) node h <;> simp at h <;> subst h <;> simp [Node.operands]
  sorted := by simp
  isAction := by simp [Node.isAction]
  address := address

/-- `CF` is set to one, and then to zero unless the constant `c` is not zero. -/
def setAndClear (c : ℕ) : Chunk :=
  ⟨"b", [writeCF 0 1, writeCFUnless 1 c]⟩

/-- Operations that do nothing. -/
def noOps : Ops where
  value _ _ _ := 0
  atomic _ _ v := (fun _ => v, v)
  call _ _ g := (g, 0)
  local₀ _ := 0

def noGuest : Guest :=
  ⟨fun _ => 0, fun _ => 0⟩

/-- A write that is not skipped. -/
theorem returns_iff_setAndClear :
    ∃ c', visitChunk (setAndClear 0) = .ok c' ∧ ∀ r,
      ((setAndClear 0).machine noOps false).Returns (.enter noOps 0 noGuest) r ↔
        (c'.machine noOps false).Returns (.enter noOps 0 noGuest) r := by
  refine returns_iff_of_harmless ⟨by decide, fun s hs => ?_⟩
  have hall : (shadow noOps false (setAndClear 0)).always (fun s => s.sound noOps
      ((setAndClear 0).flow false) (setAndClear 0).graphs (lazyPlan (setAndClear 0).code)
        (lazyPlan (keptCode (setAndClear 0)))) 20 (.enter noOps 0 noGuest []) := by
    decide
  exact Machine.of_always hall hs

/-- What the pass leaves of `setAndClear 1`. -/
def cleared : Chunk :=
  ⟨"b", [(writeCF 0 1).without [1] (writeCF 0 1).targets,
    (writeCFUnless 1 1).without [] (writeCFUnless 1 1).targets]⟩

/-- The write of the second packet is skipped, and still the pass deletes the write of the
first. -/
theorem not_returns_iff_setAndClear :
    ∃ g g', visitChunk (setAndClear 1) = .ok cleared ∧
      ((setAndClear 1).machine noOps false).Returns (.enter noOps 0 noGuest) (some g) ∧
      (cleared.machine noOps false).Returns (.enter noOps 0 noGuest) (some g') ∧
      g.regs Reg.CF.offset = 1 ∧ g'.regs Reg.CF.offset = 0 := by
  have hrun : ((setAndClear 1).machine noOps false).run 20 (.enter noOps 0 noGuest) =
      some (some (noGuest.setReg Reg.CF.offset 1)) := rfl
  have hrun' : (cleared.machine noOps false).run 20 (.enter noOps 0 noGuest) =
      some (some noGuest) := rfl
  exact ⟨_, _, rfl, Machine.returns_of_run hrun, Machine.returns_of_run hrun', rfl, rfl⟩

end Arancini.Ir
