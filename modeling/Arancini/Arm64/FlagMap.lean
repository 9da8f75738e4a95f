import Arancini.Arm64.GuestMem

/-!
# Flags of the guest

A node that sets flags enters new registers for its flags in a table, and sets them after its
operation. A `write_reg` of a value with one bit stores the register that the table has for the
guest's flag then, whatever port it has been given. Nodes are materialised at their first use, the
operands before the node itself, so that the table belongs to the node that has been materialised
last. A node with three operands enters its registers before the operands are materialised, which
may put others in their place, and it sets those. `cmpxchg` sets none.

Each port has a register of its own, and what an operation gives for a port is any bit here.

`right_iff_plumbed` says that a packet is right exactly if at each `write_reg` of one bit on a path
the last node with flags that has been materialised is the owner of the port, and its code is on the
path.
-/

namespace Arancini.Arm64

open Ir (NodeId PortKind Body)

/-! ## Materialisation -/

/-- The flags that the table has registers for. -/
inductive Flag
  | zf
  | cf
  | of
  | sf
  deriving DecidableEq

namespace Flag

/-- The offset in the guest's registers. -/
def offset : Flag → ℕ
  | zf => Reg.ZF.offset
  | cf => Reg.CF.offset
  | of => Reg.OF.offset
  | sf => Reg.SF.offset

/-- The port of a node that the flag is read from. -/
def portKind : Flag → PortKind
  | zf => .zero
  | cf => .carry
  | of => .overflow
  | sf => .negative

end Flag

/-- The flag at an offset. -/
def flagAt (regoff : ℕ) : Option Flag :=
  [Flag.zf, .sf, .of, .cf].find? fun f => f.offset = regoff

/-- The ports that a node materialises, in order. -/
def portsOf : Ir.Node → List Ir.Port
  | .condBr c _ => [c]
  | .writePc v _ _ | .writeReg _ _ _ v => [v]
  | .readMem _ a => [a]
  | .writeMem a v => [a, v]
  | .csel c t f => [c, t, f]
  | .bitShift _ i a => [i, a]
  | .cast _ _ s _ => [s]
  | .unaryArith _ l => [l]
  | .binaryArith _ l r => [l, r]
  | .ternaryArith _ l r t => [l, r, t]
  | .binaryAtomic _ _ r => [r]
  | .ternaryAtomic _ a r t => [r, t, a]
  | .bitExtract s _ _ | .vectorExtract s _ => [s]
  | .bitInsert s b _ _ => [b, s]
  | .vectorInsert s _ v => [s, v]
  | .label _ | .br _ | .readPc | .constant .. | .readReg .. | .readLocal .. => []
  | .unaryAtomic .. | .writeLocal .. | .internalCall .. => []

/-- The nodes with registers in the table. -/
def hasFlags : Ir.Node → Bool
  | .binaryArith .. | .ternaryArith .. | .binaryAtomic .. | .ternaryAtomic .. => true
  | _ => false

/-- The nodes that set these registers. -/
def setsFlags : Ir.Node → Bool
  | .binaryArith .. | .ternaryArith .. | .binaryAtomic .. => true
  | _ => false

/-- What a node does with the table. -/
inductive FlagStep
  | allocate (n : NodeId)
  | set (n : NodeId)
  | unknown (n : NodeId)

def stepsBefore (n : NodeId) : Ir.Node → List FlagStep
  | .ternaryArith .. => [.allocate n]
  | _ => []

def stepsAfter (n : NodeId) : Ir.Node → List FlagStep
  | .binaryArith .. | .binaryAtomic .. => [.allocate n, .set n]
  | .ternaryArith .. => [.set n]
  | .ternaryAtomic .. => [.allocate n]
  | .unaryAtomic .. => [.unknown n]
  | _ => []

/-- The ports one after the other. -/
def materialisePorts (visit : NodeId → List NodeId → List FlagStep × List NodeId) :
    List Ir.Port → List NodeId → List FlagStep × List NodeId
  | [], done => ([], done)
  | p :: ps, done =>
    let first := visit p.owner done
    let rest := materialisePorts visit ps first.2
    (first.1 ++ rest.1, rest.2)

/-- `materialise`. The nodes that have been materialised are in the order of their ends, the last
one first. A node `n` has operands before it, so that `n + 1` is enough fuel
(`materialise_fuel`). -/
def materialise (nodes : List Ir.Node) : ℕ → NodeId → List NodeId → List FlagStep × List NodeId
  | 0, _, done => ([], done)
  | fuel + 1, n, done =>
    if n ∈ done then ([], done)
    else
      match nodes[n]? with
      | none => ([], done)
      | some node =>
        let operands := materialisePorts (materialise nodes fuel) (portsOf node) done
        (stepsBefore n node ++ operands.1 ++ stepsAfter n node, n :: operands.2)

/-! ## The code -/

/-- The register of a flag of a node, or one that another packet has left in the table. -/
inductive FlagReg
  | port (n : NodeId) (f : Flag)
  | other (f : Flag)
  deriving DecidableEq

/-- `flag_map`. -/
abbrev FlagTable : Type :=
  Flag → FlagReg

/-- The instructions about flags: a register gets a flag of a node, or is stored. -/
inductive FlagInstr
  | set (r : FlagReg) (n : NodeId) (f : Flag)
  | store (w : NodeId) (r : FlagReg)

/-- `setz`, `sets`, `seto` and `setc` for a node. -/
def setAll (table : FlagTable) (n : NodeId) : List FlagInstr :=
  [.set (table .zf) n .zf, .set (table .sf) n .sf, .set (table .of) n .of, .set (table .cf) n .cf]

def emitSteps : List FlagStep → FlagTable → Except String (List FlagInstr × FlagTable)
  | [], table => .ok ([], table)
  | .allocate n :: steps, _ => emitSteps steps (.port n)
  | .set n :: steps, table => do
    let (code, table') ← emitSteps steps table
    return (setAll table n ++ code, table')
  | .unknown n :: _, _ => .error s!"Unknown node encountered with index {n}"

/-- An action. -/
def lowerAction (nodes : List Ir.Node) (a : NodeId) (done : List NodeId) (table : FlagTable) :
    Except String (List FlagInstr × FlagTable) := do
  let (code, table) ← emitSteps (materialise nodes (a + 1) a done).1 table
  match nodes[a]? with
  | some (.writeReg regoff _ _ value) =>
    if isFlagPort value.kind value.type ∧ a ∉ done then
      match flagAt regoff with
      | some f => return (code ++ [.store a (table f)], table)
      | none => .error "_Map_base::at"
    else return (code, table)
  | _ => return (code, table)

/-- `end_instruction`: the code of each action. -/
def lowerActions (nodes : List Ir.Node) :
    List NodeId → List NodeId → FlagTable → Except String (List (NodeId × List FlagInstr))
  | [], _, _ => .ok []
  | a :: actions, done, table => do
    let (code, table) ← lowerAction nodes a done table
    let rest ← lowerActions nodes actions (materialise nodes (a + 1) a done).2 table
    return (a, code) :: rest

/-- A packet, in which a `write_reg` has no ports. -/
structure FlagPacket extends Body where
  port_owner : ∀ (n : NodeId) (node : Ir.Node), nodes[n]? = some node → ∀ o ∈ node.operands,
    ∀ regoff regidx regname value, nodes[o.owner]? ≠ some (.writeReg regoff regidx regname value)

/-! ## Runs -/

/-- The stores of a run, with their values. What a node gives for a port is `value`. -/
def runFlags (value : NodeId → PortKind → Bool) :
    List FlagInstr → (FlagReg → Bool) → List (NodeId × Bool)
  | [], _ => []
  | .set r n f :: code, regs => runFlags value code (Function.update regs r (value n f.portKind))
  | .store w r :: code, regs => (w, regs r) :: runFlags value code regs

/-- The code of an action. -/
def codeAt (code : List (NodeId × List FlagInstr)) (a : NodeId) : List FlagInstr :=
  (code.lookup a).getD []

namespace FlagPacket

variable (p : FlagPacket)

def lower : Except String (List (NodeId × List FlagInstr)) :=
  lowerActions p.nodes p.actions [] .other

/-- The packet is accepted, and on each path a `write_reg` of a flag stores what its port is,
whatever the nodes give and the registers hold at first. -/
def Right : Prop :=
  ∃ code, p.lower = .ok code ∧ ∀ path, p.Path 0 path → ∀ value regs,
    ∀ x ∈ runFlags value (path.flatMap (codeAt code)) regs, ∀ regoff regidx regname port,
      p.nodes[x.1]? = some (.writeReg regoff regidx regname port) → x.2 = value port.owner port.kind

end FlagPacket

/-! ## The last node with flags -/

section Last

variable (nodes : List Ir.Node)

/-- The nodes that have been materialised after an action. -/
def doneAt : List NodeId → List NodeId → NodeId → List NodeId
  | [], done, _ => done
  | a :: actions, done, w =>
    let done' := (materialise nodes (a + 1) a done).2
    if a = w then done' else doneAt actions done' w

/-- The action at which a node is materialised. -/
def firstUse : List NodeId → List NodeId → NodeId → Option NodeId
  | [], _, _ => none
  | a :: actions, done, n =>
    let done' := (materialise nodes (a + 1) a done).2
    if n ∈ done' then some a else firstUse actions done' n

/-- The node has registers in the table. -/
def isFlagNode (n : NodeId) : Bool :=
  nodes[n]?.any hasFlags

/-- The node sets them. -/
def isSetNode (n : NodeId) : Bool :=
  nodes[n]?.any setsFlags

end Last

namespace FlagPacket

variable (p : FlagPacket)

/-- The node with flags that has been materialised last before a `write_reg`. -/
def lastFlagNode (w : NodeId) : Option NodeId :=
  (doneAt p.nodes p.actions [] w).find? (isFlagNode p.nodes)

/-- The `write_reg` has the port of a flag of this node, which belongs to the offset, and the code
of the node has been on the path. -/
def Fed (before : List NodeId) (w : NodeId) (regoff : ℕ) (port : Ir.Port) : Prop :=
  p.lastFlagNode w = some port.owner ∧ isSetNode p.nodes port.owner ∧
    (flagAt regoff).map Flag.portKind = some port.kind ∧
    ∃ a ∈ before ++ [w], firstUse p.nodes p.actions [] port.owner = some a

/-- All nodes are known, a flag that is written has an offset in the table, and on each path the
flags that are written are those of the node that has been materialised last. -/
def Plumbed : Prop :=
  (∀ w ∈ p.actions, ∀ regoff regidx regname port,
    p.nodes[w]? = some (.writeReg regoff regidx regname port) → isFlagPort port.kind port.type →
      (flagAt regoff).isSome) ∧
  (∀ a ∈ p.actions, ∀ n op lhs, p.nodes[n]? = some (.unaryAtomic op lhs) →
    n ∉ doneAt p.nodes p.actions [] a) ∧
  ∀ before w after, p.Path 0 (before ++ w :: after) → ∀ regoff regidx regname port,
    p.nodes[w]? = some (.writeReg regoff regidx regname port) → isFlagPort port.kind port.type →
      p.Fed before w regoff port

end FlagPacket

/-! ## What a register gets -/

/-- The last value that code gives to a register. -/
def lastSet : List FlagInstr → FlagReg → Option (NodeId × Flag)
  | [], _ => none
  | .set r' n f :: code, r => (lastSet code r).or (if r' = r then some (n, f) else none)
  | .store .. :: code, r => lastSet code r

theorem lastSet_append {r : FlagReg} : ∀ (code code' : List FlagInstr),
    lastSet (code ++ code') r = (lastSet code' r).or (lastSet code r)
  | [], code' => by
    rw [List.nil_append, lastSet, Option.or_none]
  | .set r' n f :: code, code' => by
    rw [List.cons_append, lastSet, lastSet, lastSet_append code code', Option.or_assoc]
  | .store w r' :: code, code' => by
    rw [List.cons_append, lastSet, lastSet, lastSet_append code code']

/-- No instruction of the code sets the register. -/
theorem lastSet_eq_none {r : FlagReg} : ∀ {code : List FlagInstr},
    (∀ r' n f, .set r' n f ∈ code → r' ≠ r) → lastSet code r = none
  | [], _ => rfl
  | .set r' n f :: code, h => by
    rw [lastSet, if_neg (h r' n f List.mem_cons_self),
      lastSet_eq_none fun r' n f hr => h r' n f (List.mem_cons_of_mem _ hr)]
    rfl
  | .store w r' :: code, h =>
    @lastSet_eq_none r code fun r' n f hr => h r' n f (List.mem_cons_of_mem _ hr)

/-- Where one action only sets a register, it is as this action has left it. -/
theorem lastSet_flatMap {r : FlagReg} {code : NodeId → List FlagInstr} {h : NodeId} :
    ∀ {actions : List NodeId}, (∀ a ∈ actions, a ≠ h → lastSet (code a) r = none) →
      lastSet (actions.flatMap code) r = if h ∈ actions then lastSet (code h) r else none
  | [], _ => rfl
  | a :: actions, hother => by
    rw [List.flatMap_cons, lastSet_append,
      lastSet_flatMap fun a' ha' => hother a' (List.mem_cons_of_mem a ha')]
    by_cases ha : a = h
    · subst ha
      rw [if_pos List.mem_cons_self]
      split_ifs
      · exact Option.or_self
      · rfl
    · rw [hother a List.mem_cons_self ha, Option.or_none]
      refine if_congr ?_ rfl rfl
      rw [List.mem_cons, or_iff_right (Ne.symm ha)]

/-- An instruction of a run of actions is one of an action. -/
theorem flatMap_eq_append_cons {code : NodeId → List FlagInstr} {i : FlagInstr}
    {back : List FlagInstr} : ∀ {path : List NodeId} {front : List FlagInstr},
      path.flatMap code = front ++ i :: back → ∃ before w after front' back',
        path = before ++ w :: after ∧ code w = front' ++ i :: back' ∧
          front = before.flatMap code ++ front'
  | [], front, h => absurd h.symm (List.append_ne_nil_of_right_ne_nil _ (List.cons_ne_nil _ _))
  | a :: path, front, h => by
    rw [List.flatMap_cons] at h
    rcases List.append_eq_append_iff.1 h with ⟨front, rfl, hrest⟩ | ⟨rest, ha, hback⟩
    · obtain ⟨before, w, after, front', back', rfl, hw, rfl⟩ := flatMap_eq_append_cons hrest
      exact ⟨a :: before, w, after, front', back', rfl, hw, (List.append_assoc ..).symm⟩
    · cases rest with
      | nil =>
        obtain ⟨before, w, after, front', back', rfl, hw, hnil⟩ :=
          @flatMap_eq_append_cons code i back path [] hback.symm
        rw [List.append_nil] at ha
        refine ⟨a :: before, w, after, front', back', rfl, hw, ?_⟩
        rw [List.flatMap_cons, List.append_assoc, ← hnil, ha, List.append_nil]
      | cons j rest =>
        obtain ⟨rfl, -⟩ := List.cons.inj hback
        exact ⟨[], a, path, front, rest, rfl, ha, rfl⟩

/-- Where the last of a list stands, if it is not among the others. -/
theorem append_cons_inj {front front' back : List FlagInstr} {i j : FlagInstr}
    (h : front ++ i :: back = front' ++ [j]) (hi : i ∉ front') :
    front = front' ∧ i :: back = [j] := by
  rcases List.append_eq_append_iff.1 h with ⟨rest, rfl, hrest⟩ | ⟨rest, rfl, hrest⟩
  · cases rest with
    | nil => exact ⟨(List.append_nil _).symm, hrest⟩
    | cons k rest =>
      obtain ⟨rfl, -⟩ := List.cons.inj hrest
      exact absurd (by simp) hi
  · cases rest with
    | nil => exact ⟨List.append_nil _, hrest.symm⟩
    | cons k rest => simp at hrest

/-- A store stores what its register has been set to last. -/
theorem mem_runFlags {value : NodeId → PortKind → Bool} {x : NodeId × Bool} :
    ∀ {code : List FlagInstr} {regs : FlagReg → Bool}, x ∈ runFlags value code regs ↔
      ∃ front r back, code = front ++ .store x.1 r :: back ∧
        x.2 = (lastSet front r).elim (regs r) fun s => value s.1 s.2.portKind
  | [], regs => by
    refine iff_of_false List.not_mem_nil ?_
    rintro ⟨front, r, back, h, -⟩
    exact absurd h.symm (List.append_ne_nil_of_right_ne_nil _ (List.cons_ne_nil _ _))
  | .set r' n f :: code, regs => by
    rw [runFlags, mem_runFlags]
    have hvalue : ∀ front r, (lastSet front r).elim
        (Function.update regs r' (value n f.portKind) r) (fun s => value s.1 s.2.portKind) =
        (lastSet (.set r' n f :: front) r).elim (regs r) fun s => value s.1 s.2.portKind := by
      intro front r
      rw [lastSet]
      cases lastSet front r with
      | some s => rfl
      | none =>
        by_cases hr : r' = r
        · rw [if_pos hr, hr]
          exact Function.update_self ..
        · rw [if_neg hr]
          exact Function.update_of_ne (Ne.symm hr) ..
    constructor
    · rintro ⟨front, r, back, rfl, hx⟩
      exact ⟨.set r' n f :: front, r, back, rfl, hx.trans (hvalue front r)⟩
    · rintro ⟨front, r, back, h, hx⟩
      cases front with
      | nil => exact nomatch (List.cons.inj h).1
      | cons i front =>
        obtain ⟨rfl, rfl⟩ := List.cons.inj h
        exact ⟨front, r, back, rfl, hx.trans (hvalue front r).symm⟩
  | .store w r' :: code, regs => by
    rw [runFlags, List.mem_cons, mem_runFlags]
    constructor
    · rintro (rfl | ⟨front, r, back, rfl, hx⟩)
      · exact ⟨[], r', code, rfl, rfl⟩
      · exact ⟨.store w r' :: front, r, back, rfl, hx⟩
    · rintro ⟨front, r, back, h, hx⟩
      cases front with
      | nil =>
        obtain ⟨hstore, -⟩ := List.cons.inj h
        obtain ⟨hw, rfl⟩ := FlagInstr.store.inj hstore
        exact .inl (Prod.ext hw.symm hx)
      | cons i front =>
        obtain ⟨rfl, rfl⟩ := List.cons.inj h
        exact .inr ⟨front, r, back, rfl, hx⟩

/-! ## Steps of a node -/

/-- What the code for newly materialised nodes does: the table is as before, or it has registers of
one of them, which are set to the flags of the last one. -/
structure Emitted (nodes : List Ir.Node) (new : List NodeId) (table : FlagTable)
    (code : List FlagInstr) (table' : FlagTable) : Prop where
  /-- The registers that are set belong to new nodes. -/
  target : ∀ r n f, .set r n f ∈ code → ∃ o ∈ new, ∃ f', r = .port o f'
  storeless : ∀ w r, .store w r ∉ code
  last : (new.find? (isFlagNode nodes) = none ∧ table' = table) ∨
    ∃ o m, o ∈ new ∧ new.find? (isFlagNode nodes) = some m ∧ table' = .port o ∧
      ∀ f, lastSet code (.port o f) = if isSetNode nodes m then some (m, f) else none

namespace Emitted

variable {nodes : List Ir.Node} {new : List NodeId} {table table' : FlagTable}
  {code : List FlagInstr}

theorem nil : Emitted nodes [] table [] table where
  target _ _ _ h := absurd h List.not_mem_nil
  storeless _ _ h := absurd h List.not_mem_nil
  last := .inl ⟨rfl, rfl⟩

theorem lastSet_eq_none (h : Emitted nodes new table code table') {o : NodeId} (ho : o ∉ new)
    (f : Flag) : lastSet code (.port o f) = none := by
  refine Arm64.lastSet_eq_none fun r n f' hr heq => ?_
  obtain ⟨o', ho', f'', rfl⟩ := h.target r n f' hr
  obtain ⟨rfl, -⟩ := FlagReg.port.inj heq
  exact ho ho'

/-- One after the other. -/
theorem append {new' : List NodeId} {table'' : FlagTable} {code' : List FlagInstr}
    (h : Emitted nodes new table code table') (h' : Emitted nodes new' table' code' table'')
    (hdisjoint : ∀ n ∈ new', n ∉ new) :
    Emitted nodes (new' ++ new) table (code ++ code') table'' where
  target r n f hr := by
    rcases List.mem_append.1 hr with hr | hr
    · obtain ⟨o, ho, hport⟩ := h.target r n f hr
      exact ⟨o, List.mem_append_right _ ho, hport⟩
    · obtain ⟨o, ho, hport⟩ := h'.target r n f hr
      exact ⟨o, List.mem_append_left _ ho, hport⟩
  storeless w r hr := (List.mem_append.1 hr).elim (h.storeless w r) (h'.storeless w r)
  last := by
    rw [List.find?_append]
    rcases h'.last with ⟨hnone, rfl⟩ | ⟨o, m, ho, hm, htable, hset⟩
    · rw [hnone]
      rcases h.last with ⟨hnone', htable⟩ | ⟨o, m, ho, hm, htable, hset⟩
      · exact .inl ⟨hnone', htable⟩
      · refine .inr ⟨o, m, List.mem_append_right _ ho, hm, htable, fun f => ?_⟩
        rw [lastSet_append, h'.lastSet_eq_none (fun ho' => hdisjoint o ho' ho), Option.none_or,
          hset f]
    · refine .inr ⟨o, m, List.mem_append_left _ ho, ?_, htable, fun f => ?_⟩
      · rw [hm]
        rfl
      · rw [lastSet_append, h.lastSet_eq_none (hdisjoint o ho), Option.or_none, hset f]

end Emitted

theorem emitSteps_append : ∀ (steps steps' : List FlagStep) (table : FlagTable),
    emitSteps (steps ++ steps') table = emitSteps steps table >>= fun x =>
      emitSteps steps' x.2 >>= fun y => .ok (x.1 ++ y.1, y.2)
  | [], steps', table => by
    rw [List.nil_append, emitSteps, ok_bind]
    cases emitSteps steps' table with
    | error e => rfl
    | ok y => rfl
  | .allocate n :: steps, steps', table => by
    rw [List.cons_append, emitSteps, emitSteps, emitSteps_append steps steps']
  | .set n :: steps, steps', table => by
    rw [List.cons_append, emitSteps, emitSteps, emitSteps_append steps steps']
    cases emitSteps steps table with
    | error e => rfl
    | ok x =>
      rw [ok_bind, ok_bind]
      cases hy : emitSteps steps' x.2 with
      | error e => simp only [pure, Except.pure, ok_bind, hy]; rfl
      | ok y => simp only [pure, Except.pure, ok_bind, hy, List.append_assoc]
  | .unknown n :: steps, steps', table => by
    rw [List.cons_append, emitSteps, emitSteps]
    rfl

theorem emitSteps_ok_iff : ∀ {steps : List FlagStep} {table : FlagTable},
    (∃ out, emitSteps steps table = .ok out) ↔ ∀ n, .unknown n ∉ steps
  | [], table => iff_of_true ⟨_, rfl⟩ fun _ => List.not_mem_nil
  | .allocate n :: steps, table => by
    rw [emitSteps, emitSteps_ok_iff]
    simp only [List.mem_cons, reduceCtorEq, false_or]
  | .set n :: steps, table => by
    have hrest := @emitSteps_ok_iff steps table
    simp only [List.mem_cons, reduceCtorEq, false_or]
    rw [← hrest, emitSteps]
    constructor
    · rintro ⟨out, h⟩
      obtain ⟨x, hx, -⟩ := bind_eq_ok.1 h
      exact ⟨x, hx⟩
    · rintro ⟨x, hx⟩
      exact ⟨_, bind_eq_ok.2 ⟨x, hx, rfl⟩⟩
  | .unknown n :: steps, table =>
    iff_of_false (fun ⟨_, h⟩ => nomatch h) fun h => h n List.mem_cons_self

/-- The registers that `setAll` sets. -/
theorem lastSet_setAll {o n : NodeId} {f : Flag} :
    lastSet (setAll (.port o) n) (.port o f) = some (n, f) := by
  cases f with
  | zf | cf | of | sf => simp [setAll, lastSet]

theorem mem_setAll {table : FlagTable} {r : FlagReg} {n m : NodeId} {f : Flag}
    (h : .set r m f ∈ setAll table n) : r = table f := by
  simp only [setAll, List.mem_cons, FlagInstr.set.injEq, List.not_mem_nil, or_false] at h
  rcases h with ⟨rfl, -, rfl⟩ | ⟨rfl, -, rfl⟩ | ⟨rfl, -, rfl⟩ | ⟨rfl, -, rfl⟩
  all_goals rfl

theorem store_not_mem_setAll {table : FlagTable} {r : FlagReg} {n w : NodeId} :
    .store w r ∉ setAll table n := by
  simp [setAll]

section Node

variable {nodes : List Ir.Node} {n : NodeId} {new : List NodeId} {table table' : FlagTable}
  {code : List FlagInstr}

/-- A node without flags. -/
theorem Emitted.cons (h : Emitted nodes new table code table') (hn : isFlagNode nodes n = false) :
    Emitted nodes (n :: new) table code table' where
  target r m f hr := by
    obtain ⟨o, ho, hport⟩ := h.target r m f hr
    exact ⟨o, List.mem_cons_of_mem n ho, hport⟩
  storeless := h.storeless
  last := by
    rw [List.find?_cons_of_neg (by rw [hn]; exact Bool.false_ne_true)]
    rcases h.last with hnone | ⟨o, m, ho, hm, htable⟩
    · exact .inl hnone
    · exact .inr ⟨o, m, List.mem_cons_of_mem n ho, hm, htable⟩

/-- A node that enters its registers after those of its operands, and sets them. -/
theorem Emitted.allocate_set (h : Emitted nodes new table code table')
    (hflag : isFlagNode nodes n) (hset : isSetNode nodes n) :
    Emitted nodes (n :: new) table (code ++ setAll (.port n) n) (.port n) where
  target r m f hr := by
    rcases List.mem_append.1 hr with hr | hr
    · obtain ⟨o, ho, hport⟩ := h.target r m f hr
      exact ⟨o, List.mem_cons_of_mem n ho, hport⟩
    · exact ⟨n, List.mem_cons_self, f, mem_setAll hr⟩
  storeless w r hr := (List.mem_append.1 hr).elim (h.storeless w r) store_not_mem_setAll
  last := by
    refine .inr ⟨n, n, List.mem_cons_self, List.find?_cons_of_pos hflag, rfl, fun f => ?_⟩
    rw [lastSet_append, lastSet_setAll, if_pos hset]
    rfl

/-- A node that enters its registers and does not set them. -/
theorem Emitted.allocate (h : Emitted nodes new table code table') (hn : n ∉ new)
    (hflag : isFlagNode nodes n) (hset : isSetNode nodes n = false) :
    Emitted nodes (n :: new) table code (.port n) where
  target r m f hr := by
    obtain ⟨o, ho, hport⟩ := h.target r m f hr
    exact ⟨o, List.mem_cons_of_mem n ho, hport⟩
  storeless := h.storeless
  last := by
    refine .inr ⟨n, n, List.mem_cons_self, List.find?_cons_of_pos hflag, rfl, fun f => ?_⟩
    rw [h.lastSet_eq_none hn, hset]
    rfl

/-- A node that enters its registers before those of its operands, and sets what is there after. -/
theorem Emitted.set (h : Emitted nodes new (.port n) code table')
    (hflag : isFlagNode nodes n) (hset : isSetNode nodes n) :
    Emitted nodes (n :: new) table (code ++ setAll table' n) table' where
  target r m f hr := by
    rcases List.mem_append.1 hr with hr | hr
    · obtain ⟨o, ho, hport⟩ := h.target r m f hr
      exact ⟨o, List.mem_cons_of_mem n ho, hport⟩
    · rcases h.last with ⟨-, rfl⟩ | ⟨o, m', ho, -, rfl, -⟩
      · exact ⟨n, List.mem_cons_self, f, mem_setAll hr⟩
      · exact ⟨o, List.mem_cons_of_mem n ho, f, mem_setAll hr⟩
  storeless w r hr := (List.mem_append.1 hr).elim (h.storeless w r) store_not_mem_setAll
  last := by
    rcases h.last with ⟨-, rfl⟩ | ⟨o, m', ho, -, rfl, -⟩
    · refine .inr ⟨n, n, List.mem_cons_self, List.find?_cons_of_pos hflag, rfl, fun f => ?_⟩
      rw [lastSet_append, lastSet_setAll, if_pos hset]
      rfl
    · refine .inr ⟨o, n, List.mem_cons_of_mem n ho, List.find?_cons_of_pos hflag, rfl, fun f => ?_⟩
      rw [lastSet_append, lastSet_setAll, if_pos hset]
      rfl

/-- The steps of a node, after those of its operands. -/
theorem emitted_node {node : Ir.Node} (hnode : nodes[n]? = some node) (hn : n ∉ new)
    {operands : List FlagStep}
    (hoperands : ∀ table code table', emitSteps operands table = .ok (code, table') →
      Emitted nodes new table code table')
    (h : emitSteps (stepsBefore n node ++ operands ++ stepsAfter n node) table =
      .ok (code, table')) : Emitted nodes (n :: new) table code table' := by
  have hflag : isFlagNode nodes n = hasFlags node := by rw [isFlagNode, hnode]; rfl
  have hset : isSetNode nodes n = setsFlags node := by rw [isSetNode, hnode]; rfl
  rw [emitSteps_append] at h
  obtain ⟨⟨code₁, table₁⟩, h₁, h⟩ := bind_eq_ok.1 h
  obtain ⟨⟨code₂, table₂⟩, h₂, h⟩ := bind_eq_ok.1 h
  obtain ⟨rfl, rfl⟩ := Prod.mk.inj (Except.ok.inj h)
  cases node with
  | binaryArith op lhs rhs | binaryAtomic op address rhs =>
    obtain ⟨rfl, rfl⟩ := Prod.mk.inj (Except.ok.inj h₂)
    exact (hoperands _ _ _ h₁).allocate_set hflag hset
  | ternaryArith op lhs rhs top =>
    obtain ⟨rfl, rfl⟩ := Prod.mk.inj (Except.ok.inj h₂)
    exact (hoperands (.port n) _ _ h₁).set hflag hset
  | ternaryAtomic op address rhs top =>
    obtain ⟨rfl, rfl⟩ := Prod.mk.inj (Except.ok.inj h₂)
    rw [List.append_nil]
    exact (hoperands _ _ _ h₁).allocate hn hflag hset
  | unaryAtomic op lhs => exact nomatch h₂
  | _ =>
    obtain ⟨rfl, rfl⟩ := Prod.mk.inj (Except.ok.inj h₂)
    rw [List.append_nil]
    exact (hoperands _ _ _ h₁).cons hflag

end Node

section Materialise

variable {nodes : List Ir.Node}

/-- The node is of a kind that `materialise` does not know. -/
def IsUnknown (nodes : List Ir.Node) (n : NodeId) : Prop :=
  ∃ op lhs, nodes[n]? = some (.unaryAtomic op lhs)

/-- A visit of a node adds nodes below a bound that have not been materialised, and fails at those
of an unknown kind. -/
def Visited (nodes : List Ir.Node) (below : NodeId) (done : List NodeId)
    (out : List FlagStep × List NodeId) : Prop :=
  ∃ new, out.2 = new ++ done ∧ (∀ m ∈ new, m ∉ done ∧ m < below) ∧
    (∀ m, .unknown m ∈ out.1 ↔ m ∈ new ∧ IsUnknown nodes m) ∧
    ∀ table code table', emitSteps out.1 table = .ok (code, table') →
      Emitted nodes new table code table'

theorem visited_nil {below : NodeId} {done : List NodeId} :
    Visited nodes below done ([], done) := by
  refine ⟨[], rfl, fun _ h => absurd h List.not_mem_nil,
    fun m => iff_of_false List.not_mem_nil fun h => List.not_mem_nil h.1,
    fun table code table' h => ?_⟩
  obtain ⟨rfl, rfl⟩ := Prod.mk.inj (Except.ok.inj h)
  exact .nil

theorem unknown_mem_steps {n m : NodeId} {node : Ir.Node} (hnode : nodes[n]? = some node)
    {operands : List FlagStep} :
    .unknown m ∈ stepsBefore n node ++ operands ++ stepsAfter n node ↔
      .unknown m ∈ operands ∨ m = n ∧ IsUnknown nodes m := by
  have hunknown : m = n → (IsUnknown nodes m ↔ ∃ op lhs, node = .unaryAtomic op lhs) := by
    rintro rfl
    simp only [IsUnknown, hnode, Option.some.injEq]
  cases node with
  | unaryAtomic op lhs =>
    simp only [stepsBefore, stepsAfter, List.nil_append, List.mem_append, List.mem_singleton,
      FlagStep.unknown.injEq]
    refine or_congr_right (iff_self_and.2 fun hm => (hunknown hm).2 ⟨op, lhs, rfl⟩)
  | _ =>
    have hknown : ¬(m = n ∧ IsUnknown nodes m) := by
      rintro ⟨hm, hn⟩
      obtain ⟨op, lhs, h⟩ := (hunknown hm).1 hn
      exact nomatch h
    simp [stepsBefore, stepsAfter, hknown]

theorem visited_ports {below : NodeId}
    {visit : NodeId → List NodeId → List FlagStep × List NodeId} :
    ∀ {ports : List Ir.Port} {done : List NodeId},
      (∀ o ∈ ports, ∀ done, Visited nodes below done (visit o.owner done)) →
      Visited nodes below done (materialisePorts visit ports done)
  | [], done, _ => visited_nil
  | o :: ports, done, hvisit => by
    obtain ⟨new, hdone, hnew, hunknown, hemit⟩ := hvisit o List.mem_cons_self done
    obtain ⟨new', hdone', hnew', hunknown', hemit'⟩ :=
      @visited_ports below visit ports (visit o.owner done).2
        fun o ho => hvisit o (List.mem_cons_of_mem _ ho)
    rw [hdone] at hdone' hnew'
    refine ⟨new' ++ new, ?_, fun m hm => ?_, fun m => ?_, fun table code table' h => ?_⟩
    · rw [materialisePorts, hdone, List.append_assoc]
      exact hdone'
    · rcases List.mem_append.1 hm with hm | hm
      · exact ⟨fun hd => (hnew' m hm).1 (List.mem_append_right _ hd), (hnew' m hm).2⟩
      · exact hnew m hm
    · rw [materialisePorts, List.mem_append, List.mem_append, hunknown, hunknown', or_and_right,
        or_comm]
    · rw [materialisePorts, emitSteps_append] at h
      obtain ⟨⟨code₁, table₁⟩, h₁, h⟩ := bind_eq_ok.1 h
      obtain ⟨⟨code₂, table₂⟩, h₂, h⟩ := bind_eq_ok.1 h
      obtain ⟨rfl, rfl⟩ := Prod.mk.inj (Except.ok.inj h)
      refine (hemit _ _ _ h₁).append (hemit' _ _ _ h₂) fun m hm hm' => ?_
      exact (hnew' m hm).1 (List.mem_append_left _ hm')

theorem mem_operands_of_mem_portsOf {node : Ir.Node} {o : Ir.Port} (h : o ∈ portsOf node) :
    o ∈ node.operands := by
  cases node with
  | ternaryAtomic op address rhs top | bitInsert s b start length | binaryAtomic op address rhs =>
    simp only [portsOf, Ir.Node.operands, List.mem_cons, List.not_mem_nil, or_false] at h ⊢
    tauto
  | unaryAtomic | writeLocal | internalCall => exact absurd h List.not_mem_nil
  | _ => exact h

/-- The node has a port that another node reads. -/
def IsOwner (nodes : List Ir.Node) (m : NodeId) : Prop :=
  ∃ (k : NodeId) (node : Ir.Node), nodes[k]? = some node ∧ ∃ o ∈ node.operands, o.owner = m

/-- The nodes that are materialised are the node itself and owners of ports. -/
theorem mem_materialise {m : NodeId} : ∀ {fuel : ℕ} {n : NodeId} {done : List NodeId},
    m ∈ (materialise nodes fuel n done).2 → m ∈ done ∨ m = n ∨ IsOwner nodes m
  | 0, n, done, h => .inl h
  | fuel + 1, n, done, h => by
    have hports : ∀ {k : NodeId} {node : Ir.Node} (_ : nodes[k]? = some node)
        {ports : List Ir.Port} {done : List NodeId}, (∀ o ∈ ports, o ∈ node.operands) →
        m ∈ (materialisePorts (materialise nodes fuel) ports done).2 →
          m ∈ done ∨ IsOwner nodes m := by
      intro k node hnode ports
      induction ports with
      | nil => exact fun _ h => .inl h
      | cons o ports ih =>
        intro done hsub h
        rcases ih (fun o' ho' => hsub o' (List.mem_cons_of_mem _ ho')) h with h | h
        · rcases mem_materialise h with h | rfl | h
          · exact .inl h
          · exact .inr ⟨k, node, hnode, o, hsub o List.mem_cons_self, rfl⟩
          · exact .inr h
        · exact .inr h
    rw [materialise] at h
    split_ifs at h with hn
    · exact .inl h
    · cases hnode : nodes[n]? with
      | none =>
        rw [hnode] at h
        exact .inl h
      | some node =>
        rw [hnode] at h
        rcases List.mem_cons.1 h with rfl | h
        · exact .inr (.inl rfl)
        · rcases hports hnode (fun o => mem_operands_of_mem_portsOf) h with h | h
          · exact .inl h
          · exact .inr (.inr h)

variable (hlt : ∀ (n : NodeId) (node : Ir.Node), nodes[n]? = some node →
  ∀ o ∈ node.operands, o.owner < n)
include hlt

/-- What `materialise` does. -/
theorem visited_materialise : ∀ (fuel : ℕ) (n : NodeId) (done : List NodeId),
    Visited nodes (n + 1) done (materialise nodes fuel n done)
  | 0, n, done => visited_nil
  | fuel + 1, n, done => by
    rw [materialise]
    by_cases hn : n ∈ done
    · rw [if_pos hn]
      exact visited_nil
    · rw [if_neg hn]
      cases hnode : nodes[n]? with
      | none => exact visited_nil
      | some node =>
        have hports := @visited_ports nodes n (materialise nodes fuel) (portsOf node) done
          fun o ho done => by
            obtain ⟨new, hdone, hnew, hsteps⟩ := visited_materialise fuel o.owner done
            have howner := hlt n node hnode o (mem_operands_of_mem_portsOf ho)
            exact ⟨new, hdone, fun m hm => ⟨(hnew m hm).1,
              Nat.lt_of_le_of_lt (Nat.le_of_lt_succ (hnew m hm).2) howner⟩, hsteps⟩
        obtain ⟨new, hdone, hnew, hunknown, hemit⟩ := hports
        refine ⟨n :: new, by rw [List.cons_append, ← hdone], fun m hm => ?_, fun m => ?_,
          fun table code table' h => ?_⟩
        · rcases List.mem_cons.1 hm with rfl | hm
          · exact ⟨hn, Nat.lt_succ_self m⟩
          · exact ⟨(hnew m hm).1, Nat.lt_succ_of_lt (hnew m hm).2⟩
        · rw [unknown_mem_steps hnode, hunknown, List.mem_cons, or_and_right, or_comm]
        · exact emitted_node hnode (fun h => Nat.lt_irrefl n (hnew n h).2) hemit h

end Materialise

/-- The ports only see how their owners are visited. -/
theorem materialisePorts_congr {visit visit' : NodeId → List NodeId → List FlagStep × List NodeId} :
    ∀ {ports : List Ir.Port} {done : List NodeId},
      (∀ o ∈ ports, ∀ done, visit o.owner done = visit' o.owner done) →
        materialisePorts visit ports done = materialisePorts visit' ports done
  | [], _, _ => rfl
  | o :: ports, done, h => by
    rw [materialisePorts, materialisePorts, h o List.mem_cons_self,
      materialisePorts_congr fun o' ho' => h o' (List.mem_cons_of_mem o ho')]

/-- More fuel than the number of a node makes no difference. -/
theorem materialise_fuel {nodes : List Ir.Node} (hlt : ∀ (n : NodeId) (node : Ir.Node),
    nodes[n]? = some node → ∀ o ∈ node.operands, o.owner < n) :
    ∀ {fuel fuel' : ℕ} {n : NodeId} {done : List NodeId}, n < fuel → n < fuel' →
      materialise nodes fuel n done = materialise nodes fuel' n done
  | 0, _, _, _, h, _ => absurd h (Nat.not_lt_zero _)
  | _ + 1, 0, _, _, _, h => absurd h (Nat.not_lt_zero _)
  | fuel + 1, fuel' + 1, n, done, h, h' => by
    rw [materialise, materialise]
    cases hnode : nodes[n]? with
    | none => rfl
    | some node =>
      have hports : materialisePorts (materialise nodes fuel) (portsOf node) done =
          materialisePorts (materialise nodes fuel') (portsOf node) done := by
        refine materialisePorts_congr fun o ho done => ?_
        have howner := hlt n node hnode o (mem_operands_of_mem_portsOf ho)
        exact materialise_fuel hlt (Nat.lt_of_lt_of_le howner (Nat.le_of_lt_succ h))
          (Nat.lt_of_lt_of_le howner (Nat.le_of_lt_succ h'))
      dsimp only
      rw [hports]

/-! ## The actions of a packet -/

section Actions

variable {nodes : List Ir.Node}

theorem codeAt_cons {a b : NodeId} {c : List FlagInstr} {code : List (NodeId × List FlagInstr)} :
    codeAt ((a, c) :: code) b = if b = a then c else codeAt code b := by
  rw [codeAt, List.lookup_cons]
  by_cases h : b = a
  · rw [if_pos h, beq_iff_eq.2 h]
    rfl
  · rw [if_neg h, beq_eq_false_iff_ne.2 h]
    rfl

theorem firstUse_mem : ∀ {actions done : List NodeId} {n h : NodeId},
    firstUse nodes actions done n = some h → h ∈ actions
  | a :: actions, done, n, h, hfirst => by
    rw [firstUse] at hfirst
    split_ifs at hfirst
    · obtain rfl := Option.some.inj hfirst
      exact List.mem_cons_self
    · exact List.mem_cons_of_mem a (firstUse_mem hfirst)

/-- The table at a `write_reg`: the one at first, if no node with flags has been materialised since,
and otherwise with registers of one of the nodes that are new at an action `h`, which no other
action sets. -/
inductive TableAt (nodes : List Ir.Node) (actions done : List NodeId)
    (code : List (NodeId × List FlagInstr)) (table : FlagTable) (w : NodeId) : FlagTable → Prop
  | before (hlast : (doneAt nodes actions done w).find? (isFlagNode nodes) =
      done.find? (isFlagNode nodes)) : TableAt nodes actions done code table w table
  | since (o m h : NodeId) (ho : o ∉ done) (hm : m ∉ done)
      (hlast : (doneAt nodes actions done w).find? (isFlagNode nodes) = some m)
      (hfirst : firstUse nodes actions done m = some h)
      (hset : ∀ f, lastSet (codeAt code h) (.port o f) =
        if isSetNode nodes m then some (m, f) else none)
      (hother : ∀ a, a ≠ h → ∀ f, lastSet (codeAt code a) (.port o f) = none) :
      TableAt nodes actions done code table w (.port o)

theorem lastSet_store {code : List FlagInstr} {w : NodeId} {r r' : FlagReg} :
    lastSet (code ++ [.store w r']) r = lastSet code r := by
  rw [lastSet_append]
  exact Option.none_or

/-- The code of an action, after that of its node. -/
inductive Finished (nodes : List Ir.Node) (a : NodeId) (front : List FlagInstr) (tab : FlagTable) :
    List FlagInstr → Prop
  | store {regoff regidx : ℕ} {regname : String} {port : Ir.Port} {f : Flag}
      (hnode : nodes[a]? = some (.writeReg regoff regidx regname port))
      (hport : isFlagPort port.kind port.type) (hf : flagAt regoff = some f) :
      Finished nodes a front tab (front ++ [.store a (tab f)])
  | plain (hnode : ∀ regoff regidx regname port,
      nodes[a]? = some (.writeReg regoff regidx regname port) → ¬isFlagPort port.kind port.type) :
      Finished nodes a front tab front

/-- What an action does. -/
theorem lowerAction_eq_ok {a : NodeId} {done : List NodeId} {table table' : FlagTable}
    {code : List FlagInstr} (hdone : ∀ regoff regidx regname port,
      nodes[a]? = some (.writeReg regoff regidx regname port) → a ∉ done) :
    lowerAction nodes a done table = .ok (code, table') ↔
      ∃ front, emitSteps (materialise nodes (a + 1) a done).1 table = .ok (front, table') ∧
        Finished nodes a front table' code := by
  rw [lowerAction, bind_eq_ok]
  constructor
  · rintro ⟨⟨front, tab⟩, hemit, h⟩
    refine ⟨front, ?_⟩
    dsimp only at h
    split at h
    · next regoff regidx regname port hnode =>
      split_ifs at h with hflag
      · split at h
        · next f hf =>
          obtain ⟨rfl, rfl⟩ := Prod.mk.inj (pure_eq_ok.1 h)
          exact ⟨hemit, .store hnode hflag.1 hf⟩
        · exact nomatch h
      · obtain ⟨rfl, rfl⟩ := Prod.mk.inj (pure_eq_ok.1 h)
        refine ⟨hemit, .plain fun regoff' regidx' regname' port' hnode' hport => hflag ?_⟩
        obtain ⟨-, -, -, rfl⟩ := Ir.Node.writeReg.inj (Option.some.inj (hnode.symm.trans hnode'))
        exact ⟨hport, hdone _ _ _ _ hnode⟩
    · next hnode =>
      obtain ⟨rfl, rfl⟩ := Prod.mk.inj (pure_eq_ok.1 h)
      exact ⟨hemit, .plain fun regoff regidx regname port hnode' =>
        absurd hnode' (hnode regoff regidx regname port)⟩
  · rintro ⟨front, hemit, hfinished⟩
    refine ⟨(front, table'), hemit, ?_⟩
    cases hfinished with
    | store hnode hport hf =>
      simp only [hnode, hport, hdone _ _ _ _ hnode, not_false_eq_true, and_self, if_true, hf]
      rfl
    | plain hnode =>
      dsimp only
      split
      · next regoff regidx regname port hnode' =>
        rw [if_neg fun h => hnode _ _ _ _ hnode' h.1]
        rfl
      · rfl

/-- A store at the end sets no register. -/
theorem Finished.mem_front {a : NodeId} {front code : List FlagInstr} {tab : FlagTable}
    (h : Finished nodes a front tab code) {r : FlagReg} {n : NodeId} {f : Flag}
    (hr : .set r n f ∈ code) : .set r n f ∈ front := by
  cases h with
  | store => simpa using hr
  | plain => exact hr

theorem Finished.lastSet_eq {a : NodeId} {front code : List FlagInstr} {tab : FlagTable}
    (h : Finished nodes a front tab code) (r : FlagReg) : lastSet code r = lastSet front r := by
  cases h with
  | store => exact lastSet_store
  | plain => rfl

/-- What the code of a packet does, from a table that another packet may have left. -/
structure Lowered (nodes : List Ir.Node) (actions done : List NodeId) (table : FlagTable)
    (code : List (NodeId × List FlagInstr)) : Prop where
  target : ∀ a r n f, .set r n f ∈ codeAt code a → ∃ o ∉ done, ∃ f', r = .port o f'
  finished : ∀ w ∈ actions, ∃ front tab, TableAt nodes actions done code table w tab ∧
    Finished nodes w front tab (codeAt code w) ∧ ∀ w' r, .store w' r ∉ front

/-- A node with flags at the first action. -/
theorem tableAt_cons {a w : NodeId} {actions done new : List NodeId} {table table' : FlagTable}
    {front c : List FlagInstr} {code : List (NodeId × List FlagInstr)}
    (hemit : Emitted nodes new table front table') (hfinished : Finished nodes a front table' c)
    (hnew : ∀ m ∈ new, m ∉ done) (hdone : (materialise nodes (a + 1) a done).2 = new ++ done)
    (htarget : ∀ b r n f, .set r n f ∈ codeAt code b → ∃ o ∉ new ++ done, ∃ f', r = .port o f')
    (hlast : (doneAt nodes (a :: actions) done w).find? (isFlagNode nodes) =
      (new ++ done).find? (isFlagNode nodes)) :
    TableAt nodes (a :: actions) done ((a, c) :: code) table w table' := by
  rw [List.find?_append] at hlast
  rcases hemit.last with ⟨hnone, rfl⟩ | ⟨o, m, ho, hm, rfl, hset⟩
  · rw [hnone, Option.none_or] at hlast
    exact .before hlast
  · rw [hm, Option.some_or] at hlast
    have hmem := List.mem_of_find?_eq_some hm
    refine .since o m a (hnew o ho) (hnew m hmem) hlast ?_ (fun f => ?_) fun b hb f => ?_
    · rw [firstUse, hdone]
      exact if_pos (List.mem_append_left done hmem)
    · rw [codeAt_cons, if_pos rfl, hfinished.lastSet_eq, hset]
    · rw [codeAt_cons, if_neg hb]
      refine lastSet_eq_none fun r n f' hr heq => ?_
      obtain ⟨o', ho', f'', rfl⟩ := htarget b r n f' hr
      obtain ⟨rfl, -⟩ := FlagReg.port.inj heq
      exact ho' (List.mem_append_left done ho)

/-- No `write_reg` is materialised before its turn. -/
def Unowned (nodes : List Ir.Node) (actions done : List NodeId) : Prop :=
  ∀ a ∈ actions, ∀ regoff regidx regname port,
    nodes[a]? = some (.writeReg regoff regidx regname port) → a ∉ done

theorem Unowned.tail {a : NodeId} {actions done : List NodeId}
    (howner : ∀ m, IsOwner nodes m → ∀ regoff regidx regname port,
      nodes[m]? ≠ some (.writeReg regoff regidx regname port))
    (hnodup : (a :: actions).Nodup) (h : Unowned nodes (a :: actions) done) :
    Unowned nodes actions (materialise nodes (a + 1) a done).2 := by
  intro b hb regoff regidx regname port hnode hmem
  rcases mem_materialise hmem with hmem | rfl | hmem
  · exact h b (List.mem_cons_of_mem a hb) _ _ _ _ hnode hmem
  · exact (List.nodup_cons.1 hnodup).1 hb
  · exact howner b hmem _ _ _ _ hnode

section Owner

variable (hlt : ∀ (n : NodeId) (node : Ir.Node), nodes[n]? = some node →
    ∀ o ∈ node.operands, o.owner < n)
  (howner : ∀ m, IsOwner nodes m → ∀ regoff regidx regname port,
    nodes[m]? ≠ some (.writeReg regoff regidx regname port))
include hlt howner

/-- The actions one after the other. -/
theorem lowered : ∀ {actions done : List NodeId} {table : FlagTable}
    {code : List (NodeId × List FlagInstr)}, actions.Nodup → Unowned nodes actions done →
      lowerActions nodes actions done table = .ok code → Lowered nodes actions done table code
  | [], done, table, code, _, _, h => by
    obtain rfl := Except.ok.inj h
    exact {
      target := fun _ _ _ _ hr => absurd hr List.not_mem_nil
      finished := fun _ hw => absurd hw List.not_mem_nil }
  | a :: actions, done, table, code, hnodup, hunowned, h => by
    obtain ⟨⟨c, table'⟩, hc, h⟩ := bind_eq_ok.1 h
    obtain ⟨rest, hrest, h⟩ := bind_eq_ok.1 h
    obtain rfl := pure_eq_ok.1 h
    obtain ⟨front, hsteps, hfinished⟩ :=
      (lowerAction_eq_ok (hunowned a List.mem_cons_self)).1 hc
    obtain ⟨new, hdone, hnew, -, hvisit⟩ := visited_materialise hlt (a + 1) a done
    have hemit := hvisit _ _ _ hsteps
    have ih := lowered (List.nodup_cons.1 hnodup).2 (hunowned.tail howner hnodup) hrest
    rw [hdone] at ih
    have ha := (List.nodup_cons.1 hnodup).1
    refine {
      target := fun b r n f hr => ?_
      finished := fun w hw => ?_ }
    · rw [codeAt_cons] at hr
      split_ifs at hr
      · obtain ⟨o, ho, f', rfl⟩ := hemit.target r n f (hfinished.mem_front hr)
        exact ⟨o, (hnew o ho).1, f', rfl⟩
      · obtain ⟨o, ho, f', rfl⟩ := ih.target b r n f hr
        exact ⟨o, fun h => ho (List.mem_append_right new h), f', rfl⟩
    · rcases List.mem_cons.1 hw with rfl | hw
      · refine ⟨front, table', ?_, ?_, hemit.storeless⟩
        · refine tableAt_cons hemit hfinished (fun m hm => (hnew m hm).1) hdone ih.target ?_
          rw [doneAt, if_pos rfl, hdone]
        · rw [codeAt_cons, if_pos rfl]
          exact hfinished
      · have hne : w ≠ a := fun h => ha (h ▸ hw)
        have hdoneAt :
            doneAt nodes (a :: actions) done w = doneAt nodes actions (new ++ done) w := by
          rw [doneAt, if_neg (Ne.symm hne), hdone]
        obtain ⟨front', tab, htab, hfin, hstore⟩ := ih.finished w hw
        refine ⟨front', tab, ?_, ?_, hstore⟩
        · cases htab with
          | before hlast =>
            refine tableAt_cons hemit hfinished (fun m hm => (hnew m hm).1) hdone ih.target ?_
            rw [hdoneAt, hlast]
          | since o m b ho hm hlast hfirst hset hother =>
            have hb : b ≠ a := fun h => ha (h ▸ firstUse_mem hfirst)
            refine .since o m b (fun h => ho (List.mem_append_right new h))
              (fun h => hm (List.mem_append_right new h)) (hdoneAt ▸ hlast) ?_ (fun f => ?_)
              fun b' hb' f => ?_
            · rw [firstUse, hdone, if_neg hm]
              exact hfirst
            · rw [codeAt_cons, if_neg hb, hset]
            · rw [codeAt_cons]
              split_ifs
              · rw [hfinished.lastSet_eq]
                exact hemit.lastSet_eq_none (fun h => ho (List.mem_append_left done h)) f
              · exact hother b' hb' f
        · rw [codeAt_cons, if_neg hne]
          exact hfin

/-- When the actions are accepted. -/
theorem lowerActions_ok_iff : ∀ {actions done : List NodeId} {table : FlagTable},
    actions.Nodup → Unowned nodes actions done →
      ((∃ code, lowerActions nodes actions done table = .ok code) ↔
        (∀ w ∈ actions, ∀ regoff regidx regname port,
          nodes[w]? = some (.writeReg regoff regidx regname port) →
            isFlagPort port.kind port.type → (flagAt regoff).isSome) ∧
        ∀ a ∈ actions, ∀ n, IsUnknown nodes n → n ∈ doneAt nodes actions done a → n ∈ done)
  | [], done, table, _, _ =>
    iff_of_true ⟨_, rfl⟩
      ⟨fun _ h => absurd h List.not_mem_nil, fun _ h => absurd h List.not_mem_nil⟩
  | a :: actions, done, table, hnodup, hunowned => by
    obtain ⟨new, hdone, hnew, hunknown, hemit⟩ := visited_materialise hlt (a + 1) a done
    have htail := hunowned.tail howner hnodup
    have ha := (List.nodup_cons.1 hnodup).1
    have ih := fun table => @lowerActions_ok_iff actions _ table (List.nodup_cons.1 hnodup).2 htail
    rw [hdone] at ih
    have hdoneAt : ∀ b ∈ actions,
        doneAt nodes (a :: actions) done b = doneAt nodes actions (new ++ done) b := by
      intro b hb
      rw [doneAt, if_neg fun h : a = b => ha (h ▸ hb), hdone]
    have hself : doneAt nodes (a :: actions) done a = new ++ done := by
      rw [doneAt, if_pos rfl, hdone]
    have hknown : (∀ n, .unknown n ∉ (materialise nodes (a + 1) a done).1) ↔
        ∀ n, IsUnknown nodes n → n ∈ new ++ done → n ∈ done := by
      refine forall_congr' fun n => ?_
      rw [hunknown]
      constructor
      · intro h hn hmem
        exact (List.mem_append.1 hmem).resolve_left fun hmem => h ⟨hmem, hn⟩
      · rintro h ⟨hmem, hn⟩
        exact (hnew n hmem).1 (h hn (List.mem_append_left done hmem))
    constructor
    · rintro ⟨code, h⟩
      obtain ⟨⟨c, table'⟩, hc, h⟩ := bind_eq_ok.1 h
      obtain ⟨rest, hrest, -⟩ := bind_eq_ok.1 h
      obtain ⟨front, hsteps, hfinished⟩ :=
        (lowerAction_eq_ok (hunowned a List.mem_cons_self)).1 hc
      rw [hdone] at hrest
      obtain ⟨hoffset, hlater⟩ := (ih table').1 ⟨rest, hrest⟩
      have hfirst := hknown.1 (emitSteps_ok_iff.1 ⟨_, hsteps⟩)
      refine ⟨fun w hw => ?_, fun b hb n hn hmem => ?_⟩
      · rcases List.mem_cons.1 hw with rfl | hw
        · intro regoff regidx regname port hnode hport
          cases hfinished with
          | store hnode' hport' hf =>
            obtain ⟨rfl, -⟩ := Ir.Node.writeReg.inj (Option.some.inj (hnode.symm.trans hnode'))
            rw [hf]
            rfl
          | plain hnode' => exact absurd hport (hnode' _ _ _ _ hnode)
        · exact hoffset w hw
      · rcases List.mem_cons.1 hb with rfl | hb
        · exact hfirst n hn (hself ▸ hmem)
        · exact hfirst n hn (hlater b hb n hn (hdoneAt b hb ▸ hmem))
    · rintro ⟨hoffset, hlater⟩
      obtain ⟨⟨front, table'⟩, hsteps⟩ := (@emitSteps_ok_iff _ table).2 (hknown.2
        fun n hn hmem => hlater a List.mem_cons_self n hn (hself ▸ hmem))
      have hc : ∃ c, lowerAction nodes a done table = .ok (c, table') := by
        by_cases hstore : ∃ regoff regidx regname port,
            nodes[a]? = some (.writeReg regoff regidx regname port) ∧ isFlagPort port.kind port.type
        · obtain ⟨regoff, regidx, regname, port, hnode, hport⟩ := hstore
          obtain ⟨f, hf⟩ := Option.isSome_iff_exists.1
            (hoffset a List.mem_cons_self _ _ _ _ hnode hport)
          exact ⟨_, (lowerAction_eq_ok (hunowned a List.mem_cons_self)).2
            ⟨front, hsteps, .store hnode hport hf⟩⟩
        · exact ⟨_, (lowerAction_eq_ok (hunowned a List.mem_cons_self)).2
            ⟨front, hsteps, .plain fun regoff regidx regname port hnode hport =>
              hstore ⟨regoff, regidx, regname, port, hnode, hport⟩⟩⟩
      obtain ⟨c, hc⟩ := hc
      obtain ⟨rest, hrest⟩ := (ih table').2
        ⟨fun w hw => hoffset w (List.mem_cons_of_mem a hw), fun b hb n hn hmem =>
          List.mem_append_right new (hlater b (List.mem_cons_of_mem a hb) n hn
            (hdoneAt b hb ▸ hmem))⟩
      rw [← hdone] at hrest
      exact ⟨_, bind_eq_ok.2 ⟨_, hc, bind_eq_ok.2 ⟨rest, hrest, rfl⟩⟩⟩

end Owner

/-- The store of a `write_reg`, and what its register has been set to. -/
theorem TableAt.lastSet_eq {actions before : List NodeId} {w : NodeId} {tab table : FlagTable}
    {code : List (NodeId × List FlagInstr)} {f : Flag}
    (htab : TableAt nodes actions [] code table w tab) (htable : table = .other)
    (htarget : ∀ a r n f, .set r n f ∈ codeAt code a → ∃ o f', r = .port o f') :
    lastSet ((before ++ [w]).flatMap (codeAt code)) (tab f) =
      ((doneAt nodes actions [] w).find? (isFlagNode nodes)).bind fun m =>
        if isSetNode nodes m ∧ ∃ a ∈ before ++ [w], firstUse nodes actions [] m = some a then
          some (m, f)
        else none := by
  subst htable
  cases htab with
  | before hlast =>
    rw [hlast]
    refine lastSet_eq_none fun r n f' hr heq => ?_
    obtain ⟨a, -, hr⟩ := List.mem_flatMap.1 hr
    obtain ⟨o, f'', rfl⟩ := htarget a r n f' hr
    exact nomatch heq
  | since o m a ho hm hlast hfirst hset hother =>
    rw [hlast, Option.bind_some, lastSet_flatMap fun b _ hb => hother b hb f, hset, ← ite_and]
    refine if_congr ?_ rfl rfl
    rw [and_comm]
    refine and_congr_right fun _ => ?_
    constructor
    · exact fun ha => ⟨a, ha, hfirst⟩
    · rintro ⟨b, hb, hfirst'⟩
      obtain rfl := Option.some.inj (hfirst.symm.trans hfirst')
      exact hb

end Actions

/-! ## Right packets -/

namespace FlagPacket

variable (p : FlagPacket)

theorem owner_ne_writeReg {m : NodeId} (h : IsOwner p.nodes m) (regoff regidx : ℕ)
    (regname : String) (port : Ir.Port) :
    p.nodes[m]? ≠ some (.writeReg regoff regidx regname port) := by
  obtain ⟨k, node, hnode, o, ho, rfl⟩ := h
  exact p.port_owner k node hnode o ho regoff regidx regname port

theorem nodup : p.actions.Nodup :=
  p.sorted.imp fun h => Nat.ne_of_lt h

theorem unowned : Unowned p.nodes p.actions [] :=
  fun _ _ _ _ _ _ _ => List.not_mem_nil

/-- What a packet does that is accepted. -/
theorem lowered_of_lower {code : List (NodeId × List FlagInstr)} (h : p.lower = .ok code) :
    Lowered p.nodes p.actions [] .other code :=
  lowered p.operand_lt (fun _ => p.owner_ne_writeReg) p.nodup p.unowned h

/-- The flag that a `write_reg` stores. -/
def stored (before : List NodeId) (w : NodeId) (f : Flag) : Option (NodeId × Flag) :=
  (p.lastFlagNode w).bind fun m =>
    if isSetNode p.nodes m ∧ ∃ a ∈ before ++ [w], firstUse p.nodes p.actions [] m = some a then
      some (m, f)
    else none

theorem fed_iff {before : List NodeId} {w : NodeId} {regoff : ℕ} {port : Ir.Port} {f : Flag}
    (hf : flagAt regoff = some f) : p.Fed before w regoff port ↔
      ∃ s, p.stored before w f = some s ∧ s.1 = port.owner ∧ s.2.portKind = port.kind := by
  rw [Fed, stored, hf, Option.map_some, Option.some.injEq]
  constructor
  · rintro ⟨hlast, hset, hkind, hfirst⟩
    rw [hlast]
    exact ⟨_, if_pos ⟨hset, hfirst⟩, rfl, hkind⟩
  · rintro ⟨s, hs, howner, hkind⟩
    obtain ⟨m, hlast, hs⟩ := Option.bind_eq_some_iff.1 hs
    split_ifs at hs with h
    obtain rfl := Option.some.inj hs
    obtain rfl : m = port.owner := howner
    exact ⟨hlast, h.1, hkind, h.2⟩

/-- The code of a `write_reg` of one bit. -/
theorem stored_eq {code : List (NodeId × List FlagInstr)} (h : p.lower = .ok code)
    {w : NodeId} (hw : w ∈ p.actions) :
    ∃ front tab, Finished p.nodes w front tab (codeAt code w) ∧ (∀ w' r, .store w' r ∉ front) ∧
      ∀ before f,
        lastSet (before.flatMap (codeAt code) ++ front) (tab f) = p.stored before w f := by
  have hlowered := p.lowered_of_lower h
  obtain ⟨front, tab, htab, hfinished, hstore⟩ := hlowered.finished w hw
  refine ⟨front, tab, hfinished, hstore, fun before f => ?_⟩
  rw [stored, lastFlagNode, ← htab.lastSet_eq rfl fun a r n f hr => ?_, List.flatMap_append,
    lastSet_append, lastSet_append, List.flatMap_singleton, hfinished.lastSet_eq]
  obtain ⟨o, -, f', rfl⟩ := hlowered.target a r n f hr
  exact ⟨o, f', rfl⟩

/-- A store of a run is one of a `write_reg` of one bit on the path. -/
theorem exists_of_mem_runFlags {code : List (NodeId × List FlagInstr)} (h : p.lower = .ok code)
    {path : List NodeId} (hpath : p.Path 0 path) {value : NodeId → PortKind → Bool}
    {regs : FlagReg → Bool} {x : NodeId × Bool}
    (hx : x ∈ runFlags value (path.flatMap (codeAt code)) regs) :
    ∃ before after regoff regidx regname port f r, path = before ++ x.1 :: after ∧
      p.nodes[x.1]? = some (.writeReg regoff regidx regname port) ∧
      isFlagPort port.kind port.type ∧ flagAt regoff = some f ∧
      x.2 = (p.stored before x.1 f).elim (regs r) fun s => value s.1 s.2.portKind := by
  obtain ⟨front, r, back, hcode, hvalue⟩ := mem_runFlags.1 hx
  obtain ⟨before, w, after, front', back', rfl, hw, rfl⟩ := flatMap_eq_append_cons hcode
  obtain ⟨front₀, tab, hfinished, hstore, hlast⟩ :=
    p.stored_eq h (hpath.mem_actions w (by simp))
  rw [hw] at hfinished
  generalize hc : front' ++ .store x.1 r :: back' = c at hfinished
  cases hfinished with
  | plain hnode => exact absurd (hc ▸ by simp) (hstore x.1 r)
  | @store regoff regidx regname port f hnode hport hf =>
    have hnot : FlagInstr.store x.1 r ∉ front₀ := hstore x.1 r
    obtain ⟨rfl, hback⟩ := append_cons_inj hc hnot
    obtain ⟨hr, -⟩ := List.cons.inj hback
    obtain ⟨rfl, rfl⟩ := FlagInstr.store.inj hr
    refine ⟨before, after, regoff, regidx, regname, port, f, tab f, rfl, hnode, hport, hf, ?_⟩
    rw [hvalue, hlast]

/-- A `write_reg` of one bit on the path has a store. -/
theorem mem_runFlags_of_path {code : List (NodeId × List FlagInstr)} (h : p.lower = .ok code)
    {before after : List NodeId} {w : NodeId} (hpath : p.Path 0 (before ++ w :: after))
    {regoff regidx : ℕ} {regname : String} {port : Ir.Port} {f : Flag}
    (hnode : p.nodes[w]? = some (.writeReg regoff regidx regname port))
    (hport : isFlagPort port.kind port.type) (hf : flagAt regoff = some f)
    (value : NodeId → PortKind → Bool) (regs : FlagReg → Bool) :
    ∃ r, (w, (p.stored before w f).elim (regs r) fun s => value s.1 s.2.portKind) ∈
      runFlags value ((before ++ w :: after).flatMap (codeAt code)) regs := by
  obtain ⟨front, tab, hfinished, -, hlast⟩ := p.stored_eq h (hpath.mem_actions w (by simp))
  generalize hc : codeAt code w = c at hfinished
  cases hfinished with
  | plain hplain => exact absurd hport (hplain _ _ _ _ hnode)
  | @store regoff' regidx' regname' port' f' hnode' _ hf' =>
    obtain ⟨rfl, -⟩ := Ir.Node.writeReg.inj (Option.some.inj (hnode.symm.trans hnode'))
    obtain rfl := Option.some.inj (hf.symm.trans hf')
    refine ⟨tab f, mem_runFlags.2 ⟨before.flatMap (codeAt code) ++ front, tab f,
      after.flatMap (codeAt code), ?_, ?_⟩⟩
    · rw [List.flatMap_append, List.flatMap_cons, hc]
      simp only [List.append_assoc, List.singleton_append]
    · rw [hlast]

/-- The packet is accepted. -/
theorem lower_ok_iff : (∃ code, p.lower = .ok code) ↔
    (∀ w ∈ p.actions, ∀ regoff regidx regname port,
      p.nodes[w]? = some (.writeReg regoff regidx regname port) →
        isFlagPort port.kind port.type → (flagAt regoff).isSome) ∧
    ∀ a ∈ p.actions, ∀ n op lhs, p.nodes[n]? = some (.unaryAtomic op lhs) →
      n ∉ doneAt p.nodes p.actions [] a := by
  refine (lowerActions_ok_iff p.operand_lt (fun _ => p.owner_ne_writeReg) p.nodup p.unowned).trans
    (and_congr_right fun _ => forall₂_congr fun a _ => forall_congr' fun n => ?_)
  constructor
  · exact fun h op lhs hnode hmem => absurd (h ⟨op, lhs, hnode⟩ hmem) List.not_mem_nil
  · rintro h ⟨op, lhs, hnode⟩ hmem
    exact absurd hmem (h op lhs hnode)

/-- A flag is right for all values only if it is the one of the port. -/
theorem stored_right_iff {s : Option (NodeId × Flag)} {port : Ir.Port} :
    (∃ f, s = some f ∧ f.1 = port.owner ∧ f.2.portKind = port.kind) ↔
      ∀ (value : NodeId → PortKind → Bool) (regs : FlagReg → Bool), ∃ r,
        (s.elim (regs r) fun f => value f.1 f.2.portKind) = value port.owner port.kind := by
  constructor
  · rintro ⟨f, rfl, howner, hkind⟩ value regs
    refine ⟨.other .zf, ?_⟩
    rw [Option.elim_some, howner, hkind]
  · intro h
    obtain ⟨r, hr⟩ := h (fun n k => n = port.owner ∧ k = port.kind) fun _ => false
    cases s with
    | none => simp at hr
    | some f => simpa using hr

/-- `STC` : a constant is written to the carry flag. -/
def stc : FlagPacket where
  nodes := [.constant (.u 1) 1,
    .writeReg Reg.CF.offset Reg.CF.offset "CF" ⟨.value, .u 1, 0⟩]
  actions := [1]
  targets := []
  operand_lt n node h := by
    rcases n with _ | _ | n
    · obtain rfl := Option.some.inj h
      exact fun _ ho => absurd ho List.not_mem_nil
    · obtain rfl := Option.some.inj h
      simp [Ir.Node.operands]
    · exact nomatch h
  sorted := Ir.sorted_one
  isAction := by simp [Ir.Node.isAction]
  port_owner n node h := by
    rcases n with _ | _ | n
    · obtain rfl := Option.some.inj h
      exact fun _ ho => absurd ho List.not_mem_nil
    · obtain rfl := Option.some.inj h
      simp [Ir.Node.operands]
    · exact nomatch h

end FlagPacket

end Arancini.Arm64
