import Arancini.Arm64.Context

/-!
# Local variables

A variable gets a register when it is first written, and a `read_local` copies from there to the
registers of its port. The register is allocated for the `write_local`, which has no type and so
one register whatever the variable is. The copy of a `write_local` goes from this register to
itself, so that the value is never moved. Its registers are only counted, and they are there only
if another node has materialised them before.

The nodes of a block are taken in the order in which they are lowered, and a run is any order in
which their code is executed, with repetitions, so that it may go through loops.
`locals_right_iff` says that a run is right exactly if the block is accepted and no `read_local` is
executed.
-/

namespace Arancini.Arm64

open Ir (ValueType TypeClass)

/-! ## Lowering -/

/-- A node of a block : another one that has a value, or one for a local variable. -/
inductive LocalNode
  | value (port : ℕ) (type : ValueType)
  | write (lcl value : ℕ)
  | read (port lcl : ℕ)
  deriving DecidableEq

/-- The port that a node gets registers for, with its type. -/
def LocalNode.port (vars : ℕ → ValueType) : LocalNode → Option (ℕ × ValueType)
  | value port type => some (port, type)
  | write _ _ => none
  | read port lcl => some (port, vars lcl)

/-- The type of an action node. -/
def actionType : ValueType :=
  ⟨.none, 0, 0⟩

/-- `vreg_alloc_` and `locals_`. A port that has not been allocated has no registers. -/
structure LocalState where
  next : ℕ
  ports : ℕ → List RegisterOperand
  locals : ℕ → Option (List RegisterOperand)

/-- The code of a node, with the registers of its port, or of the value that it writes. -/
structure LoweredNode where
  node : LocalNode
  regs : List RegisterOperand
  code : List Instr

/-- `reset_context`. -/
def LocalState.init : LocalState :=
  ⟨33, fun _ => [], fun _ => none⟩

section Lower

variable (vars : ℕ → ValueType)

namespace LocalState

variable (st : LocalState)

/-- The registers of the next port of this type. -/
def allocated (type : ValueType) : List RegisterOperand :=
  sequence st.next type

/-- `allocate` for a port. -/
def allocate (port : ℕ) (type : ValueType) : LocalState :=
  { st with
    next := st.next + (st.allocated type).length
    ports := Function.update st.ports port (st.allocated type) }

/-- The register of a variable is allocated when there is none. -/
def allocateLocal (lcl : ℕ) : LocalState :=
  if (st.locals lcl).isSome then st
  else
    { st with
      next := st.next + (st.allocated actionType).length
      locals := Function.update st.locals lcl (some (st.allocated actionType)) }

/-- `locals_[n.local()]`. -/
def localRegs (lcl : ℕ) : List RegisterOperand :=
  (st.locals lcl).getD []

/-- `materialise_write_local`. -/
def materialiseWriteLocal (lcl value : ℕ) : Except String (LoweredNode × LocalState) :=
  let writeVregs := st.ports value
  let st := st.allocateLocal lcl
  let destVregs := st.localRegs lcl
  if writeVregs.length ≠ destVregs.length then .error "Write local received mismatched types"
  else .ok (⟨.write lcl value, writeVregs, destVregs.map fun r => .mov r (.reg r)⟩, st)

/-- `materialise_read_local`. -/
def materialiseReadLocal (port lcl : ℕ) : Except String (LoweredNode × LocalState) :=
  let destVregs := st.allocated (vars lcl)
  let locals := st.localRegs lcl
  if locals.length ≠ destVregs.length then .error "Read local received mismatched types"
  else .ok (⟨.read port lcl, destVregs, (destVregs.zip locals).map fun r => .mov r.1 (.reg r.2)⟩,
    st.allocate port (vars lcl))

/-- A node. What the code of another one is does not matter here. -/
def materialise : LocalNode → Except String (LoweredNode × LocalState)
  | .value port type => .ok (⟨.value port type, st.allocated type, []⟩, st.allocate port type)
  | .write lcl value => st.materialiseWriteLocal lcl value
  | .read port lcl => st.materialiseReadLocal vars port lcl

end LocalState

/-- The nodes one after the other. -/
def lowerNodes : List LocalNode → LocalState → Except String (List LoweredNode)
  | [], _ => .ok []
  | node :: nodes, st => do
    let (first, st) ← st.materialise vars node
    let rest ← lowerNodes nodes st
    return first :: rest

end Lower

/-! ## Running -/

/-- The machine, with the bits of the last value that was written to each variable. -/
structure LocalConfig where
  state : State
  last : ℕ → Option (ℕ → Option Bool)

namespace LoweredNode

variable (assigned : ℕ → ℕ) (vars : ℕ → ValueType) (l : LoweredNode)

/-- Run the code of a node. That of another node leaves any values in the registers of its port. -/
def exec (values : ℕ → BitVec 64) (c : LocalConfig) : Except String LocalConfig :=
  match l.node with
  | .value _ _ =>
    .ok { c with
      state := { c.state with
        regs := fun n => if n ∈ l.regs.map RegisterOperand.index then values n
          else c.state.regs n } }
  | .write lcl _ => do
    let s ← run assigned l.code c.state
    return ⟨s, Function.update c.last lcl (some (bitAt l.regs c.state))⟩
  | .read _ _ => do
    let s ← run assigned l.code c.state
    return { c with state := s }

/-- A `read_local` has left the value of the last `write_local`. -/
def Yields (before after : LocalConfig) : Prop :=
  match l.node with
  | .read _ lcl => ∀ bits, before.last lcl = some bits →
    ∀ i < (vars lcl).width, bitAt l.regs after.state i = bits i
  | _ => True

end LoweredNode

/-- The code of these nodes is executed in this order, with these values of the other nodes, and
every `read_local` is right. -/
def Follows (assigned : ℕ → ℕ) (vars : ℕ → ValueType) (code : List LoweredNode) :
    List ℕ → (ℕ → ℕ → BitVec 64) → LocalConfig → Prop
  | [], _, _ => True
  | k :: path, values, c => ∃ l c', code[k]? = some l ∧ l.exec assigned (values 0) c = .ok c' ∧
    l.Yields vars c c' ∧ Follows assigned vars code path (fun n => values (n + 1)) c'

/-- The nodes of a block, and the types of its variables. A port is of one node. -/
structure LocalBlock where
  vars : ℕ → ValueType
  nodes : List LocalNode
  pos : ∀ lcl, 0 < (vars lcl).width
  once : nodes.Pairwise fun node node' =>
    ∀ p type type', node.port vars = some (p, type) → node'.port vars ≠ some (p, type')

namespace LocalBlock

variable (b : LocalBlock)

/-- After these nodes this one may be executed : its operands have been computed, and the variable
that it reads has been written. -/
def Enabled (before : List ℕ) (k : ℕ) : Prop :=
  match b.nodes[k]? with
  | some (.value _ _) => True
  | some (.write _ value) =>
    ∃ j ∈ before, ∃ node type, b.nodes[j]? = some node ∧ node.port b.vars = some (value, type)
  | some (.read _ lcl) => ∃ j ∈ before, ∃ value, b.nodes[j]? = some (.write lcl value)
  | none => False

/-- The order in which a block is executed. -/
structure Run where
  path : List ℕ
  enabled : ∀ before k rest, path = before ++ k :: rest → b.Enabled before k

/-- The block is lowered, and each `read_local` that is executed yields the last value that was
written, whatever the registers hold first and the other nodes compute. -/
def LocalsRight (assigned : ℕ → ℕ) (r : b.Run) : Prop :=
  ∃ code, lowerNodes b.vars b.nodes .init = .ok code ∧
    ∀ s values, Follows assigned b.vars code r.path values ⟨s, fun _ => none⟩

/-- The block is accepted : a value that is written has been materialised before and has less than
128 bits, and a variable that is read has been written before and has less than 128 bits. -/
structure Accepted : Prop where
  write : ∀ k lcl value, b.nodes[k]? = some (.write lcl value) →
    ∃ (j : ℕ) (node : LocalNode) (type : ValueType), j < k ∧ b.nodes[j]? = some node ∧
      node.port b.vars = some (value, type) ∧ type.width < 128
  read : ∀ k port lcl, b.nodes[k]? = some (.read port lcl) →
    (b.vars lcl).width < 128 ∧
      ∃ (j value : ℕ), j < k ∧ b.nodes[j]? = some (.write lcl value)

end LocalBlock

/-! ## A node -/

theorem length_sequence_eq_one {first : ℕ} {type : ValueType} :
    (sequence first type).length = 1 ↔ type.width < 128 := by
  by_cases h : type.width ≤ 64
  · rw [sequence_of_le h]
    exact iff_of_true rfl (by omega)
  · rw [length_sequence_of_lt (Nat.lt_of_not_le h)]
    omega

namespace LocalState

variable (vars : ℕ → ValueType) (st : LocalState)

/-- The state after a node that is accepted. -/
def after : LocalNode → LocalState
  | .value port type => st.allocate port type
  | .write lcl _ => st.allocateLocal lcl
  | .read port lcl => st.allocate port (vars lcl)

/-- The counts of registers fit. -/
def Accepts : LocalNode → Prop
  | .value _ _ => True
  | .write lcl value =>
    (st.ports value).length = ((st.allocateLocal lcl).localRegs lcl).length
  | .read _ lcl => (st.localRegs lcl).length = (st.allocated (vars lcl)).length

/-- What is emitted for a node that is accepted. -/
def lowered : LocalNode → LoweredNode
  | .value port type => ⟨.value port type, st.allocated type, []⟩
  | .write lcl value => ⟨.write lcl value, st.ports value,
    ((st.allocateLocal lcl).localRegs lcl).map fun r => .mov r (.reg r)⟩
  | .read port lcl => ⟨.read port lcl, st.allocated (vars lcl),
    ((st.allocated (vars lcl)).zip (st.localRegs lcl)).map fun r => .mov r.1 (.reg r.2)⟩

variable {vars st}

theorem materialise_eq_ok {node : LocalNode} {r : LoweredNode × LocalState} :
    st.materialise vars node = .ok r ↔
      st.Accepts vars node ∧ r = (st.lowered vars node, st.after vars node) := by
  cases node with
  | value port type =>
    exact ⟨fun h => ⟨trivial, (Except.ok.inj h).symm⟩, fun h => congrArg _ h.2.symm⟩
  | write lcl value =>
    simp only [materialise, materialiseWriteLocal, Accepts]
    split_ifs with h
    · exact iff_of_false nofun fun h' => h h'.1
    · exact ⟨fun h' => ⟨of_not_not h, (Except.ok.inj h').symm⟩, fun h' => congrArg _ h'.2.symm⟩
  | read port lcl =>
    simp only [materialise, materialiseReadLocal, Accepts]
    split_ifs with h
    · exact iff_of_false nofun fun h' => h h'.1
    · exact ⟨fun h' => ⟨of_not_not h, (Except.ok.inj h').symm⟩, fun h' => congrArg _ h'.2.symm⟩

theorem next_le_after (node : LocalNode) : st.next ≤ (st.after vars node).next := by
  cases node with
  | value port type => exact Nat.le_add_right ..
  | write lcl value =>
    rw [after, allocateLocal]
    split_ifs
    · exact le_rfl
    · exact Nat.le_add_right ..
  | read port lcl => exact Nat.le_add_right ..

theorem next_after_of_port {node : LocalNode} {port : ℕ} {type : ValueType}
    (h : node.port vars = some (port, type)) :
    (st.after vars node).next = st.next + (sequence st.next type).length ∧
      (st.after vars node).ports = Function.update st.ports port (sequence st.next type) := by
  cases node with
  | value port' type' =>
    obtain ⟨rfl, rfl⟩ := Prod.mk.inj (Option.some.inj h)
    exact ⟨rfl, rfl⟩
  | write lcl value => exact nomatch h
  | read port' lcl =>
    obtain ⟨rfl, rfl⟩ := Prod.mk.inj (Option.some.inj h)
    exact ⟨rfl, rfl⟩

theorem ports_after_of_ne {node : LocalNode} {port : ℕ}
    (h : ∀ type, node.port vars ≠ some (port, type)) :
    (st.after vars node).ports port = st.ports port := by
  cases node with
  | value port' type =>
    exact Function.update_of_ne (fun heq : port = port' => h type (by rw [heq]; rfl)) ..
  | write lcl value =>
    rw [after, allocateLocal]
    split_ifs
    · rfl
    · rfl
  | read port' lcl =>
    exact Function.update_of_ne (fun heq : port = port' => h (vars lcl) (by rw [heq]; rfl)) ..

/-- A node other than a first write keeps the registers of a variable. -/
theorem locals_after {node : LocalNode} {lcl : ℕ} (h : ∀ value, node ≠ .write lcl value) :
    (st.after vars node).locals lcl = st.locals lcl := by
  cases node with
  | value port type => rfl
  | write lcl' value =>
    rw [after, allocateLocal]
    split_ifs
    · rfl
    · exact Function.update_of_ne (fun heq : lcl = lcl' => h value (by rw [heq])) ..
  | read port lcl' => rfl

theorem locals_after_write {lcl value : ℕ} :
    (st.after vars (.write lcl value)).locals lcl =
        some ((st.locals lcl).getD (sequence st.next actionType)) ∧
      ((st.locals lcl).isNone → st.next < (st.after vars (.write lcl value)).next) := by
  rw [after, allocateLocal]
  split_ifs with h
  · obtain ⟨rs, hrs⟩ := Option.isSome_iff_exists.1 h
    rw [hrs]
    exact ⟨rfl, nofun⟩
  · rw [Option.not_isSome_iff_eq_none.1 h]
    exact ⟨Function.update_self .., fun _ => Nat.lt_add_of_pos_right length_sequence_pos⟩

end LocalState

theorem lowerNodes_eq_ok {vars : ℕ → ValueType} :
    ∀ {nodes : List LocalNode} {st : LocalState} {code : List LoweredNode},
      lowerNodes vars nodes st = .ok code → ∀ {k : ℕ} {node : LocalNode}, nodes[k]? = some node →
        ((nodes.take k).foldl (LocalState.after vars) st).Accepts vars node ∧
          code[k]? = some (((nodes.take k).foldl (LocalState.after vars) st).lowered vars node)
  | [], _, _, _, _, _, hnode => nomatch hnode
  | first :: nodes, st, code, h, k, node, hnode => by
    obtain ⟨r, hr, h⟩ := bind_eq_ok.1 h
    obtain ⟨haccepts, rfl⟩ := LocalState.materialise_eq_ok.1 hr
    obtain ⟨rest, hrest, h⟩ := bind_eq_ok.1 h
    obtain rfl := pure_eq_ok.1 h
    cases k with
    | zero =>
      obtain rfl := Option.some.inj hnode
      exact ⟨haccepts, rfl⟩
    | succ k => exact lowerNodes_eq_ok hrest hnode

theorem exists_lowerNodes {vars : ℕ → ValueType} :
    ∀ {nodes : List LocalNode} {st : LocalState},
      (∀ k node, nodes[k]? = some node →
        ((nodes.take k).foldl (LocalState.after vars) st).Accepts vars node) →
      ∃ code, lowerNodes vars nodes st = .ok code
  | [], _, _ => ⟨[], rfl⟩
  | first :: nodes, st, h => by
    obtain ⟨rest, hrest⟩ := exists_lowerNodes fun k node hnode => h (k + 1) node hnode
    refine ⟨st.lowered vars first :: rest, bind_eq_ok.2 ⟨_, LocalState.materialise_eq_ok.2
      ⟨h 0 first rfl, rfl⟩, bind_eq_ok.2 ⟨rest, hrest, rfl⟩⟩⟩

/-! ## The nodes of a block -/

namespace LocalBlock

variable (b : LocalBlock)

/-- The state before a node. -/
def stateAt (k : ℕ) : LocalState :=
  (b.nodes.take k).foldl (LocalState.after b.vars) .init

variable {b} {j k : ℕ} {node : LocalNode}

theorem stateAt_succ (h : b.nodes[k]? = some node) :
    b.stateAt (k + 1) = (b.stateAt k).after b.vars node := by
  rw [stateAt, List.take_add_one, h, List.foldl_append]
  rfl

theorem stateAt_succ_of_none (h : b.nodes[k]? = none) : b.stateAt (k + 1) = b.stateAt k := by
  rw [stateAt, List.take_add_one, h, Option.toList_none, List.append_nil]
  rfl

theorem next_mono : Monotone fun k => (b.stateAt k).next := by
  refine monotone_nat_of_le_succ fun k => ?_
  cases hnode : b.nodes[k]? with
  | none => rw [stateAt_succ_of_none hnode]
  | some node =>
    rw [stateAt_succ hnode]
    exact LocalState.next_le_after node

/-- The registers of the port of a node. -/
def IsPortReg (b : LocalBlock) (j n : ℕ) : Prop :=
  ∃ node port type, b.nodes[j]? = some node ∧ node.port b.vars = some (port, type) ∧
    n ∈ (sequence (b.stateAt j).next type).map RegisterOperand.index

theorem IsPortReg.bounds {n : ℕ} (h : b.IsPortReg j n) :
    (b.stateAt j).next ≤ n ∧ n < (b.stateAt (j + 1)).next := by
  obtain ⟨node, port, type, hnode, hport, hn⟩ := h
  obtain ⟨r, hr, rfl⟩ := List.mem_map.1 hn
  obtain ⟨i, hi⟩ := List.getElem?_of_mem hr
  obtain ⟨hindex, hlt⟩ := index_of_getElem? hi
  rw [stateAt_succ hnode, (LocalState.next_after_of_port hport).1, hindex]
  omega

/-- Registers that are allocated for different nodes are different. -/
theorem eq_of_bounds {n : ℕ} (hj : (b.stateAt j).next ≤ n ∧ n < (b.stateAt (j + 1)).next)
    (hk : (b.stateAt k).next ≤ n ∧ n < (b.stateAt (k + 1)).next) : j = k := by
  rcases Nat.lt_trichotomy j k with hlt | heq | hlt
  · have hle : (b.stateAt (j + 1)).next ≤ (b.stateAt k).next := next_mono hlt
    omega
  · exact heq
  · have hle : (b.stateAt (k + 1)).next ≤ (b.stateAt j).next := next_mono hlt
    omega

/-- A port is of one node. -/
theorem eq_of_port {node' : LocalNode} {p : ℕ} {type type' : ValueType}
    (hj : b.nodes[j]? = some node) (hport : node.port b.vars = some (p, type))
    (hk : b.nodes[k]? = some node') (hport' : node'.port b.vars = some (p, type')) : j = k := by
  obtain ⟨hjlt, rfl⟩ := List.getElem?_eq_some_iff.1 hj
  obtain ⟨hklt, rfl⟩ := List.getElem?_eq_some_iff.1 hk
  rcases Nat.lt_trichotomy j k with hlt | heq | hlt
  · exact absurd hport' (List.pairwise_iff_getElem.1 b.once j k hjlt hklt hlt p type type' hport)
  · exact heq
  · exact absurd hport (List.pairwise_iff_getElem.1 b.once k j hklt hjlt hlt p type' type hport')

/-- The registers of a port, when its node has been lowered. -/
theorem ports_stateAt {p : ℕ} {type : ValueType} (hnode : b.nodes[j]? = some node)
    (hport : node.port b.vars = some (p, type)) (hlt : j < k) :
    (b.stateAt k).ports p = sequence (b.stateAt j).next type := by
  induction k with
  | zero => exact absurd hlt (Nat.not_lt_zero j)
  | succ k ih =>
    rcases Nat.lt_succ_iff_lt_or_eq.1 hlt with hlt | rfl
    · rw [← ih hlt]
      cases hk : b.nodes[k]? with
      | none => rw [stateAt_succ_of_none hk]
      | some node' =>
        rw [stateAt_succ hk]
        exact LocalState.ports_after_of_ne fun type' hport' =>
          hlt.ne (eq_of_port hnode hport hk hport')
    · rw [stateAt_succ hnode, (LocalState.next_after_of_port hport).2, Function.update_self]

theorem exists_of_ports {p : ℕ} (h : (b.stateAt k).ports p ≠ []) :
    ∃ j node type, j < k ∧ b.nodes[j]? = some node ∧ node.port b.vars = some (p, type) := by
  induction k with
  | zero => exact absurd rfl h
  | succ k ih =>
    cases hk : b.nodes[k]? with
    | none =>
      rw [stateAt_succ_of_none hk] at h
      obtain ⟨j, node, type, hlt, hnode⟩ := ih h
      exact ⟨j, node, type, Nat.lt_succ_of_lt hlt, hnode⟩
    | some node' =>
      by_cases hport : ∃ type, node'.port b.vars = some (p, type)
      · obtain ⟨type, hport⟩ := hport
        exact ⟨k, node', type, Nat.lt_succ_self k, hk, hport⟩
      · rw [stateAt_succ hk, LocalState.ports_after_of_ne (not_exists.1 hport)] at h
        obtain ⟨j, node, type, hlt, hnode⟩ := ih h
        exact ⟨j, node, type, Nat.lt_succ_of_lt hlt, hnode⟩

/-- A variable has one register, which is allocated for a node that writes it. -/
theorem locals_stateAt {lcl : ℕ} {rs : List RegisterOperand}
    (h : (b.stateAt k).locals lcl = some rs) :
    ∃ j value, j < k ∧ b.nodes[j]? = some (.write lcl value) ∧
      rs = [⟨(b.stateAt j).next, actionType⟩] ∧
        (b.stateAt j).next < (b.stateAt (j + 1)).next := by
  induction k with
  | zero => exact nomatch h
  | succ k ih =>
    have hbefore : (b.stateAt k).locals lcl = some rs →
        ∃ j value, j < k + 1 ∧ b.nodes[j]? = some (.write lcl value) ∧
          rs = [⟨(b.stateAt j).next, actionType⟩] ∧
            (b.stateAt j).next < (b.stateAt (j + 1)).next := fun h => by
      obtain ⟨j, value, hlt, hnode⟩ := ih h
      exact ⟨j, value, Nat.lt_succ_of_lt hlt, hnode⟩
    cases hk : b.nodes[k]? with
    | none => exact hbefore (stateAt_succ_of_none hk ▸ h)
    | some node =>
      rw [stateAt_succ hk] at h
      by_cases hwrite : ∃ value, node = .write lcl value
      · obtain ⟨value, rfl⟩ := hwrite
        obtain ⟨hlocals, hnext⟩ :=
          @LocalState.locals_after_write b.vars (b.stateAt k) lcl value
        cases hnone : (b.stateAt k).locals lcl with
        | some rs' =>
          rw [hnone] at hlocals
          exact hbefore (hnone.trans (hlocals.symm.trans h))
        | none =>
          rw [hnone] at hlocals hnext
          refine ⟨k, value, Nat.lt_succ_self k, hk, Option.some.inj (h.symm.trans hlocals), ?_⟩
          rw [stateAt_succ hk]
          exact hnext rfl
      · rw [LocalState.locals_after (not_exists.1 hwrite)] at h
        exact hbefore h

theorem isSome_locals_stateAt {lcl value : ℕ} (hnode : b.nodes[j]? = some (.write lcl value))
    (hlt : j < k) : ((b.stateAt k).locals lcl).isSome := by
  induction k with
  | zero => exact absurd hlt (Nat.not_lt_zero j)
  | succ k ih =>
    cases hk : b.nodes[k]? with
    | none =>
      rw [stateAt_succ_of_none hk]
      refine ih (lt_of_le_of_ne (Nat.lt_succ_iff.1 hlt) ?_)
      rintro rfl
      exact nomatch hk.symm.trans hnode
    | some node =>
      rw [stateAt_succ hk]
      by_cases hwrite : ∃ value, node = .write lcl value
      · obtain ⟨value, rfl⟩ := hwrite
        rw [LocalState.locals_after_write.1]
        rfl
      · rw [LocalState.locals_after (not_exists.1 hwrite)]
        refine ih (lt_of_le_of_ne (Nat.lt_succ_iff.1 hlt) ?_)
        rintro rfl
        exact hwrite ⟨value, Option.some.inj (hk.symm.trans hnode)⟩

/-- The register of the variable that a node writes. -/
theorem localRegs_write {lcl value : ℕ} (hnode : b.nodes[k]? = some (.write lcl value)) :
    ∃ j value', b.nodes[j]? = some (.write lcl value') ∧
      ((b.stateAt k).allocateLocal lcl).localRegs lcl = [⟨(b.stateAt j).next, actionType⟩] ∧
        (b.stateAt j).next < (b.stateAt (j + 1)).next := by
  obtain ⟨rs, hrs⟩ :=
    Option.isSome_iff_exists.1 (isSome_locals_stateAt hnode (Nat.lt_succ_self k))
  obtain ⟨j, value', -, hj, rfl, hlt⟩ := locals_stateAt hrs
  rw [stateAt_succ hnode] at hrs
  exact ⟨j, value', hj, congrArg (Option.getD · []) hrs, hlt⟩

/-- What a node is accepted for. -/
theorem accepted_iff :
    b.Accepted ↔ ∀ k node, b.nodes[k]? = some node → (b.stateAt k).Accepts b.vars node := by
  constructor
  · intro h k node hnode
    cases node with
    | value port type => trivial
    | write lcl value =>
      obtain ⟨j, node, type, hlt, hj, hport, hwidth⟩ := h.write k lcl value hnode
      obtain ⟨i, value', -, hregs, -⟩ := localRegs_write hnode
      rw [LocalState.Accepts, ports_stateAt hj hport hlt, hregs]
      exact length_sequence_eq_one.2 hwidth
    | read port lcl =>
      obtain ⟨hwidth, j, value, hlt, hj⟩ := h.read k port lcl hnode
      obtain ⟨rs, hrs⟩ := Option.isSome_iff_exists.1 (isSome_locals_stateAt hj hlt)
      obtain ⟨i, value', -, -, rfl, -⟩ := locals_stateAt hrs
      rw [LocalState.Accepts, LocalState.localRegs, hrs]
      exact (length_sequence_eq_one.2 hwidth).symm
  · refine fun h => ⟨fun k lcl value hnode => ?_, fun k port lcl hnode => ?_⟩
    · have haccepts := h k _ hnode
      obtain ⟨i, value', -, hregs, -⟩ := localRegs_write hnode
      rw [LocalState.Accepts, hregs] at haccepts
      obtain ⟨j, node, type, hlt, hj, hport⟩ := exists_of_ports
        (List.ne_nil_of_length_eq_add_one haccepts)
      rw [ports_stateAt hj hport hlt] at haccepts
      exact ⟨j, node, type, hlt, hj, hport, length_sequence_eq_one.1 haccepts⟩
    · have haccepts := h k _ hnode
      rw [LocalState.Accepts, LocalState.localRegs] at haccepts
      cases hrs : (b.stateAt k).locals lcl with
      | none =>
        rw [hrs] at haccepts
        exact absurd haccepts length_sequence_pos.ne
      | some rs =>
        obtain ⟨j, value, hlt, hj, rfl, -⟩ := locals_stateAt hrs
        rw [hrs] at haccepts
        exact ⟨length_sequence_eq_one.1 haccepts.symm, j, value, hlt, hj⟩

/-! ## Runs -/

/-- The code of a node. -/
theorem code_of_lowerNodes {code : List LoweredNode}
    (h : lowerNodes b.vars b.nodes .init = .ok code) (hnode : b.nodes[k]? = some node) :
    code[k]? = some ((b.stateAt k).lowered b.vars node) :=
  (lowerNodes_eq_ok h hnode).2

theorem accepted_of_lowerNodes {code : List LoweredNode}
    (h : lowerNodes b.vars b.nodes .init = .ok code) : b.Accepted :=
  accepted_iff.2 fun _ _ hnode => (lowerNodes_eq_ok h hnode).1

/-- The copies of a `write_local` do nothing. -/
theorem run_selfCopies (assigned : ℕ → ℕ) (rs : List RegisterOperand) (s : State) :
    run assigned (rs.map fun r => .mov r (.reg r)) s = .ok s := by
  induction rs with
  | nil => rfl
  | cons r rs ih =>
    have hset : s.set r (s.regs r.index) = s := by
      unfold State.set
      rw [BitVec.setWidth_eq, Function.update_eq_self]
    rw [List.map_cons, run, exec, movReg, if_pos rfl, if_pos rfl, hset]
    exact ih

theorem exec_write (assigned : ℕ → ℕ) (st : LocalState) (lcl value : ℕ) (values : ℕ → BitVec 64)
    (c : LocalConfig) :
    (st.lowered b.vars (.write lcl value)).exec assigned values c =
      .ok ⟨c.state, Function.update c.last lcl (some (bitAt (st.ports value) c.state))⟩ := by
  rw [LoweredNode.exec, LocalState.lowered]
  simp only [run_selfCopies]
  rfl

/-- Without a `read_local` nothing can go wrong. -/
theorem follows_of_forall_ne_read {assigned : ℕ → ℕ} {code : List LoweredNode}
    (hcode : lowerNodes b.vars b.nodes .init = .ok code) :
    ∀ {path : List ℕ} {values : ℕ → ℕ → BitVec 64} {c : LocalConfig},
      (∀ k ∈ path, ∃ node, b.nodes[k]? = some node ∧ ∀ port lcl, node ≠ .read port lcl) →
      Follows assigned b.vars code path values c
  | [], _, _, _ => trivial
  | k :: path, values, c, h => by
    obtain ⟨node, hnode, hread⟩ := h k List.mem_cons_self
    have hrest := fun k' hk' => h k' (List.mem_cons_of_mem k hk')
    cases node with
    | value port type =>
      exact ⟨_, _, code_of_lowerNodes hcode hnode, rfl, trivial,
        follows_of_forall_ne_read hcode hrest⟩
    | write lcl value =>
      exact ⟨_, _, code_of_lowerNodes hcode hnode, exec_write .., trivial,
        follows_of_forall_ne_read hcode hrest⟩
    | read port lcl => exact absurd rfl (hread port lcl)

/-- A register of a node that has a value. -/
def IsValueReg (b : LocalBlock) (n : ℕ) : Prop :=
  ∃ j port type, b.nodes[j]? = some (.value port type) ∧ b.IsPortReg j n

theorem not_isValueReg {n : ℕ} (hnode : b.nodes[k]? = some node)
    (hvalue : ∀ port type, node ≠ .value port type)
    (hn : (b.stateAt k).next ≤ n ∧ n < (b.stateAt (k + 1)).next) : ¬b.IsValueReg n := by
  rintro ⟨j, port, type, hj, hreg⟩
  obtain rfl := eq_of_bounds hreg.bounds hn
  exact hvalue port type (Option.some.inj (hnode.symm.trans hj))

/-- The registers when the other nodes have computed ones and no `read_local` has been executed. -/
structure Unread (b : LocalBlock) (before : List ℕ) (c : LocalConfig) : Prop where
  values : ∀ j ∈ before, ∀ n, b.IsPortReg j n → c.state.regs n = 1
  others : ∀ n, ¬b.IsValueReg n → c.state.regs n = 0
  last : ∀ lcl bits, c.last lcl = some bits → bits 0 = some true
  written : ∀ j ∈ before, ∀ lcl value, b.nodes[j]? = some (.write lcl value) →
    (c.last lcl).isSome

theorem Unread.value {before : List ℕ} {c : LocalConfig} (h : b.Unread before c) {port : ℕ}
    {type : ValueType} (hnode : b.nodes[k]? = some (.value port type)) :
    b.Unread (before ++ [k]) { c with
      state := { c.state with
        regs := fun n => if n ∈ ((b.stateAt k).allocated type).map RegisterOperand.index then 1
          else c.state.regs n } } where
  values := by
    intro j hj n hreg
    show ite _ _ _ = (1 : BitVec 64)
    split_ifs with hn
    · rfl
    · rcases List.mem_append.1 hj with hj | hj
      · exact h.values j hj n hreg
      · obtain rfl := List.mem_singleton.1 hj
        obtain ⟨node, port', type', hnode', hport, hmem⟩ := hreg
        obtain rfl := Option.some.inj (hnode.symm.trans hnode')
        obtain ⟨rfl, rfl⟩ := Prod.mk.inj (Option.some.inj hport)
        exact absurd hmem hn
  others := by
    intro n hn
    show ite _ _ _ = (0 : BitVec 64)
    split_ifs with hmem
    · exact absurd ⟨k, port, type, hnode, _, port, type, hnode, rfl, hmem⟩ hn
    · exact h.others n hn
  last := h.last
  written := by
    intro j hj lcl value hwrite
    rcases List.mem_append.1 hj with hj | hj
    · exact h.written j hj lcl value hwrite
    · obtain rfl := List.mem_singleton.1 hj
      exact nomatch hnode.symm.trans hwrite

theorem Unread.write {before : List ℕ} {c : LocalConfig} (h : b.Unread before c)
    (haccepted : b.Accepted) {lcl value : ℕ} (hnode : b.nodes[k]? = some (.write lcl value))
    (henabled : b.Enabled before k) :
    b.Unread (before ++ [k])
      ⟨c.state, Function.update c.last lcl (some (bitAt ((b.stateAt k).ports value) c.state))⟩ where
  values := by
    intro j hj n hreg
    rcases List.mem_append.1 hj with hj | hj
    · exact h.values j hj n hreg
    · obtain rfl := List.mem_singleton.1 hj
      obtain ⟨node, port, type, hnode', hport, -⟩ := hreg
      obtain rfl := Option.some.inj (hnode.symm.trans hnode')
      exact nomatch hport
  others := h.others
  last := by
    intro lcl' bits hbits
    change Function.update c.last lcl _ lcl' = some bits at hbits
    rcases eq_or_ne lcl' lcl with rfl | hne
    · rw [Function.update_self] at hbits
      obtain rfl := Option.some.inj hbits
      rw [Enabled, hnode] at henabled
      obtain ⟨j, hj, node, type, hdef, hport⟩ := henabled
      obtain ⟨j', node', type', hlt, hdef', hport', -⟩ := haccepted.write k _ _ hnode
      obtain rfl := eq_of_port hdef hport hdef' hport'
      have hreg : b.IsPortReg j (b.stateAt j).next :=
        ⟨node, value, type, hdef, hport,
          List.mem_map.2 ⟨_, List.mem_of_getElem? getElem?_sequence_zero, rfl⟩⟩
      rw [ports_stateAt hdef hport hlt, bitAt, getElem?_sequence_zero, Option.map_some,
        h.values j hj _ hreg]
      rfl
    · rw [Function.update_of_ne hne] at hbits
      exact h.last lcl' bits hbits
  written := by
    intro j hj lcl' value' hwrite
    rcases eq_or_ne lcl' lcl with rfl | hne
    · show (Function.update c.last lcl' _ lcl').isSome
      rw [Function.update_self]
      rfl
    · show (Function.update c.last lcl _ lcl').isSome
      rw [Function.update_of_ne hne]
      rcases List.mem_append.1 hj with hj | hj
      · exact h.written j hj lcl' value' hwrite
      · obtain rfl := List.mem_singleton.1 hj
        exact absurd (LocalNode.write.inj (Option.some.inj (hwrite.symm.trans hnode))).1 hne

/-- A copy from a register with zero to one with zero. -/
theorem regs_movReg_of_zero {assigned : ℕ → ℕ} {dst src : RegisterOperand} {s s' : State}
    (h : movReg assigned dst src s = .ok s') (hsrc : s.regs src.index = 0)
    (hdst : s.regs dst.index = 0) : s'.regs dst.index = 0 := by
  unfold movReg at h
  split_ifs at h
  · obtain rfl := Except.ok.inj h
    rw [State.regs_set_self, hsrc]
    rfl
  · obtain rfl := Except.ok.inj h
    exact hdst
  · obtain ⟨n, -, h⟩ := bind_eq_ok.1 h
    obtain rfl := pure_eq_ok.1 h
    rw [State.regs_set_self, State.get, hsrc]
    exact (congrArg _ (BitVec.setWidth_zero ..)).trans (BitVec.setWidth_zero ..)

/-- The first `read_local` finds a zero where a one has been written. -/
theorem Unread.not_yields {assigned : ℕ → ℕ} {before : List ℕ} {c c' : LocalConfig}
    (h : b.Unread before c) (haccepted : b.Accepted) {port lcl : ℕ}
    (hnode : b.nodes[k]? = some (.read port lcl)) (henabled : b.Enabled before k)
    {values : ℕ → BitVec 64}
    (hexec : ((b.stateAt k).lowered b.vars (.read port lcl)).exec assigned values c = .ok c') :
    ¬((b.stateAt k).lowered b.vars (.read port lcl)).Yields b.vars c c' := by
  intro hyields
  obtain ⟨hwidth, i, value, hlt, hi⟩ := haccepted.read k port lcl hnode
  obtain ⟨rs, hrs⟩ := Option.isSome_iff_exists.1 (isSome_locals_stateAt hi hlt)
  obtain ⟨j, value', -, hj, rfl, hbounds⟩ := locals_stateAt hrs
  obtain ⟨dest, hdest⟩ : ∃ dest, sequence (b.stateAt k).next (b.vars lcl) = [dest] :=
    List.length_eq_one_iff.1 (length_sequence_eq_one.2 hwidth)
  have hregs : (b.stateAt k).allocated (b.vars lcl) = [dest] := hdest
  have hzeroth : (sequence (b.stateAt k).next (b.vars lcl))[0]? = some dest := by rw [hdest]; rfl
  -- neither register is one of a node that has a value
  have hdestReg : b.IsPortReg k dest.index :=
    ⟨_, port, b.vars lcl, hnode, rfl, List.mem_map.2 ⟨dest, List.mem_of_getElem? hzeroth, rfl⟩⟩
  have hdestZero : c.state.regs dest.index = 0 :=
    h.others _ (not_isValueReg hnode nofun hdestReg.bounds)
  have hlocalZero : c.state.regs (b.stateAt j).next = 0 :=
    h.others _ (not_isValueReg hj nofun ⟨le_rfl, hbounds⟩)
  have hlocals : (b.stateAt k).localRegs lcl = [⟨(b.stateAt j).next, actionType⟩] :=
    congrArg (Option.getD · []) hrs
  rw [LocalState.lowered, hregs, hlocals] at hexec hyields
  obtain ⟨s', hrun, hc'⟩ := bind_eq_ok.1 hexec
  obtain rfl := pure_eq_ok.1 hc'
  obtain ⟨s₁, hmov, hs₁⟩ := bind_eq_ok.1 hrun
  obtain rfl := Except.ok.inj hs₁
  have hzero : s₁.regs dest.index = 0 := regs_movReg_of_zero hmov hlocalZero hdestZero
  rw [Enabled, hnode] at henabled
  obtain ⟨i', hi', value₁, hwrite⟩ := henabled
  obtain ⟨bits, hbits⟩ := Option.isSome_iff_exists.1 (h.written i' hi' lcl value₁ hwrite)
  have hbit := (hyields bits hbits 0 (b.pos lcl)).trans (h.last lcl bits hbits)
  have hfalse : bitAt [dest] s₁ 0 = some false := by
    unfold bitAt
    rw [List.getElem?_cons_zero, Option.map_some, hzero]
    rfl
  exact nomatch hfalse.symm.trans hbit

/-- A run that is right executes no `read_local`. -/
theorem LocalsRight.ne_read {assigned : ℕ → ℕ} {r : b.Run} (h : b.LocalsRight assigned r) :
    ∀ k ∈ r.path, ∀ port lcl, b.nodes[k]? ≠ some (.read port lcl) := by
  obtain ⟨code, hcode, hfollows⟩ := h
  have haccepted := accepted_of_lowerNodes hcode
  have hrest : ∀ (path before : List ℕ) (c : LocalConfig), r.path = before ++ path →
      b.Unread before c → Follows assigned b.vars code path (fun _ _ => 1) c →
        ∀ k ∈ path, ∀ port lcl, b.nodes[k]? ≠ some (.read port lcl) := by
    intro path
    induction path with
    | nil => exact fun _ _ _ _ _ k hk => nomatch hk
    | cons k path ih =>
      rintro before c hpath hunread ⟨l, c', hl, hexec, hyields, hfollows⟩
      have henabled := r.enabled before k path hpath
      have hpath' : r.path = (before ++ [k]) ++ path := by rw [hpath, List.append_assoc]; rfl
      cases hnode : b.nodes[k]? with
      | none =>
        rw [Enabled, hnode] at henabled
        exact henabled.elim
      | some node =>
        obtain rfl := Option.some.inj (hl.symm.trans (code_of_lowerNodes hcode hnode))
        cases node with
        | value port type =>
          obtain rfl := Except.ok.inj hexec
          exact List.forall_mem_cons.2 ⟨fun _ _ => hnode ▸ nofun,
            ih _ _ hpath' (hunread.value hnode) hfollows⟩
        | write lcl value =>
          obtain rfl := Except.ok.inj ((exec_write ..).symm.trans hexec)
          exact List.forall_mem_cons.2 ⟨fun _ _ => hnode ▸ nofun,
            ih _ _ hpath' (hunread.write haccepted hnode henabled) hfollows⟩
        | read port lcl =>
          exact absurd hyields (hunread.not_yields haccepted hnode henabled hexec)
  let s₀ : State := ⟨fun _ => 0, ⟨false, false, false, false⟩, fun _ => 0⟩
  exact hrest r.path [] ⟨s₀, fun _ => none⟩ rfl
    ⟨fun _ hj => absurd hj List.not_mem_nil, fun _ _ => rfl, fun _ _ hbits => (nomatch hbits),
      fun _ hj => absurd hj List.not_mem_nil⟩
    (hfollows s₀ fun _ _ => 1)

/-- A run is right exactly if the block is accepted and no `read_local` is executed. -/
theorem locals_right_iff (assigned : ℕ → ℕ) (r : b.Run) :
    b.LocalsRight assigned r ↔
      b.Accepted ∧ ∀ k ∈ r.path, ∀ port lcl, b.nodes[k]? ≠ some (.read port lcl) := by
  constructor
  · intro h
    obtain ⟨code, hcode, -⟩ := id h
    exact ⟨accepted_of_lowerNodes hcode, h.ne_read⟩
  · rintro ⟨haccepted, hread⟩
    obtain ⟨code, hcode⟩ := exists_lowerNodes (accepted_iff.1 haccepted)
    refine ⟨code, hcode, fun s values => follows_of_forall_ne_read hcode fun k hk => ?_⟩
    obtain ⟨before, rest, hpath⟩ := List.append_of_mem hk
    have henabled := r.enabled before k rest hpath
    cases hnode : b.nodes[k]? with
    | none =>
      rw [Enabled, hnode] at henabled
      exact henabled.elim
    | some node => exact ⟨node, rfl, fun port lcl heq => hread k hk port lcl (heq ▸ hnode)⟩

/-- A variable of 64 bits is written and read. -/
def writeThenRead : LocalBlock where
  vars := fun _ => .u 64
  nodes := [.value 0 (.u 64), .write 0 0, .read 1 0]
  pos := fun _ => by decide
  once := by
    simp only [LocalNode.port, List.pairwise_cons, List.forall_mem_cons, Option.some.injEq,
      Prod.mk.injEq, ne_eq]
    grind

/-- The nodes one after the other. -/
def writeThenReadRun : writeThenRead.Run where
  path := [0, 1, 2]
  enabled := by
    intro before k rest h
    match before, h with
    | [], h =>
      obtain ⟨rfl, -⟩ : 0 = k ∧ _ := List.cons.inj h
      trivial
    | [_], h =>
      obtain ⟨rfl, rfl, -⟩ : 0 = _ ∧ 1 = k ∧ [2] = rest := by simpa using h
      exact ⟨0, List.mem_cons_self, _, _, rfl, rfl⟩
    | [_, _], h =>
      obtain ⟨rfl, rfl, rfl, -⟩ : 0 = _ ∧ 1 = _ ∧ 2 = k ∧ [] = rest := by simpa using h
      exact ⟨1, List.mem_cons_of_mem 0 List.mem_cons_self, 0, rfl⟩
    | _ :: _ :: _ :: before, h => simp at h

/-- The value that is written is not the one that is read. -/
theorem not_writeThenRead_right : ¬writeThenRead.LocalsRight id writeThenReadRun :=
  fun h => h.ne_read 2 (by decide) 1 0 rfl

end LocalBlock

end Arancini.Arm64
