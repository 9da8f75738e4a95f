import Arancini.X86.FirstUse

/-!
# Packets without branches

The packet of an instruction without branches is values and actions in turn. `Gives` is what a value
comes to when it is evaluated in one guest, and `Block` says that a builder inserts values only and
what the last of them gives. A block is evaluated at the action that follows it
(`Gives.port_eq`), so what is inserted after an action sees what the action did.
-/

namespace Arancini.X86

open Ir

/-! ## What an action uses -/

section Uses

variable {nodes : List Node} {node : Node} {m : NodeId}

theorem mem_needs_of_mem (hnode : nodes[m]? = some node) (hval : node.isAction = false) :
    ∀ {n : NodeId} {needed : List NodeId}, m < n → m ∈ needed → m ∈ needs nodes n needed
  | n + 1, needed, hlt, hm => by
    rcases Nat.lt_succ_iff_lt_or_eq.1 hlt with hlt | rfl
    · unfold needs
      split
      · split
        · exact List.mem_append_left _
            (mem_needs_of_mem hnode hval hlt (List.mem_append_right _ hm))
        · exact mem_needs_of_mem hnode hval hlt hm
      · exact mem_needs_of_mem hnode hval hlt hm
    · simp [needs, hnode, hval, hm]

theorem mem_needs_of_operand {user : Node} {k : NodeId} {o : Port} (huser : nodes[k]? = some user)
    (ho : o ∈ user.operands) (hlt : o.owner < k) (hnode : nodes[o.owner]? = some node)
    (hval : node.isAction = false) :
    ∀ {n : NodeId} {needed : List NodeId}, k ∈ needs nodes n needed →
      o.owner ∈ needs nodes n needed
  | n + 1, needed, hk => by
    unfold needs at hk ⊢
    split at hk
    · next node' hnode' =>
      by_cases hcond : n ∈ needed ∧ !node'.isAction
      · rw [if_pos hcond] at hk ⊢
        rcases List.mem_append.1 hk with hk | hk
        · exact List.mem_append_left _ (mem_needs_of_operand huser ho hlt hnode hval hk)
        · obtain rfl := List.mem_singleton.1 hk
          obtain rfl := Option.some.inj (huser.symm.trans hnode')
          refine List.mem_append_left _ (mem_needs_of_mem hnode hval hlt ?_)
          exact List.mem_append_left _ (List.mem_map_of_mem ho)
      · rw [if_neg hcond] at hk ⊢
        exact mem_needs_of_operand huser ho hlt hnode hval hk
    · exact mem_needs_of_operand huser ho hlt hnode hval hk

/-- The node of the port is evaluated for the action at `n`, if it is a value. -/
def IsUsed (nodes : List Node) (n : NodeId) (o : Port) : Prop :=
  ∀ node, nodes[o.owner]? = some node → node.isAction = false → o.owner ∈ uses nodes n

variable {p : Packet} {n : NodeId} {o : Port}

theorem isUsed_of_operand (hn : p.nodes[n]? = some node) (ho : o ∈ node.operands) :
    IsUsed p.nodes n o := by
  intro node' hnode' hval
  rw [uses, hn]
  exact mem_needs_of_mem hnode' hval (p.operand_lt n node hn o ho) (List.mem_map_of_mem ho)

theorem isUsed_of_uses {k : NodeId} (hk : k ∈ uses p.nodes n) (huser : p.nodes[k]? = some node)
    (ho : o ∈ node.operands) : IsUsed p.nodes n o := by
  intro node' hnode' hval
  unfold uses at hk ⊢
  split at hk
  · exact mem_needs_of_operand huser ho (p.operand_lt k node huser o ho) hnode' hval hk
  · exact nomatch hk

theorem lt_of_mem_uses {nodes : List Node} (h : m ∈ uses nodes n) : m < n := by
  unfold uses at h
  split at h
  · exact lt_of_mem_needs h
  · exact nomatch h

end Uses

/-! ## Values -/

/-- The value that a port comes to in the guest `g`, with nodes from `lo` on. The ports of `known`
have a value already. -/
inductive Gives (address : ℕ) (nodes : List Node) (known : Port → ℕ → Prop) (g : Guest) (lo : ℕ) :
    Port → ℕ → Prop
  | known {o : Port} {v : ℕ} : known o v → Gives address nodes known g lo o v
  | constant {o : Port} {vt : ValueType} {v : ℕ} : lo ≤ o.owner →
      nodes[o.owner]? = some (.constant vt v) → Gives address nodes known g lo o v
  | readPc {o : Port} : lo ≤ o.owner → nodes[o.owner]? = some .readPc →
      Gives address nodes known g lo o address
  | readReg {o : Port} {w idx : ℕ} {r : Reg} {name : String} : lo ≤ o.owner →
      nodes[o.owner]? = some (.readReg (.u w) r.offset idx name) →
        Gives address nodes known g lo o (g.get w r).toNat
  | readMem {o a : Port} {vt : ValueType} {x : ℕ} : lo ≤ o.owner →
      nodes[o.owner]? = some (.readMem vt a) → Gives address nodes known g lo a x →
        Gives address nodes known g lo o (Guest.load g.mem x (vt.width / 8))
  | binaryArith {o a b : Port} {op : BinaryArithOp} {w u v : ℕ} : lo ≤ o.owner →
      nodes[o.owner]? = some (.binaryArith op a b) → a.type = .u w →
        Gives address nodes known g lo a u → Gives address nodes known g lo b v →
          Gives address nodes known g lo o
            ((integerNode .unsigned op (BitVec.ofNat w u) (BitVec.ofNat w v)).result o.kind)
  | lsl {o a b : Port} {w u v : ℕ} : lo ≤ o.owner →
      nodes[o.owner]? = some (.bitShift .lsl a b) → a.type = .u w →
        Gives address nodes known g lo a u → Gives address nodes known g lo b v →
          Gives address nodes known g lo o
            ((OpNode.bitShift .lsl (BitVec.ofNat w u) v).result o.kind)

section Gives

variable {address lo n : ℕ} {nodes nodes' : List Node} {known : Port → ℕ → Prop} {g : Guest}
  {l : ℕ → ℕ} {env : Env} {o : Port} {v : ℕ}

theorem getElem?_of_extends (h : nodes <+: nodes') {m : ℕ} {node : Node}
    (hm : nodes[m]? = some node) : nodes'[m]? = some node := by
  obtain ⟨rest, rfl⟩ := h
  rw [List.getElem?_append_left (List.getElem?_eq_some_iff.1 hm).1, hm]

theorem Gives.mono {lo' : ℕ} (h : Gives address nodes known g lo o v) (hpre : nodes <+: nodes')
    (hlo : lo' ≤ lo) : Gives address nodes' known g lo' o v := by
  induction h with
  | known h => exact .known h
  | constant hle hnode => exact .constant (hlo.trans hle) (getElem?_of_extends hpre hnode)
  | readPc hle hnode => exact .readPc (hlo.trans hle) (getElem?_of_extends hpre hnode)
  | readReg hle hnode => exact .readReg (hlo.trans hle) (getElem?_of_extends hpre hnode)
  | readMem hle hnode _ ih => exact .readMem (hlo.trans hle) (getElem?_of_extends hpre hnode) ih
  | binaryArith hle hnode hw _ _ iha ihb =>
    exact .binaryArith (hlo.trans hle) (getElem?_of_extends hpre hnode) hw iha ihb
  | lsl hle hnode hw _ _ iha ihb =>
    exact .lsl (hlo.trans hle) (getElem?_of_extends hpre hnode) hw iha ihb

end Gives

section Agrees

variable {p : Packet} {g : Guest} {l : ℕ → ℕ} {env : Env} {o a b : Port}

theorem Agrees.lsl (h : Agrees intOps p g l env o.owner)
    (hnode : p.nodes[o.owner]? = some (.bitShift .lsl a b)) {w : ℕ} (hw : a.type = .u w) {u v : ℕ}
    (ha : env.port a = some u) (hb : env.port b = some v) :
    env.port o = some ((OpNode.bitShift .lsl (BitVec.ofNat w u) v).result o.kind) := by
  have hwidth : a.type.width = w := by rw [hw, ValueType.width_u]
  subst hwidth
  rw [h.port hnode]
  simp [evalNode, Node.operands, ha, hb, intOps]

/-- At an action the port has what it comes to now, as its nodes come after the actions before. -/
theorem Gives.port_eq {known : Port → ℕ → Prop} {lo n v : ℕ}
    (h : Gives p.address p.nodes known g lo o v) (hk : KnowsAll intOps p env)
    (hknown : ∀ o v, known o v → (atAction intOps p n g l env).port o = some v)
    (hlo : ∀ a ∈ p.actions, a < n → a ≤ lo) (huse : IsUsed p.nodes n o) :
    (atAction intOps p n g l env).port o = some v := by
  have hagrees : ∀ m, lo ≤ m → m ∈ uses p.nodes n →
      Agrees intOps p g l (atAction intOps p n g l env) m := by
    intro m hm hmem
    refine agrees_atAction hk hmem fun a ha han hused => ?_
    exact absurd (lt_of_mem_uses hused) (((hlo a ha han).trans hm).not_gt)
  induction h with
  | known h => exact hknown _ _ h
  | constant hle hnode => exact (hagrees _ hle (huse _ hnode rfl)).constant hnode
  | readPc hle hnode => exact (hagrees _ hle (huse _ hnode rfl)).readPc hnode
  | readReg hle hnode => exact (hagrees _ hle (huse _ hnode rfl)).readReg hnode
  | readMem hle hnode _ ih =>
    have hused := huse _ hnode rfl
    have ha := ih (isUsed_of_uses hused hnode (List.mem_singleton_self _))
    exact (hagrees _ hle hused).readMem hnode ha
  | binaryArith hle hnode hw _ _ iha ihb =>
    have hused := huse _ hnode rfl
    have ha := iha (isUsed_of_uses hused hnode (by simp [Node.operands]))
    have hb := ihb (isUsed_of_uses hused hnode (by simp [Node.operands]))
    exact (hagrees _ hle hused).binaryArith_nat hnode hw ha hb
  | lsl hle hnode hw _ _ iha ihb =>
    have hused := huse _ hnode rfl
    have ha := iha (isUsed_of_uses hused hnode (by simp [Node.operands]))
    have hb := ihb (isUsed_of_uses hused hnode (by simp [Node.operands]))
    exact (hagrees _ hle hused).lsl hnode hw ha hb

end Agrees

/-! ## Inserting values -/

/-- Values only have been inserted, and each after its operands. -/
structure Grown (nodes nodes' : List Node) : Prop where
  isPrefix : nodes <+: nodes'
  values : ∀ m node, nodes.length ≤ m → nodes'[m]? = some node → node.isAction = false
  ordered : wellFormed nodes → wellFormed nodes'

/-- The nodes after `nodes` are values, and the one that was given comes to `v`. -/
structure Block (address : ℕ) (known : Port → ℕ → Prop) (g : Guest) (nodes : List Node)
    (vt : ValueType) (v : ℕ) (r : Port × List Node) : Prop where
  grown : Grown nodes r.2
  owner : r.1.owner < r.2.length
  type : r.1.type = vt
  gives : Gives address r.2 known g nodes.length r.1 v

theorem wellFormed_append {nodes : List Node} (h : wellFormed nodes) {node : Node}
    (hops : ∀ o ∈ node.operands, o.owner < nodes.length) : wellFormed (nodes ++ [node]) := by
  rw [wellFormed, List.zipIdx_append, List.all_append, Bool.and_eq_true]
  exact ⟨h, by simpa using hops⟩

section Grown

variable {nodes nodes' nodes'' : List Node}

theorem Grown.refl (nodes : List Node) : Grown nodes nodes where
  isPrefix := List.prefix_rfl
  values m node hm hnode := absurd (List.getElem?_eq_some_iff.1 hnode).1 hm.not_gt
  ordered h := h

theorem Grown.insert (h : Grown nodes nodes') {node : Node} (hval : node.isAction = false)
    (hops : ∀ o ∈ node.operands, o.owner < nodes'.length) : Grown nodes (nodes' ++ [node]) where
  isPrefix := h.isPrefix.trans (List.prefix_append _ _)
  values m node' hm hnode' := by
    rcases Nat.lt_or_ge m nodes'.length with hlt | hge
    · rw [List.getElem?_append_left hlt] at hnode'
      exact h.values m node' hm hnode'
    · rw [List.getElem?_append_right hge, List.getElem?_singleton] at hnode'
      split at hnode'
      · exact Option.some.inj hnode' ▸ hval
      · exact nomatch hnode'
  ordered hw := wellFormed_append (h.ordered hw) hops

theorem Grown.trans (h : Grown nodes nodes') (h' : Grown nodes' nodes'') : Grown nodes nodes'' where
  isPrefix := h.isPrefix.trans h'.isPrefix
  values m node hm hnode := by
    rcases Nat.lt_or_ge m nodes'.length with hlt | hge
    · obtain ⟨rest, rfl⟩ := h'.isPrefix
      rw [List.getElem?_append_left hlt] at hnode
      exact h.values m node hm hnode
    · exact h'.values m node hge hnode
  ordered hw := h'.ordered (h.ordered hw)

end Grown

theorem ofNat_toNat_self {w : ℕ} (x : BitVec w) : BitVec.ofNat w x.toNat = x := by
  rw [BitVec.ofNat_toNat, BitVec.setWidth_eq]

namespace Block

variable {address : ℕ} {known : Port → ℕ → Prop} {g : Guest} {nodes mid : List Node}
  {vt : ValueType} {v : ℕ} {r r₁ r₂ : Port × List Node}

/-- Insert a value without operands. -/
theorem leaf {node : Node} (h : Grown nodes mid) (hval : node.isAction = false)
    (hops : node.operands = [])
    (hgives : nodes.length ≤ mid.length → (mid ++ [node])[mid.length]? = some node →
      Gives address (mid ++ [node]) known g nodes.length ⟨.value, vt, mid.length⟩ v) :
    Block address known g nodes vt v (Builder.insert vt node mid) where
  grown := h.insert hval (by simp [hops])
  owner := by simp [Builder.insert]
  type := rfl
  gives := hgives h.isPrefix.length_le List.getElem?_concat_length

theorem const (h : Grown nodes mid) (vt : ValueType) (v : ℕ) :
    Block address known g nodes vt v (Builder.const vt v mid) :=
  leaf h rfl rfl fun hle hnode => .constant hle hnode

theorem readReg (h : Grown nodes mid) (w : ℕ) (r : Reg) (name : String) :
    Block address known g nodes (.u w) (g.get w r).toNat (Builder.readReg (.u w) r name mid) :=
  leaf h rfl rfl fun hle hnode => .readReg hle hnode

theorem of_known {o : Port} (h : known o v) (ho : o.owner < nodes.length) :
    Block address known g nodes o.type v (o, nodes) where
  grown := .refl nodes
  owner := ho
  type := rfl
  gives := .known h

theorem readMem (h : Block address known g nodes vt v r) (vt' : ValueType) :
    Block address known g nodes vt' (Guest.load g.mem v (vt'.width / 8))
      (Builder.readMem vt' r.1 r.2) where
  grown := h.grown.insert rfl (by simpa [Node.operands] using h.owner)
  owner := by simp [Builder.readMem, Builder.insert]
  type := rfl
  gives := .readMem h.grown.isPrefix.length_le List.getElem?_concat_length
    (h.gives.mono (List.prefix_append _ _) le_rfl)

/-- More values come after it. -/
theorem later (h : Block address known g nodes vt v r) (hmid : Grown r.2 mid) :
    Block address known g nodes vt v (r.1, mid) where
  grown := h.grown.trans hmid
  owner := h.owner.trans_le hmid.isPrefix.length_le
  type := h.type
  gives := h.gives.mono hmid.isPrefix le_rfl

/-- The same from an earlier place on. -/
theorem since (h : Block address known g mid vt v r) (hmid : Grown nodes mid) :
    Block address known g nodes vt v r where
  grown := hmid.trans h.grown
  owner := h.owner
  type := h.type
  gives := h.gives.mono List.prefix_rfl hmid.isPrefix.length_le

section Binary

variable {w u u' : ℕ} {vt' : ValueType} {a b : Port}

theorem binop (h₁ : Block address known g nodes (.u w) u (a, mid))
    (h₂ : Block address known g nodes vt' u' (b, mid)) (op : BinaryArithOp) :
    Block address known g nodes (.u w)
      ((integerNode .unsigned op (BitVec.ofNat w u) (BitVec.ofNat w u')).result .value)
      (Builder.binop op a b mid) where
  grown := h₂.grown.insert rfl (by simpa [Node.operands] using ⟨h₁.owner, h₂.owner⟩)
  owner := by simp [Builder.binop, Builder.insert]
  type := h₁.type
  gives := .binaryArith h₂.grown.isPrefix.length_le List.getElem?_concat_length h₁.type
    (h₁.gives.mono (List.prefix_append _ _) le_rfl) (h₂.gives.mono (List.prefix_append _ _) le_rfl)

theorem lsl (h₁ : Block address known g nodes (.u w) u r₁)
    (h₂ : Block address known g r₁.2 vt' u' r₂) :
    Block address known g nodes (.u w) (BitVec.ofNat w u <<< u').toNat
      (Builder.lsl r₁.1 r₂.1 r₂.2) where
  grown := (h₁.grown.trans h₂.grown).insert rfl (by
    simpa [Node.operands] using ⟨(h₁.later h₂.grown).owner, h₂.owner⟩)
  owner := by simp [Builder.lsl, Builder.insert]
  type := h₁.type
  gives := .lsl (h₁.grown.trans h₂.grown).isPrefix.length_le List.getElem?_concat_length h₁.type
    ((h₁.later h₂.grown).gives.mono (List.prefix_append _ _) le_rfl)
    ((h₂.since h₁.grown).gives.mono (List.prefix_append _ _) le_rfl)

theorem add {x y : BitVec w} (h₁ : Block address known g nodes (.u w) u r₁)
    (h₂ : Block address known g r₁.2 vt' u' r₂) (hx : BitVec.ofNat w u = x)
    (hy : BitVec.ofNat w u' = y) :
    Block address known g nodes (.u w) (x + y).toNat (Builder.binop .add r₁.1 r₂.1 r₂.2) := by
  subst hx hy
  exact (h₁.later h₂.grown).binop (h₂.since h₁.grown) .add

theorem sub {x y : BitVec w} (h₁ : Block address known g nodes (.u w) u r₁)
    (h₂ : Block address known g r₁.2 vt' u' r₂) (hx : BitVec.ofNat w u = x)
    (hy : BitVec.ofNat w u' = y) :
    Block address known g nodes (.u w) (x - y).toNat (Builder.binop .sub r₁.1 r₂.1 r₂.2) := by
  subst hx hy
  exact (h₁.later h₂.grown).binop (h₂.since h₁.grown) .sub

end Binary

end Block

/-! ## Runs -/

section Run

variable {address : ℕ} {nodes start mid : List Node} {h : wellFormed nodes} {node : Node}
  {known : Port → ℕ → Prop} {g g' : Guest} {l : ℕ → ℕ} {env : Env} {n : ℕ} {r : Option Guest}

theorem mem_actions_iff :
    n ∈ (packetOf address nodes h).actions ↔ ∃ node, nodes[n]? = some node ∧ node.isAction := by
  refine ⟨(packetOf address nodes h).isAction n, fun ⟨node, hnode, hact⟩ => ?_⟩
  refine List.mem_filter.2 ⟨List.mem_range.2 (List.getElem?_eq_some_iff.1 hnode).1, ?_⟩
  rw [hnode]
  exact hact

/-- The action after the values. -/
theorem getElem?_of_concat_extends (hpre : mid ++ [node] <+: nodes) :
    nodes[mid.length]? = some node :=
  getElem?_of_extends hpre List.getElem?_concat_length

/-- Among the nodes that have been inserted there is no action. -/
theorem Grown.lt_of_action (hleg : Grown start mid) (hpre : mid ++ [node] <+: nodes)
    (hn : n ∈ (packetOf address nodes h).actions) (hlt : n < mid.length) : n < start.length := by
  obtain ⟨act, hnode, hact⟩ := mem_actions_iff.1 hn
  by_contra hge
  obtain ⟨rest, rfl⟩ := (List.prefix_append mid [node]).trans hpre
  rw [List.getElem?_append_left hlt] at hnode
  have hval := hleg.values n act (Nat.le_of_not_lt hge) hnode
  exact absurd hact (ne_true_of_eq_false hval)

theorem Grown.isNext (hleg : Grown start mid) (hpre : mid ++ [node] <+: nodes)
    (hact : node.isAction) (h0 : 0 < n) (hle : n ≤ mid.length) (hn : start.length ≤ n) :
    IsNext (packetOf address nodes h) n mid.length where
  pos := h0
  le := hle
  mem := mem_actions_iff.2 ⟨node, getElem?_of_concat_extends hpre, hact⟩
  first m hm hnm := by
    by_contra hlt
    exact absurd (hleg.lt_of_action hpre hm (Nat.lt_of_not_le hlt)) (hn.trans hnm).not_gt

/-- What a block comes to at the action after the values it is one of. -/
theorem Block.port_eq_of_isUsed {vt : ValueType} {v : ℕ} {lo : List Node} {b : Port × List Node}
    (hb : Block address known g lo vt v b) (hleg : Grown start mid)
    (hpre : mid ++ [node] <+: nodes) (hlo : start <+: lo) (hmid : b.2 <+: mid)
    (hused : IsUsed nodes mid.length b.1) (hk : KnowsAll intOps (packetOf address nodes h) env)
    (hknown : ∀ o v, known o v →
      (atAction intOps (packetOf address nodes h) mid.length g l env).port o = some v) :
    (atAction intOps (packetOf address nodes h) mid.length g l env).port b.1 = some v := by
  have hnodes : b.2 <+: nodes := (hmid.trans (List.prefix_append _ _)).trans hpre
  have hgives : Gives (packetOf address nodes h).address (packetOf address nodes h).nodes known g
      lo.length b.1 v := hb.gives.mono hnodes le_rfl
  refine hgives.port_eq hk hknown (fun a ha han => ?_) hused
  exact (hleg.lt_of_action hpre ha han).le.trans hlo.length_le

/-- The same for an operand of the action. -/
theorem Block.port_eq {vt : ValueType} {v : ℕ} {lo : List Node} {b : Port × List Node}
    (hb : Block address known g lo vt v b) (hleg : Grown start mid)
    (hpre : mid ++ [node] <+: nodes) (hlo : start <+: lo) (hmid : b.2 <+: mid)
    (ho : b.1 ∈ node.operands) (hk : KnowsAll intOps (packetOf address nodes h) env)
    (hknown : ∀ o v, known o v →
      (atAction intOps (packetOf address nodes h) mid.length g l env).port o = some v) :
    (atAction intOps (packetOf address nodes h) mid.length g l env).port b.1 = some v := by
  have hn : (packetOf address nodes h).nodes[mid.length]? = some node :=
    getElem?_of_concat_extends hpre
  exact hb.port_eq_of_isUsed hleg hpre hlo hmid (isUsed_of_operand hn ho) hk hknown

/-- The node that an action takes its operand from is one that the action uses. -/
theorem Block.mem_uses {vt : ValueType} {v : ℕ} {lo : List Node} {b : Port × List Node}
    (hb : Block address known g lo vt v b) (hle : lo.length ≤ b.1.owner) (hmid : b.2 <+: mid)
    (hpre : mid ++ [node] <+: nodes) (h : wellFormed nodes) (ho : b.1 ∈ node.operands) :
    b.1.owner ∈ uses nodes mid.length := by
  have hnodes : b.2 <+: nodes := (hmid.trans (List.prefix_append _ _)).trans hpre
  obtain ⟨val, hnode⟩ : ∃ val, b.2[b.1.owner]? = some val :=
    ⟨_, List.getElem?_eq_getElem hb.owner⟩
  have hn : (packetOf address nodes h).nodes[mid.length]? = some node :=
    getElem?_of_concat_extends hpre
  exact isUsed_of_operand hn ho _ (getElem?_of_extends hnodes hnode)
    (hb.grown.values _ _ hle hnode)

/-- A port of an earlier block keeps what it came to at the action there. -/
theorem port_eq_of_used {start' mid' : List Node} {node' : Node} {o : Port}
    (hpre : mid ++ [node] <+: start') (hleg' : Grown start' mid')
    (hpre' : mid' ++ [node'] <+: nodes) (hact : node.isAction)
    (ho : o.owner ∈ uses nodes mid.length) :
    (atAction intOps (packetOf address nodes h) mid'.length g l env).port o = env.port o := by
  have hstart : mid ++ [node] <+: mid' := hpre.trans hleg'.isPrefix
  have hnodes : mid ++ [node] <+: nodes := (hstart.trans (List.prefix_append _ _)).trans hpre'
  have hmem : mid.length ∈ (packetOf address nodes h).actions :=
    mem_actions_iff.2 ⟨node, getElem?_of_concat_extends hnodes, hact⟩
  have hlt : mid.length + 1 ≤ mid'.length := by
    simpa using hstart.length_le
  exact port_of_used hmem hlt ho

/-- The values and the action after them run, and after them the rest. -/
theorem returns_act {c : Config} (hleg : Grown start mid) (hpre : mid ++ [node] <+: nodes)
    (hisAction : node.isAction) (h0 : 0 < n) (hle : n ≤ mid.length) (hn : start.length ≤ n)
    (hact : act intOps node ⟨0, mid.length, g, l,
      atAction intOps (packetOf address nodes h) mid.length g l env⟩ = some c)
    (hr : (atFirstUse intOps (packetOf address nodes h)).Returns c r) :
    (atFirstUse intOps (packetOf address nodes h)).Returns ⟨0, n, g, l, env⟩ r := by
  have hnext : IsNext (packetOf address nodes h) n mid.length :=
    hleg.isNext hpre hisAction h0 hle hn
  have hnode : (packetOf address nodes h).nodes[mid.length]? = some node :=
    getElem?_of_concat_extends hpre
  have hlen := (List.getElem?_eq_some_iff.1 hnode).1.le
  exact (passes_action hnext.mem h0 hle hlen hnext.first).visits.returns
    (.move (step_isNext hnext hnode hact) hr)

/-- A packet that starts with a value. -/
theorem returns_enter (hleg : Grown [] mid) (hpre : mid ++ [node] <+: nodes)
    (hisAction : node.isAction) (h0 : 0 < mid.length)
    (hr : ∀ env, KnowsAll intOps (packetOf address nodes h) env →
      (atFirstUse intOps (packetOf address nodes h)).Returns ⟨0, 1, g, intOps.local₀, env⟩ r) :
    (atFirstUse intOps (packetOf address nodes h)).Returns (.enter intOps 0 g) r := by
  have hmem : mid.length ∈ (packetOf address nodes h).actions :=
    mem_actions_iff.2 ⟨node, getElem?_of_concat_extends hpre, hisAction⟩
  have hfirst : 0 ∉ (packetOf address nodes h).actions := fun hzero =>
    nomatch hleg.lt_of_action hpre hzero h0
  have hlen : 0 < nodes.length :=
    h0.trans (List.getElem?_eq_some_iff.1 (getElem?_of_concat_extends hpre)).1
  obtain ⟨env, henter, hk⟩ := passes_enter hmem hfirst hlen
  exact henter.visits.returns (hr env hk)

end Run

end Arancini.X86
