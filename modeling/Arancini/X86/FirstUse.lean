import Arancini.Llvm.Division
import Arancini.X86.EvalOrder
import Arancini.X86.Guest
import Arancini.X86.WriteFlags

/-!
# Running a packet at first use

What the operations on integers do is `intOps`, with the flags of `OpNode`. The packet of one
instruction runs on its own as the back-ends run it : control goes from one action to the next, and
at an action the nodes that it is the first to use get their values (`step_action`). The nodes in
between do nothing (`passes_action`).
-/

namespace Arancini.Ir

@[simp]
theorem ValueType.width_u (w : ℕ) : (ValueType.u w).width = w :=
  Nat.mul_one w

end Arancini.Ir

namespace Arancini.X86

open Ir
open Llvm (FlagNode quotient remainder greater)

/-! ## Operations on integers -/

/-- What the ports of a node give. -/
def OpNode.result {w : ℕ} (node : OpNode w) : Result
  | .zero => (node.port .zero).toNat
  | .negative => (node.port .negative).toNat
  | .overflow => (node.port .overflow).toNat
  | .carry => (node.port .carry).toNat
  | _ => node.value.toNat

/-- The class of a type of integers. -/
def integerClass (vt : ValueType) : Riscv.Class :=
  if vt.typeClass = .signedInteger then .signed else .unsigned

/-- The operations on integers. A comparison has the type of its operands. -/
def integerNode {w : ℕ} (cls : Riscv.Class) (op : BinaryArithOp) (lhs rhs : BitVec w) : OpNode w :=
  match op with
  | .add => .arith (.addSub .add lhs rhs)
  | .sub => .arith (.addSub .sub lhs rhs)
  | .mul => .arith (.mul cls lhs rhs)
  | .div => .other (quotient cls lhs rhs)
  | .mod => .other (remainder cls lhs rhs)
  | .band => .arith (.logic .band FlagNode.band_logic lhs rhs)
  | .bor => .arith (.logic .bor FlagNode.bor_logic lhs rhs)
  | .bxor => .arith (.logic .bxor FlagNode.bxor_logic lhs rhs)
  | .cmpeq => .other (BitVec.ofNat w (lhs == rhs).toNat)
  | .cmpne => .other (BitVec.ofNat w (lhs != rhs).toNat)
  | .cmpgt => .other (BitVec.ofNat w (greater cls lhs rhs).toNat)
  | _ => .other 0

def castValue {w : ℕ} (op : CastOp) (k : ℕ) (value : BitVec w) : BitVec k :=
  match op with
  | .sx => value.signExtend k
  | .zx | .trunc | .bitcast | .convert => value.setWidth k

/-- The operations of the IR on integers. -/
def intOps : Ops where
  value
    | .unaryArith .bnot a, [x] => (OpNode.unaryArith .bnot (BitVec.ofNat a.type.width x)).result
    | .unaryArith .neg a, [x] => (OpNode.unaryArith .neg (BitVec.ofNat a.type.width x)).result
    | .binaryArith op a _, [x, y] =>
      (integerNode (integerClass a.type) op (BitVec.ofNat a.type.width x)
        (BitVec.ofNat a.type.width y)).result
    | .bitShift op a _, [x, n] => (OpNode.bitShift op (BitVec.ofNat a.type.width x) n).result
    | .csel _ _ _, [c, t, f] => fun _ => if c = 0 then f else t
    | .cast op vt s _, [x] => fun _ => (castValue op vt.width (BitVec.ofNat s.type.width x)).toNat
    | .bitExtract s start len, [x] => fun _ =>
      ((BitVec.ofNat s.type.width x).extractLsb' start len).toNat
    | .bitInsert s b start len, [x, y] => fun _ =>
      (insertField (BitVec.ofNat s.type.width x) start len (BitVec.ofNat b.type.width y)).toNat
    | _, _ => fun _ => 0
  atomic _ _ v := (fun _ => v, v)
  call _ _ g := (g, 0)
  local₀ _ := 0

section Compare

variable {w : ℕ} (cls : Riscv.Class) (x y : BitVec w)

theorem toNat_ofNat_eq_zero_iff (hw : 0 < w) (b : Bool) :
    (BitVec.ofNat w b.toNat).toNat = 0 ↔ b = false := by
  cases b with
  | false => exact iff_of_true (by rw [BitVec.toNat_ofNat]; exact Nat.zero_mod _) rfl
  | true =>
    have hone : (BitVec.ofNat w 1).toNat = 1 := Nat.one_mod_two_pow hw
    exact iff_of_false (fun h => Nat.one_ne_zero (hone.symm.trans h)) nofun

theorem cmpeq_eq_zero_iff (hw : 0 < w) :
    (integerNode cls .cmpeq x y).result .value = 0 ↔ x ≠ y :=
  (toNat_ofNat_eq_zero_iff hw (x == y)).trans beq_eq_false_iff_ne

theorem cmpne_eq_zero_iff (hw : 0 < w) :
    (integerNode cls .cmpne x y).result .value = 0 ↔ x = y :=
  (toNat_ofNat_eq_zero_iff hw (x != y)).trans bne_eq_false_iff_eq

end Compare

/-! ## Values that are known -/

section Known

variable {nodes : List Node}

/-- The nodes below `n` whose value is known. -/
def knownsBelow (nodes : List Node) (n : ℕ) : List NodeId :=
  (List.range n).foldl
    (fun known n =>
      if nodes[n]?.any fun node => node.folds && node.operands.all (·.owner ∈ known) &&
          !flagsNeeded nodes n then known ++ [n] else known) []

theorem knownsBelow_succ (n : ℕ) :
    knownsBelow nodes (n + 1) =
      if nodes[n]?.any fun node => node.folds &&
          node.operands.all (·.owner ∈ knownsBelow nodes n) && !flagsNeeded nodes n then
        knownsBelow nodes n ++ [n]
      else knownsBelow nodes n := by
  rw [knownsBelow, List.range_succ, List.foldl_append]
  rfl

theorem lt_of_mem_knownsBelow {n m : ℕ} (h : m ∈ knownsBelow nodes n) : m < n := by
  induction n with
  | zero => exact nomatch h
  | succ n ih =>
    rw [knownsBelow_succ] at h
    split_ifs at h
    · rcases List.mem_append.1 h with h | h
      · exact (ih h).trans n.lt_succ_self
      · exact (List.mem_singleton.1 h).trans_lt n.lt_succ_self
    · exact (ih h).trans n.lt_succ_self

theorem sorted_knownsBelow (n : ℕ) : (knownsBelow nodes n).Pairwise (· < ·) := by
  induction n with
  | zero => exact .nil
  | succ n ih =>
    rw [knownsBelow_succ]
    split_ifs
    · refine List.pairwise_append.2 ⟨ih, List.pairwise_singleton _ _, fun m hm k hk => ?_⟩
      rw [List.mem_singleton.1 hk]
      exact lt_of_mem_knownsBelow hm
    · exact ih

/-- A known node folds, and its operands are known. -/
theorem folds_of_mem_knownsBelow {n m : ℕ} (h : m ∈ knownsBelow nodes n) :
    ∃ node, nodes[m]? = some node ∧ node.folds ∧
      ∀ o ∈ node.operands, o.owner ∈ knownsBelow nodes n := by
  induction n with
  | zero => exact nomatch h
  | succ n ih =>
    rw [knownsBelow_succ] at h ⊢
    split_ifs at h ⊢ with hcond
    · rcases List.mem_append.1 h with h | h
      · obtain ⟨node, hnode, hfolds, hops⟩ := ih h
        exact ⟨node, hnode, hfolds, fun o ho => List.mem_append_left _ (hops o ho)⟩
      · obtain rfl := List.mem_singleton.1 h
        obtain ⟨node, hnode, hcond⟩ := (Option.any_eq_true _ _).1 hcond
        simp only [Bool.and_eq_true, List.all_eq_true, decide_eq_true_eq] at hcond
        exact ⟨node, hnode, hcond.1.1, fun o ho => List.mem_append_left _ (hcond.1.2 o ho)⟩
    · exact ih h

theorem folds_of_mem_knowns {m : ℕ} (h : m ∈ knowns nodes) :
    ∃ node, nodes[m]? = some node ∧ node.folds ∧ ∀ o ∈ node.operands, o.owner ∈ knowns nodes :=
  folds_of_mem_knownsBelow h

theorem evalNode_of_folds {ops : Ops} {node : Node} (h : node.folds) (address : ℕ) (g g' : Guest)
    (l l' : ℕ → ℕ) {env env' : Env}
    (hport : ∀ o ∈ node.operands, env.port o = env'.port o) :
    evalNode ops address g l env node = evalNode ops address g' l' env' node := by
  refine evalNode_congr ops hport ?_ ?_ ?_
  · intro off hoff
    cases node <;> simp_all [Node.folds, Node.readsReg]
  · intro vt a b hnode
    subst hnode
    exact nomatch h
  · intro vt l hnode
    subst hnode
    exact nomatch h

end Known

/-! ## From action to action -/

section Alone

variable {ops : Ops} {p : Packet} {g : Guest} {l : ℕ → ℕ} {env : Env} {a k n : ℕ}

/-- The results when the nodes that the action at `n` is the first to use have been evaluated. -/
def atAction (ops : Ops) (p : Packet) (n : ℕ) (g : Guest) (l : ℕ → ℕ) (env : Env) : Env :=
  (firstUses p.nodes p.actions n).foldl (evalOne ops p.graph g l) env

/-- The results of the nodes whose value is known. -/
def knownEnv (ops : Ops) (p : Packet) (g : Guest) (l : ℕ → ℕ) (env : Env) : Env :=
  (knowns p.nodes).foldl (evalOne ops p.graph g l) env

theorem step_action {node : Node} (hn : p.nodes[n]? = some node) (ha : n ∈ p.actions) (h0 : 0 < n) :
    (atFirstUse ops p).step ⟨0, n, g, l, env⟩ =
      moveOn (act ops node ⟨0, n, g, l, atAction ops p n g l env⟩) := by
  have hactive : (lazyPlan (code p)).active 0 n = true := decide_eq_true ha
  have hevals : (lazyPlan (code p)).evals 0 n = firstUses p.nodes p.actions n := by
    simp [lazyPlan, code, ha, h0.ne']
  refine (step_of_active (p := p.graph) (c := ⟨0, n, g, l, env⟩) rfl hn hactive).trans ?_
  rw [Config.eval, hevals]
  rfl

/-- A node that is no action does nothing. -/
theorem step_skip (hn : n < p.nodes.length) (ha : n ∉ p.actions) (h0 : 0 < n) :
    (atFirstUse ops p).step ⟨0, n, g, l, env⟩ = .inl ⟨0, n + 1, g, l, env⟩ := by
  obtain ⟨node, hnode⟩ : ∃ node, p.nodes[n]? = some node := ⟨_, List.getElem?_eq_getElem hn⟩
  have hinactive : (lazyPlan (code p)).active 0 n = false := decide_eq_false ha
  have hevals : (lazyPlan (code p)).evals 0 n = [] := by
    simp [lazyPlan, code, ha, h0.ne']
  refine (step_of_inactive (p := p.graph) (c := ⟨0, n, g, l, env⟩) rfl hnode hinactive).trans ?_
  rw [Config.eval, hevals]
  rfl

/-- At the end of the packet. -/
theorem step_last (hn : p.nodes.length ≤ n) :
    (atFirstUse ops p).step ⟨0, n, g, l, env⟩ = .inr (some g) :=
  step_of_end (p := p.graph) rfl (List.getElem?_eq_none hn)

/-- The action at `n` is the first one from node `a` on, which is not the one the packet starts
with. -/
@[mk_iff]
structure IsNext (p : Packet) (a n : ℕ) : Prop where
  pos : 0 < a
  le : a ≤ n
  mem : n ∈ p.actions
  first : ∀ m ∈ p.actions, a ≤ m → n ≤ m

instance (p : Packet) (a n : ℕ) : Decidable (IsNext p a n) :=
  decidable_of_iff' _ (isNext_iff p a n)

/-- Control goes on to the next action, or to the end. -/
theorem passes_action (hk : k ∈ p.actions) (h0 : 0 < a) (ha : a ≤ n) (hn : n ≤ p.nodes.length)
    (hskip : ∀ m ∈ p.actions, a ≤ m → n ≤ m) :
    (atFirstUse ops p).Passes (·.pos = k) ⟨0, a, g, l, env⟩ 0 ⟨0, n, g, l, env⟩ := by
  induction n, ha using Nat.le_induction with
  | base => exact .refl _
  | succ n ha ih =>
    have hnot : n ∉ p.actions := fun h => absurd (hskip n h ha) (by omega)
    have hpos : n ≠ k := fun h => hnot (h ▸ hk)
    have hpasses := ih (by omega) fun m hm hle => (hskip m hm hle).trans' n.le_succ
    exact hpasses.trans_zero (.move hpos (step_skip (by omega) hnot (by omega)) (.refl _))

section Act

variable {node : Node} {c d : Config} {j : ℕ}

theorem step_isNext (hnext : IsNext p a n) (hnode : p.nodes[n]? = some node)
    (h : act ops node ⟨0, n, g, l, atAction ops p n g l env⟩ = some c) :
    (atFirstUse ops p).step ⟨0, n, g, l, env⟩ = .inl c := by
  rw [step_action hnode hnext.mem (hnext.pos.trans_le hnext.le), h]
  rfl

/-- The next action runs, and after it the rest. -/
theorem passes_act (hk : k ∈ p.actions) (hnext : IsNext p a n) (hnode : p.nodes[n]? = some node)
    (h : act ops node ⟨0, n, g, l, atAction ops p n g l env⟩ = some c) (hne : n ≠ k)
    (hrest : (atFirstUse ops p).Passes (·.pos = k) c j d) :
    (atFirstUse ops p).Passes (·.pos = k) ⟨0, a, g, l, env⟩ j d := by
  have hle : n ≤ p.nodes.length := (List.getElem?_eq_some_iff.1 hnode).1.le
  exact (passes_action hk hnext.pos hnext.le hle hnext.first).trans_zero
    (.move hne (step_isNext hnext hnode h) hrest)

/-- The same where the next action is the one that is counted. -/
theorem passes_count (hnext : IsNext p a k) (hnode : p.nodes[k]? = some node)
    (h : act ops node ⟨0, k, g, l, atAction ops p k g l env⟩ = some c)
    (hrest : (atFirstUse ops p).Passes (·.pos = k) c j d) :
    (atFirstUse ops p).Passes (·.pos = k) ⟨0, a, g, l, env⟩ (j + 1) d := by
  have hle : k ≤ p.nodes.length := (List.getElem?_eq_some_iff.1 hnode).1.le
  exact (passes_action hnext.mem hnext.pos hnext.le hle hnext.first).trans_zero
    (.count rfl (step_isNext hnext hnode h) hrest)

end Act

/-! ## Results -/

/-- The result of node `m` is the one its operands give. -/
def Agrees (ops : Ops) (p : Packet) (g : Guest) (l : ℕ → ℕ) (env : Env) (m : NodeId) : Prop :=
  env m = p.nodes[m]?.bind (evalNode ops p.address g l env)

/-- The nodes whose value is known have it. -/
def KnowsAll (ops : Ops) (p : Packet) (env : Env) : Prop :=
  ∀ m ∈ knowns p.nodes, ∀ g l, Agrees ops p g l env m

theorem knowsAll_of_eq {env' : Env} (h : KnowsAll ops p env)
    (heq : ∀ m ∈ knowns p.nodes, env' m = env m) : KnowsAll ops p env' := by
  intro m hm g l
  obtain ⟨node, hnode, hfolds, hops⟩ := folds_of_mem_knowns hm
  have hport : ∀ o ∈ node.operands, env.port o = env'.port o := by
    intro o ho
    rw [Env.port, Env.port, heq _ (hops o ho)]
  have hagrees := h m hm g l
  rw [Agrees, hnode, Option.bind_some] at hagrees ⊢
  rw [heq m hm, hagrees, evalNode_of_folds hfolds p.address g g l l hport]

theorem knowsAll_knownEnv (g : Guest) (l : ℕ → ℕ) (env : Env) :
    KnowsAll ops p (knownEnv ops p g l env) := by
  intro m hm g' l'
  obtain ⟨node, hnode, hfolds, -⟩ := folds_of_mem_knowns hm
  have hagrees : Agrees ops p g l (knownEnv ops p g l env) m :=
    foldl_evalOne_of_mem (sorted_knownsBelow p.nodes.length) hm
  rw [Agrees, hnode, Option.bind_some] at hagrees ⊢
  exact hagrees.trans (evalNode_of_folds hfolds p.address g g' l l' fun _ _ => rfl)

theorem mem_firstUses_iff {m : NodeId} : m ∈ firstUses p.nodes p.actions n ↔
    m ∈ uses p.nodes n ∧ m ∉ knowns p.nodes ∧ ∀ a ∈ p.actions, a < n → m ∉ uses p.nodes a := by
  simp [firstUses]

theorem knowsAll_atAction (h : KnowsAll ops p env) (n : ℕ) (g : Guest) (l : ℕ → ℕ) :
    KnowsAll ops p (atAction ops p n g l env) :=
  knowsAll_of_eq h fun _ hm => foldl_evalOne_of_notMem fun hmem => (mem_firstUses_iff.1 hmem).2.1 hm

theorem agrees_of_mem {m : NodeId} (hm : m ∈ firstUses p.nodes p.actions n) :
    Agrees ops p g l (atAction ops p n g l env) m :=
  foldl_evalOne_of_mem (sorted_firstUses ..) hm

theorem port_atAction {o : Port} (ho : o.owner ∉ firstUses p.nodes p.actions n) :
    (atAction ops p n g l env).port o = env.port o := by
  rw [Env.port, atAction, foldl_evalOne_of_notMem ho, Env.port]

/-- A node that the action uses, and none before it, has the result of now. -/
theorem agrees_atAction {m : NodeId} (h : KnowsAll ops p env) (hm : m ∈ uses p.nodes n)
    (hnew : ∀ a ∈ p.actions, a < n → m ∉ uses p.nodes a) :
    Agrees ops p g l (atAction ops p n g l env) m := by
  by_cases hknown : m ∈ knowns p.nodes
  · exact knowsAll_atAction h n g l m hknown g l
  · exact agrees_of_mem (mem_firstUses_iff.2 ⟨hm, hknown, hnew⟩)

/-- One that an earlier action uses has the result it had. -/
theorem port_of_used {o : Port} {a : ℕ} (ha : a ∈ p.actions) (han : a < n)
    (ho : o.owner ∈ uses p.nodes a) : (atAction ops p n g l env).port o = env.port o :=
  port_atAction fun hmem => (mem_firstUses_iff.1 hmem).2.2 a ha han ho

/-- The packet starts with a label, to which control can come back. -/
theorem step_zero {name : String} (h0 : 0 ∈ p.actions)
    (hnode : p.nodes[0]? = some (.label name)) :
    (atFirstUse ops p).step ⟨0, 0, g, l, env⟩ =
      .inl ⟨0, 1, g, l, knownEnv ops p g l env⟩ := by
  have hactive : (lazyPlan (code p)).active 0 0 = true := decide_eq_true h0
  have hevals : (lazyPlan (code p)).evals 0 0 = knowns p.nodes := by
    simp [lazyPlan, code, h0, firstUses, uses, hnode, needs]
  refine (step_of_active (p := p.graph) (c := ⟨0, 0, g, l, env⟩) rfl hnode hactive).trans ?_
  rw [Config.eval, hevals]
  rfl

/-- The packet starts with a node that is no action. -/
theorem passes_enter (hk : k ∈ p.actions) (h0 : 0 ∉ p.actions) (hn : 0 < p.nodes.length) :
    ∃ env, (atFirstUse ops p).Passes (·.pos = k) (.enter ops 0 g) 0 ⟨0, 1, g, ops.local₀, env⟩ ∧
      KnowsAll ops p env := by
  obtain ⟨node, hnode⟩ : ∃ node, p.nodes[0]? = some node := ⟨_, List.getElem?_eq_getElem hn⟩
  have hinactive : (lazyPlan (code p)).active 0 0 = false := decide_eq_false h0
  have hevals : (lazyPlan (code p)).evals 0 0 = knowns p.nodes := by
    simp [lazyPlan, code, h0]
  have hne : 0 ≠ k := fun h => h0 (h ▸ hk)
  refine ⟨knownEnv ops p g ops.local₀ fun _ => none, .move hne ?_ (.refl _),
    knowsAll_knownEnv g ops.local₀ _⟩
  refine (step_of_inactive (p := p.graph) (c := .enter ops 0 g) rfl hnode hinactive).trans ?_
  rw [Config.eval, Config.enter, hevals]
  rfl

namespace Agrees

variable {o : Port}

theorem port {node : Node} (h : Agrees ops p g l env o.owner)
    (hnode : p.nodes[o.owner]? = some node) :
    env.port o = (evalNode ops p.address g l env node).map (· o.kind) := by
  rw [Env.port, h, hnode]
  rfl

theorem constant {vt : ValueType} {x : ℕ} (h : Agrees ops p g l env o.owner)
    (hnode : p.nodes[o.owner]? = some (.constant vt x)) : env.port o = some x :=
  h.port hnode

theorem readPc (h : Agrees ops p g l env o.owner)
    (hnode : p.nodes[o.owner]? = some .readPc) : env.port o = some p.address :=
  h.port hnode

theorem readReg {w idx : ℕ} {r : Reg} {name : String} (h : Agrees ops p g l env o.owner)
    (hnode : p.nodes[o.owner]? = some (.readReg (.u w) r.offset idx name)) :
    env.port o = some (g.get w r).toNat := by
  rw [h.port hnode, evalNode, Guest.get, BitVec.toNat_ofNat, ValueType.width_u]
  rfl

theorem readMem {vt : ValueType} {a : Port} {x : ℕ} (h : Agrees ops p g l env o.owner)
    (hnode : p.nodes[o.owner]? = some (.readMem vt a)) (ha : env.port a = some x) :
    env.port o = some (Guest.load g.mem x (vt.width / 8)) := by
  rw [h.port hnode, evalNode, ha]
  rfl

section Integers

variable {w : ℕ} {x y : BitVec w} {a b : Port}

/-- Operands that need not have the width, as what is in memory. -/
theorem binaryArith_nat {op : BinaryArithOp} (h : Agrees intOps p g l env o.owner)
    (hnode : p.nodes[o.owner]? = some (.binaryArith op a b)) (hw : a.type = .u w) {u v : ℕ}
    (ha : env.port a = some u) (hb : env.port b = some v) :
    env.port o = some
      ((integerNode .unsigned op (BitVec.ofNat w u) (BitVec.ofNat w v)).result o.kind) := by
  have hwidth : a.type.width = w := by rw [hw, ValueType.width_u]
  have hcls : integerClass a.type = .unsigned := by rw [hw]; rfl
  subst hwidth
  rw [h.port hnode]
  simp [evalNode, Node.operands, ha, hb, intOps, hcls]

theorem binaryArith {op : BinaryArithOp} (h : Agrees intOps p g l env o.owner)
    (hnode : p.nodes[o.owner]? = some (.binaryArith op a b)) (hw : a.type = .u w)
    (ha : env.port a = some x.toNat) (hb : env.port b = some y.toNat) :
    env.port o = some ((integerNode .unsigned op x y).result o.kind) := by
  rw [h.binaryArith_nat hnode hw ha hb, BitVec.ofNat_toNat, BitVec.ofNat_toNat, BitVec.setWidth_eq,
    BitVec.setWidth_eq]

theorem bnot (h : Agrees intOps p g l env o.owner)
    (hnode : p.nodes[o.owner]? = some (.unaryArith .bnot a)) (hw : a.type = .u w)
    (ha : env.port a = some x.toNat) :
    env.port o = some ((OpNode.unaryArith .bnot x).result o.kind) := by
  have hwidth : a.type.width = w := by rw [hw, ValueType.width_u]
  subst hwidth
  rw [h.port hnode]
  simp [evalNode, Node.operands, ha, intOps]

theorem cast {op : CastOp} {vt : ValueType} {convert : Ir.FpConvertType}
    (h : Agrees intOps p g l env o.owner)
    (hnode : p.nodes[o.owner]? = some (.cast op vt a convert)) (hw : a.type = .u w)
    (ha : env.port a = some x.toNat) :
    env.port o = some (castValue op vt.width x).toNat := by
  have hwidth : a.type.width = w := by rw [hw, ValueType.width_u]
  subst hwidth
  rw [h.port hnode]
  simp [evalNode, Node.operands, ha, intOps]

theorem csel {c t f : Port} {u v v' : ℕ} (h : Agrees intOps p g l env o.owner)
    (hnode : p.nodes[o.owner]? = some (.csel c t f)) (hc : env.port c = some u)
    (ht : env.port t = some v) (hf : env.port f = some v') :
    env.port o = some (if u = 0 then v' else v) := by
  rw [h.port hnode]
  simp [evalNode, Node.operands, hc, ht, hf, intOps]

end Integers

end Agrees

section Act

variable {w : ℕ} {x : BitVec w} {o : Port} {i pos : ℕ}

theorem act_writeReg {r : Reg} {idx : ℕ} {name : String} (ho : env.port o = some x.toNat) :
    act ops (.writeReg r.offset idx name o) ⟨i, pos, g, l, env⟩ =
      some ⟨i, pos + 1, g.set r x, l, env⟩ := by
  simp [act, Node.operands, ho, exec, Config.after, Guest.set]

theorem act_writeReg_nat {r : Reg} {idx v : ℕ} {name : String} (ho : env.port o = some v) :
    act ops (.writeReg r.offset idx name o) ⟨i, pos, g, l, env⟩ =
      some ⟨i, pos + 1, g.setReg r.offset v, l, env⟩ := by
  simp [act, Node.operands, ho, exec, Config.after]

theorem act_writePc {t : BrType} {c v : ℕ} (ho : env.port o = some v) :
    act ops (.writePc o t c) ⟨i, pos, g, l, env⟩ =
      some ⟨i, pos + 1, g.setReg Reg.PC.offset v, l, env⟩ := by
  simp [act, Node.operands, ho, exec, Config.after]

theorem act_writeMem {a : Port} {u v : ℕ} (ha : env.port a = some u) (ho : env.port o = some v) :
    act ops (.writeMem a o) ⟨i, pos, g, l, env⟩ =
      some ⟨i, pos + 1, g.setMem u v (o.type.width / 8), l, env⟩ := by
  simp [act, Node.operands, ha, ho, exec, Config.after]

theorem act_condBr {t u : ℕ} (ho : env.port o = some u) :
    act ops (.condBr o (some t)) ⟨i, pos, g, l, env⟩ =
      some ⟨i, if u = 0 then pos + 1 else t, g, l, env⟩ := by
  simp [act, Node.operands, ho, exec, Config.after]

theorem act_br {t : ℕ} :
    act ops (.br (some t)) ⟨i, pos, g, l, env⟩ = some ⟨i, t, g, l, env⟩ :=
  rfl

theorem act_label {name : String} :
    act ops (.label name) ⟨i, pos, g, l, env⟩ = some ⟨i, pos + 1, g, l, env⟩ :=
  rfl

end Act

end Alone

end Arancini.X86
