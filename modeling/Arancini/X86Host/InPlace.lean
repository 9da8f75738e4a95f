import Mathlib.Data.Nat.ModEq
import Arancini.Ir.Memory
import Arancini.X86Host.Values

/-!
# The shortcut of `write_reg`

`materialise_write_reg` subtracts a constant from a guest register in place when the value that is
written is a difference of that register and a constant. The nodes of the difference are then not
materialised. A later action that needs one of them materialises it afresh, after the register has
changed.

`inPlace_right_iff` says that the code of a packet agrees with that of the plain lowering exactly if
a guest register that is read again still has the value that it had at first.
-/

namespace Arancini.X86Host

open Ir

/-- A CPU that subtracts. -/
structure SubCpu extends Cpu where
  sub : ∀ w x y, (alu .SUB w x y).1 % 2 ^ w = (x + (2 ^ w - y % 2 ^ w)) % 2 ^ w

/-- The actions of an instruction, and the context that it is lowered in : its nodes are new, and
the builder holds the code before it. -/
structure HostPacket where
  graph : Graph
  pc : ℕ
  actions : List NodeId
  nodup : actions.Nodup
  builder : List Instruction
  next : ℕ

/-- Memory and the registers of the host are the same, and each node that the second code has
materialised has in both the same value at each of its ports. -/
structure Agrees (g : Graph) (c : Context) (s : State) (c' : Context) (s' : State) : Prop where
  mem : s'.mem = s.mem
  regs : ∀ r, s'.regs (.preg r) = s.regs (.preg r)
  values : ∀ n ∈ c'.materialised, n ∈ c.materialised ∧
    ∀ k, portValue g.nodes c' s' n k = portValue g.nodes c s n k

/-- `materialise_write_reg` without its shortcut. -/
def plain : ℕ → Port → Option ℕ :=
  fun _ _ => none

/-- The value of a guest register, of this type. -/
def guestReg (s : State) (vt : ValueType) (regoff : ℕ) : ℕ :=
  Guest.load s.mem (regAddress s regoff) (regWidth vt.elementWidth / 8) %
    2 ^ regWidth vt.elementWidth

namespace HostPacket

variable (p : HostPacket)

def start : Context :=
  ⟨p.builder, [], fun _ => none, p.next, p.pc⟩

/-- The first actions have been lowered. -/
def lowered (fold : ℕ → Port → Option ℕ) (t : ℕ) : Except String Context :=
  lowerPacketBy fold p.graph.nodes (p.pc, p.actions.take t) p.start

def contextAt (fold : ℕ → Port → Option ℕ) (t : ℕ) : Context :=
  match p.lowered fold t with
  | .ok c => c
  | .error _ => p.start

/-- The machine after the code of the first actions. -/
def stateAt (cpu : Cpu) (fold : ℕ → Port → Option ℕ) (t : ℕ) (s : State) : State :=
  after cpu p.start (p.contextAt fold t) s

/-- After each action for which there is code without the shortcut there is code with it, and they
agree. -/
def InPlaceRight (cpu : Cpu) (s : State) : Prop :=
  ∀ t c, p.lowered plain t = .ok c →
    ∃ c', lowerPacket p.graph.nodes (p.pc, p.actions.take t) p.start = .ok c' ∧
      Agrees p.graph c (after cpu p.start c s) c' (after cpu p.start c' s)

/-- The action is the first one that a node is materialised for. -/
def UsedFirst (fold : ℕ → Port → Option ℕ) (t : ℕ) (n : NodeId) : Prop :=
  (∃ a, p.actions[t]? = some a ∧ Reaches fold p.graph.nodes a n) ∧
    ∀ j < t, ∀ a, p.actions[j]? = some a → ¬Reaches fold p.graph.nodes a n

/-- The action is done in place. -/
def InPlaceAt (t : ℕ) (off : ℕ) (value : Port) : Prop :=
  ∃ a idx name, p.actions[t]? = some a ∧
    p.graph.nodes[a]? = some (.writeReg off idx name value) ∧
      (decrement p.graph.nodes off value).isSome

/-- The action reads the guest register of a `read_reg` : to materialise it, or in place. -/
def Rereads (t : ℕ) (n : NodeId) : Prop :=
  p.UsedFirst (decrement p.graph.nodes) t n ∨
    ∃ off value op l r, p.InPlaceAt t off value ∧
      p.graph.nodes[value.owner]? = some (.binaryArith op l r) ∧ l.owner = n

/-- Nothing that is done in place has one bit, and a guest register that is read has the value that
it had when the plain code read it. -/
structure Unchanged (cpu : Cpu) (s : State) : Prop where
  width : ∀ t off value, p.InPlaceAt t off value → (∃ c, p.lowered plain (t + 1) = .ok c) →
    value.type.elementWidth ≠ 1
  reads : ∀ t n vt off idx name, p.graph.nodes[n]? = some (.readReg vt off idx name) →
    p.Rereads t n → (∃ c, p.lowered plain (t + 1) = .ok c) → ∀ j < t, p.UsedFirst plain j n →
      guestReg (p.stateAt cpu plain t s) vt off = guestReg (p.stateAt cpu plain j s) vt off

end HostPacket

/-! ## One action -/

section Step

variable {g : Graph} {cpu : Cpu} {fold : ℕ → Port → Option ℕ} {c c' : Context} {a : NodeId}
  {node : Node}

theorem deps_of_hasValue (h : hasValue node) :
    deps fold g.nodes node = node.operands.map Port.owner := by
  cases node with
  | writeReg off idx name v => exact nomatch h
  | _ => rfl

theorem effect_of_hasValue {arg : Port → ℕ} {s : State} (h : hasValue node) :
    effect cpu fold g.nodes arg s node = s := by
  cases node with
  | writeReg | writeMem | writePc => exact nomatch h
  | _ => rfl

/-- An action does not change the base of the guest registers. -/
theorem effect_bp {arg : Port → ℕ} {s : State} :
    (effect cpu fold g.nodes arg s node).regs (.preg .BP) = s.regs (.preg .BP) := by
  cases node with
  | writePc value brType target =>
    have hne : Reg.preg .BP ≠ .preg .R15 := nofun
    simp only [effect, Function.update_of_ne hne]
  | _ => rfl

/-- An action does the same with the same memory, registers and operands. -/
theorem effect_congr {arg : Port → ℕ} {s s' : State} (hmem : s'.mem = s.mem)
    (hregs : ∀ r, s'.regs (.preg r) = s.regs (.preg r)) :
    (effect cpu fold g.nodes arg s' node).mem = (effect cpu fold g.nodes arg s node).mem ∧
      ∀ r, (effect cpu fold g.nodes arg s' node).regs (.preg r) =
        (effect cpu fold g.nodes arg s node).regs (.preg r) := by
  cases node with
  | writeReg off idx name v => simp only [effect, regAddress, hmem, hregs, implies_true, and_self]
  | writeMem address v => simp only [effect, hmem, hregs, implies_true, and_self]
  | writePc value brType target =>
    refine ⟨hmem, fun r => ?_⟩
    simp only [effect, Function.update_apply, hregs]
  | _ => exact ⟨hmem, hregs⟩

/-- What the lowering of an action does. -/
structure Lowers (g : Graph) (cpu : Cpu) (fold : ℕ → Port → Option ℕ) (a : NodeId) (node : Node)
    (c c' : Context) : Prop where
  grows : Grows c c'
  placed : Placed g c'
  self : a ∈ c'.materialised
  reach : ∀ m ∈ c'.materialised, m ∉ c.materialised → Reaches fold g.nodes a m
  new : ∀ m ∈ c'.materialised, m ∉ c.materialised → ∃ node', g.nodes[m]? = some node' ∧
    (m = a ∨ hasValue node') ∧ (∀ d ∈ deps fold g.nodes node', d ∈ c'.materialised) ∧
      ((∀ off v, fold off v = none) → Encodable g.nodes node') ∧
        (hasValue node' → Computed g cpu c c' m)
  keep : ∀ m ∈ c.materialised, ∀ k s,
    portValue g.nodes c' (after cpu c c' s) m k = portValue g.nodes c s m k
  mem : ∀ s, (after cpu c c' s).mem =
    (effect cpu fold g.nodes (args g.nodes c' (after cpu c c' s)) s node).mem
  regs : ∀ s r, (after cpu c c' s).regs (.preg r) =
    (effect cpu fold g.nodes (args g.nodes c' (after cpu c c' s)) s node).regs (.preg r)

theorem lowers_of_hasValue (hplaced : Placed g c) (hnode : g.nodes[a]? = some node)
    (hhas : hasValue node) (h : Resolves g cpu fold a c c') :
    Lowers g cpu fold a node c c' := by
  have heval := h.evaluates node hnode hhas
  refine ⟨h.grows, h.placed, h.self, fun m hm hnot => (h.new m hm hnot).2, fun m hm hnot => ?_,
    fun m hm k s => heval.portValue_eq hplaced h.grows hm k s, fun s => ?_, fun s r => ?_⟩
  · have hcomputed := heval.new m hm hnot
    obtain ⟨node', hnode', hhas', hfits, hoperands⟩ := hcomputed.node
    refine ⟨node', hnode', .inr hhas', ?_, fun _ => hfits, fun _ => hcomputed⟩
    rw [deps_of_hasValue hhas']
    rintro d hd
    obtain ⟨o, ho, rfl⟩ := List.mem_map.1 hd
    exact hoperands o ho
  · rw [effect_of_hasValue hhas, heval.mem]
  · rw [effect_of_hasValue hhas, heval.regs s (.preg r) nofun]

theorem Acts.lowers (hplaced : Placed g c) (hnode : g.nodes[a]? = some node)
    (hhas : hasValue node = false) (h : Acts g cpu fold a node c c') :
    Lowers g cpu fold a node c c' := by
  have hresolves := h.resolves hnode hhas
  obtain ⟨c₁, i, hstage, hemitted, rfl, hdeps, hfits, heffect⟩ := h
  have hafter : ∀ s, after cpu c { c₁ with
      builder := c₁.builder ++ [i], materialised := a :: c₁.materialised } s =
        exec cpu i (after cpu c c₁ s) := fun s => after_concat hstage.grows hemitted
  have hvregs : ∀ s v, (exec cpu i s).regs (.vreg v) = s.regs (.vreg v) := by
    intro s v
    rw [(heffect s).2, effect_vreg]
  -- the last instruction keeps all values
  have hvalues : ∀ s m k, portValue g.nodes { c₁ with
      builder := c₁.builder ++ [i], materialised := a :: c₁.materialised } (exec cpu i s) m k =
        portValue g.nodes c₁ s m k :=
    fun s m k => portValue_congr rfl fun v _ => hvregs s v
  have hargs : ∀ s, args g.nodes { c₁ with
      builder := c₁.builder ++ [i], materialised := a :: c₁.materialised } (exec cpu i s) =
        args g.nodes c₁ s := fun s => funext fun o => hvalues s o.owner o.kind
  refine ⟨hresolves.grows, hresolves.placed, hresolves.self,
    fun m hm hnot => (hresolves.new m hm hnot).2, fun m hm hnot => ?_, fun m hm k s => ?_,
    fun s => ?_, fun s r => ?_⟩
  · rcases List.mem_cons.1 hm with rfl | hm
    · exact ⟨node, hnode, .inl rfl, fun d hd => List.mem_cons_of_mem m (hdeps d hd), hfits,
        fun hhas' => absurd (hhas.symm.trans hhas') (by decide)⟩
    · have hcomputed := hstage.evaluates.new m hm hnot
      obtain ⟨node', hnode', hhas', hfits', hoperands⟩ := hcomputed.node
      have hoperands' : ∀ o ∈ node'.operands, o.owner ∈ a :: c₁.materialised :=
        fun o ho => List.mem_cons_of_mem a (hoperands o ho)
      refine ⟨node', hnode', .inr hhas', ?_, fun _ => hfits', fun _ =>
        ⟨⟨node', hnode', hhas', hfits', hoperands'⟩, fun node'' hnode'' k vt hvt s => ?_⟩⟩
      · rw [deps_of_hasValue hhas']
        rintro d hd
        obtain ⟨o, ho, rfl⟩ := List.mem_map.1 hd
        exact hoperands' o ho
      · rw [hafter, hvalues, hargs]
        exact hcomputed.value node'' hnode'' k vt hvt s
  · rw [hafter, hvalues]
    exact hstage.evaluates.portValue_eq hplaced hstage.grows hm k s
  · rw [hafter, hargs, (heffect _).1]
    exact (effect_congr (hstage.evaluates.mem s)
      fun r => hstage.evaluates.regs s (.preg r) nofun).1
  · rw [hafter, hargs, (heffect _).2]
    exact (effect_congr (hstage.evaluates.mem s)
      fun r => hstage.evaluates.regs s (.preg r) nofun).2 r

theorem lowers_of_materialiseBy {depth : ℕ} (hplaced : Placed g c) (hnode : g.nodes[a]? = some node)
    (hnew : hasValue node = false → a ∉ c.materialised)
    (h : materialiseBy fold g.nodes depth a c = .ok c') : Lowers g cpu fold a node c c' := by
  cases hhas : hasValue node with
  | true =>
    exact lowers_of_hasValue hplaced hnode hhas (resolver_materialiseBy depth a c c' hplaced h)
  | false =>
    exact (acts_of_materialiseBy hplaced (hnew hhas) hnode hhas h).lowers hplaced hnode hhas

/-- A node that is not there cannot be lowered. -/
theorem exists_node_of_materialiseBy {depth : ℕ}
    (hin : ∀ m ∈ c.materialised, ∃ node, g.nodes[m]? = some node)
    (h : materialiseBy fold g.nodes depth a c = .ok c') : ∃ node, g.nodes[a]? = some node := by
  cases depth with
  | zero => cases h
  | succ depth =>
    rw [materialiseBy] at h
    split_ifs at h with ha
    · exact hin a ha
    · obtain ⟨c₁, hc₁, -⟩ := bind_eq_ok.1 h
      cases hnode : g.nodes[a]? with
      | none =>
        rw [hnode] at hc₁
        cases hc₁
      | some node => exact ⟨node, rfl⟩

end Step

/-! ## A packet -/

namespace HostPacket

variable {p : HostPacket} {cpu : Cpu} {fold : ℕ → Port → Option ℕ} {t : ℕ}

theorem lowered_zero : p.lowered fold 0 = .ok p.start :=
  rfl

theorem lowered_succ {a : NodeId} (ha : p.actions[t]? = some a) :
    p.lowered fold (t + 1) =
      p.lowered fold t >>= materialiseBy fold p.graph.nodes (a + 1) a := by
  unfold lowered lowerPacketBy
  rw [List.take_add_one, ha]
  simp only [Option.toList_some, List.foldlM_append, List.foldlM_cons, List.foldlM_nil, bind_pure]

theorem lowered_succ_of_none (ha : p.actions[t]? = none) :
    p.lowered fold (t + 1) = p.lowered fold t := by
  unfold lowered
  rw [List.take_add_one, ha, Option.toList_none, List.append_nil]

theorem contextAt_succ_of_none (ha : p.actions[t]? = none) :
    p.contextAt fold (t + 1) = p.contextAt fold t := by
  unfold contextAt
  rw [lowered_succ_of_none ha]

theorem contextAt_of_lowered {c : Context} (h : p.lowered fold t = .ok c) :
    p.contextAt fold t = c := by
  unfold contextAt
  rw [h]

/-- The context after some actions. -/
def Runs (p : HostPacket) (fold : ℕ → Port → Option ℕ) (t : ℕ) : Prop :=
  p.lowered fold t = .ok (p.contextAt fold t)

theorem runs_of_lowered {c : Context} (h : p.lowered fold t = .ok c) : p.Runs fold t := by
  rw [Runs, contextAt_of_lowered h, h]

theorem Runs.pred (h : p.Runs fold (t + 1)) : p.Runs fold t := by
  cases ha : p.actions[t]? with
  | none =>
    rw [Runs, lowered_succ_of_none ha] at h
    exact runs_of_lowered h
  | some a =>
    rw [Runs, lowered_succ ha] at h
    obtain ⟨c, hc, -⟩ := bind_eq_ok.1 h
    exact runs_of_lowered hc

theorem Runs.mono (h : p.Runs fold t) {j : ℕ} (hle : j ≤ t) : p.Runs fold j := by
  induction t with
  | zero =>
    obtain rfl := Nat.le_zero.1 hle
    exact h
  | succ t ih =>
    rcases Nat.le_succ_iff.1 hle with hle | rfl
    · exact ih h.pred hle
    · exact h

theorem Runs.materialise (h : p.Runs fold (t + 1)) {a : NodeId} (ha : p.actions[t]? = some a) :
    materialiseBy fold p.graph.nodes (a + 1) a (p.contextAt fold t) =
      .ok (p.contextAt fold (t + 1)) := by
  have hpred := h.pred
  rw [Runs, lowered_succ ha, hpred] at h
  exact h

/-- What has been lowered after some actions. -/
structure Progress (p : HostPacket) (fold : ℕ → Port → Option ℕ) (t : ℕ) : Prop where
  grows : Grows p.start (p.contextAt fold t)
  placed : Placed p.graph (p.contextAt fold t)
  reach : ∀ m ∈ (p.contextAt fold t).materialised,
    ∃ j < t, ∃ a, p.actions[j]? = some a ∧ Reaches fold p.graph.nodes a m
  closed : ∀ m ∈ (p.contextAt fold t).materialised, ∃ node, p.graph.nodes[m]? = some node ∧
    (hasValue node ∨ ∃ j < t, p.actions[j]? = some m) ∧
      (∀ d ∈ deps fold p.graph.nodes node, d ∈ (p.contextAt fold t).materialised) ∧
        ((∀ off v, fold off v = none) → Encodable p.graph.nodes node)
  done : ∀ j < t, ∀ a, p.actions[j]? = some a → a ∈ (p.contextAt fold t).materialised

/-- An action occurs once. -/
theorem eq_of_actions {j k : ℕ} {a : NodeId} (hj : p.actions[j]? = some a)
    (hk : p.actions[k]? = some a) : j = k := by
  obtain ⟨hjlt, hja⟩ := List.getElem?_eq_some_iff.1 hj
  obtain ⟨hklt, hka⟩ := List.getElem?_eq_some_iff.1 hk
  exact (List.Nodup.getElem_inj_iff p.nodup).1 (hja.trans hka.symm)

theorem Progress.lowers (cpu : Cpu) (hprogress : p.Progress fold t) (h : p.Runs fold (t + 1))
    {a : NodeId} (ha : p.actions[t]? = some a) :
    ∃ node, p.graph.nodes[a]? = some node ∧
      Lowers p.graph cpu fold a node (p.contextAt fold t) (p.contextAt fold (t + 1)) := by
  have hc := h.materialise ha
  obtain ⟨node, hnode⟩ := exists_node_of_materialiseBy
    (fun m hm => (hprogress.closed m hm).imp fun _ h => h.1) hc
  refine ⟨node, hnode, lowers_of_materialiseBy hprogress.placed hnode (fun hhas hin => ?_) hc⟩
  obtain ⟨node', hnode', hvalue | ⟨j, hj, hja⟩, -⟩ := hprogress.closed a hin
  · obtain rfl := Option.some.inj (hnode.symm.trans hnode')
    exact absurd (hhas.symm.trans hvalue) (by decide)
  · exact absurd (eq_of_actions hja ha) hj.ne

theorem Runs.progress (h : p.Runs fold t) : p.Progress fold t := by
  induction t with
  | zero =>
    have hstart : p.contextAt fold 0 = p.start := contextAt_of_lowered lowered_zero
    refine ⟨hstart ▸ .refl _, ?_, ?_, ?_, fun j hj => absurd hj (Nat.not_lt_zero j)⟩
    · rw [hstart]
      exact ⟨nofun, nofun, nofun⟩
    · rw [hstart]
      exact nofun
    · rw [hstart]
      exact nofun
  | succ t ih =>
    have hprogress := ih h.pred
    cases ha : p.actions[t]? with
    | none =>
      have hsame : p.contextAt fold (t + 1) = p.contextAt fold t := contextAt_succ_of_none ha
      have hlt : ∀ {j a}, j < t + 1 → p.actions[j]? = some a → j < t := by
        intro j a hj hja
        refine lt_of_le_of_ne (Nat.le_of_lt_succ hj) ?_
        rintro rfl
        exact nomatch ha.symm.trans hja
      refine ⟨hsame ▸ hprogress.grows, hsame ▸ hprogress.placed, fun m hm => ?_, fun m hm => ?_,
        fun j hj a hja => hsame ▸ hprogress.done j (hlt hj hja) a hja⟩
      · obtain ⟨j, hj, hreach⟩ := hprogress.reach m (hsame ▸ hm)
        exact ⟨j, Nat.lt_succ_of_lt hj, hreach⟩
      · obtain ⟨node, hnode, hkind, hrest⟩ := hprogress.closed m (hsame ▸ hm)
        rw [hsame]
        exact ⟨node, hnode, hkind.imp_right fun ⟨j, hj, hja⟩ => ⟨j, Nat.lt_succ_of_lt hj, hja⟩,
          hrest⟩
    | some a =>
      obtain ⟨node, hnode, hlowers⟩ :=
        hprogress.lowers ⟨fun _ _ _ _ => (0, ⟨false, false, false, false⟩), 0⟩ h ha
      refine ⟨hprogress.grows.trans hlowers.grows, hlowers.placed, fun m hm => ?_, fun m hm => ?_,
        fun j hj b hb => ?_⟩
      · by_cases hold : m ∈ (p.contextAt fold t).materialised
        · obtain ⟨j, hj, hreach⟩ := hprogress.reach m hold
          exact ⟨j, Nat.lt_succ_of_lt hj, hreach⟩
        · exact ⟨t, Nat.lt_succ_self t, a, ha, hlowers.reach m hm hold⟩
      · by_cases hold : m ∈ (p.contextAt fold t).materialised
        · obtain ⟨node', hnode', hkind, hdeps, hfits⟩ := hprogress.closed m hold
          exact ⟨node', hnode',
            hkind.imp_right fun ⟨j, hj, hja⟩ => ⟨j, Nat.lt_succ_of_lt hj, hja⟩,
            fun d hd => hlowers.grows.sub (hdeps d hd), hfits⟩
        · obtain ⟨node', hnode', hkind, hdeps, hfits, -⟩ := hlowers.new m hm hold
          refine ⟨node', hnode', ?_, hdeps, hfits⟩
          rcases hkind with rfl | hhas
          · exact .inr ⟨t, Nat.lt_succ_self t, ha⟩
          · exact .inl hhas
      · rcases Nat.lt_succ_iff_lt_or_eq.1 hj with hj | rfl
        · exact hlowers.grows.sub (hprogress.done j hj b hb)
        · obtain rfl := Option.some.inj (ha.symm.trans hb)
          exact hlowers.self

/-- The nodes that are materialised are those that are for an action. -/
theorem Progress.mem_iff (h : p.Progress fold t) {m : NodeId} :
    m ∈ (p.contextAt fold t).materialised ↔
      ∃ j < t, ∃ a, p.actions[j]? = some a ∧ Reaches fold p.graph.nodes a m := by
  refine ⟨h.reach m, ?_⟩
  rintro ⟨j, hj, a, ha, hreach⟩
  have hin := h.done j hj a ha
  clear ha
  induction hreach with
  | refl => exact hin
  | tail _ hstep ih =>
    obtain ⟨node, hnode, hd⟩ := hstep
    obtain ⟨node', hnode', -, hdeps, -⟩ := h.closed _ ih
    obtain rfl := Option.some.inj (hnode.symm.trans hnode')
    exact hdeps _ hd

theorem Runs.usedFirst_iff (h : p.Runs fold (t + 1)) {m : NodeId} :
    p.UsedFirst fold t m ↔ m ∈ (p.contextAt fold (t + 1)).materialised ∧
      m ∉ (p.contextAt fold t).materialised := by
  rw [h.progress.mem_iff, h.pred.progress.mem_iff]
  constructor
  · rintro ⟨⟨a, ha, hreach⟩, hfirst⟩
    refine ⟨⟨t, Nat.lt_succ_self t, a, ha, hreach⟩, ?_⟩
    rintro ⟨j, hj, b, hb, hreach'⟩
    exact hfirst j hj b hb hreach'
  · rintro ⟨⟨j, hj, a, ha, hreach⟩, hnot⟩
    rcases Nat.lt_succ_iff_lt_or_eq.1 hj with hlt | rfl
    · exact absurd ⟨j, hlt, a, ha, hreach⟩ hnot
    · exact ⟨⟨a, ha, hreach⟩, fun i hi b hb hreach' => hnot ⟨i, hi, b, hb, hreach'⟩⟩

theorem Runs.stateAt_succ (h : p.Runs fold (t + 1)) (s : State) :
    p.stateAt cpu fold (t + 1) s =
      after cpu (p.contextAt fold t) (p.contextAt fold (t + 1)) (p.stateAt cpu fold t s) := by
  cases ha : p.actions[t]? with
  | none =>
    unfold stateAt
    rw [contextAt_succ_of_none ha, after_of_eq rfl]
  | some a =>
    obtain ⟨node, -, hlowers⟩ := h.pred.progress.lowers cpu h ha
    exact after_trans h.pred.progress.grows hlowers.grows

theorem stateAt_zero (s : State) : p.stateAt cpu fold 0 s = s :=
  after_of_eq (congrArg Context.builder (contextAt_of_lowered lowered_zero))

theorem Runs.stateAt_bp (h : p.Runs fold t) (s : State) :
    (p.stateAt cpu fold t s).regs (.preg .BP) = s.regs (.preg .BP) := by
  induction t with
  | zero => rw [stateAt_zero]
  | succ t ih =>
    rw [h.stateAt_succ]
    cases ha : p.actions[t]? with
    | none =>
      rw [contextAt_succ_of_none ha, after_of_eq rfl, ih h.pred]
    | some a =>
      obtain ⟨node, -, hlowers⟩ := h.pred.progress.lowers cpu h ha
      rw [hlowers.regs, effect_bp, ih h.pred]

/-- A node has the value of the memory in which it was materialised, and of its operands. -/
theorem Runs.value_at (h : p.Runs fold t) (s : State) {m : NodeId}
    (hm : m ∈ (p.contextAt fold t).materialised) {node : Node}
    (hnode : p.graph.nodes[m]? = some node) (hhas : hasValue node) :
    ∃ j < t, p.UsedFirst fold j m ∧ ∀ k vt, portType node k = some vt →
      portValue p.graph.nodes (p.contextAt fold t) (p.stateAt cpu fold t s) m k =
        nodeValue cpu p.pc (s.regs (.preg .BP)).toNat (p.stateAt cpu fold j s).mem
          (args p.graph.nodes (p.contextAt fold t) (p.stateAt cpu fold t s)) node k := by
  induction t with
  | zero =>
    rw [contextAt_of_lowered lowered_zero] at hm
    exact absurd hm List.not_mem_nil
  | succ t ih =>
    cases ha : p.actions[t]? with
    | none =>
      have hsame : p.contextAt fold (t + 1) = p.contextAt fold t := contextAt_succ_of_none ha
      obtain ⟨j, hj, hfirst, hvalue⟩ := ih h.pred (hsame ▸ hm)
      have hstate : p.stateAt cpu fold (t + 1) s = p.stateAt cpu fold t s := by
        rw [h.stateAt_succ, hsame, after_of_eq rfl]
      rw [hsame, hstate]
      exact ⟨j, Nat.lt_succ_of_lt hj, hfirst, hvalue⟩
    | some a =>
      have hprogress := h.pred.progress
      obtain ⟨actionNode, -, hlowers⟩ := hprogress.lowers cpu h ha
      by_cases hold : m ∈ (p.contextAt fold t).materialised
      · obtain ⟨j, hj, hfirst, hvalue⟩ := ih h.pred hold
        refine ⟨j, Nat.lt_succ_of_lt hj, hfirst, fun k vt hvt => ?_⟩
        rw [h.stateAt_succ, hlowers.keep m hold, hvalue k vt hvt]
        refine nodeValue_congr fun o ho => (hlowers.keep o.owner ?_ o.kind _).symm
        obtain ⟨node', hnode', -, hdeps, -⟩ := hprogress.closed m hold
        obtain rfl := Option.some.inj (hnode.symm.trans hnode')
        refine hdeps o.owner ?_
        rw [deps_of_hasValue hhas]
        exact List.mem_map_of_mem ho
      · obtain ⟨node', hnode', -, -, -, hcomputed⟩ := hlowers.new m hm hold
        obtain rfl := Option.some.inj (hnode.symm.trans hnode')
        refine ⟨t, Nat.lt_succ_self t, h.usedFirst_iff.2 ⟨hm, hold⟩, fun k vt hvt => ?_⟩
        rw [h.stateAt_succ, (hcomputed hhas).value node hnode k vt hvt, h.pred.stateAt_bp,
          hprogress.grows.pc]
        rfl

end HostPacket

/-! ## The shortcut -/

section Shortcut

variable {g : Graph}

/-- The nodes that are taken in place. -/
theorem nodes_of_decrement {nodes : List Node} {off k : ℕ} {value : Port}
    (h : decrement nodes off value = some k) :
    ∃ l r vt idx name vt', nodes[value.owner]? = some (.binaryArith .sub l r) ∧
      nodes[l.owner]? = some (.readReg vt off idx name) ∧
        nodes[r.owner]? = some (.constant vt' k) := by
  unfold decrement at h
  split at h
  · next l r hvalue =>
    split at h
    · next vt off' idx name vt' k' hl hr =>
      split_ifs at h with hoff
      obtain rfl := Option.some.inj h
      exact ⟨l, r, vt, idx, name, vt', hvalue, hoff ▸ hl, hr⟩
    · exact nomatch h
  · exact nomatch h

theorem deps_of_ordinary {fold : ℕ → Port → Option ℕ} {node : Node} (h : Ordinary fold node) :
    deps fold g.nodes node = deps plain g.nodes node := by
  cases node with
  | writeReg off idx name value => simp only [deps, h off idx name value rfl, plain]
  | _ => rfl

/-- What is materialised for a node is with the shortcut no more. -/
theorem deps_subset {fold : ℕ → Port → Option ℕ} {node : Node} :
    deps fold g.nodes node ⊆ deps plain g.nodes node := by
  cases node with
  | writeReg off idx name value =>
    cases hfold : fold off value with
    | none =>
      rw [deps_of_ordinary fun _ _ _ _ heq => by cases heq; exact hfold]
      exact List.Subset.refl _
    | some k =>
      rw [deps_of_fold hfold]
      exact List.nil_subset _
  | _ => exact List.Subset.refl _

theorem reaches_plain {fold : ℕ → Port → Option ℕ} {n m : NodeId}
    (h : Reaches fold g.nodes n m) : Reaches plain g.nodes n m :=
  Relation.ReflTransGen.mono (fun _ _ ⟨node, hnode, hd⟩ => ⟨node, hnode, deps_subset hd⟩) _ _ h

/-- What a node needs has values. -/
theorem hasValue_of_deps {node : Node} (h : Encodable g.nodes node) {d : NodeId}
    (hd : d ∈ deps plain g.nodes node) : ∃ node', g.nodes[d]? = some node' ∧ hasValue node' := by
  have hport : ∀ {o : Port}, HasPort g.nodes o →
      ∃ node', g.nodes[o.owner]? = some node' ∧ hasValue node' :=
    fun ⟨node', _, hnode', hvt⟩ => ⟨node', hnode', hasValue_of_portType hvt⟩
  cases node with
  | readMem vt a =>
    obtain rfl := List.mem_singleton.1 hd
    exact hport h.1
  | cast op vt v convert =>
    obtain rfl := List.mem_singleton.1 hd
    exact hport h.1
  | binaryArith op l r =>
    rcases List.mem_cons.1 hd with rfl | hd
    · exact hport h.1
    · obtain rfl := List.mem_singleton.1 hd
      exact hport h.2.1
  | writeMem a v =>
    rcases List.mem_cons.1 hd with rfl | hd
    · exact hport h.1
    · obtain rfl := List.mem_singleton.1 hd
      exact hport h.2.1
  | writePc v brType target =>
    obtain rfl := List.mem_singleton.1 hd
    exact hport h.1
  | writeReg off idx name v =>
    by_cases hconst : ∃ vt k, g.nodes[v.owner]? = some (.constant vt k)
    · obtain ⟨vt, k, hconst⟩ := hconst
      rw [deps_of_constant rfl hconst] at hd
      exact absurd hd List.not_mem_nil
    · rw [deps_of_ne_constant rfl fun vt k heq => hconst ⟨vt, k, heq⟩] at hd
      obtain rfl := List.mem_singleton.1 hd
      exact hport (h.2.resolve_left hconst)
  | readReg | constant | readPc => exact absurd hd List.not_mem_nil
  | _ => exact h.elim

/-- Below a node with a value nothing is done in place. -/
theorem reaches_of_hasValue {fold : ℕ → Port → Option ℕ} {n m : NodeId} {node : Node}
    (hnode : g.nodes[n]? = some node) (hhas : hasValue node)
    (hfits : ∀ m node, Reaches plain g.nodes n m → g.nodes[m]? = some node →
      Encodable g.nodes node) (h : Reaches plain g.nodes n m) : Reaches fold g.nodes n m := by
  induction h using Relation.ReflTransGen.head_induction_on generalizing node with
  | refl => exact .refl
  | @head n d hstep hrest ih =>
    obtain ⟨node', hnode', hd⟩ := hstep
    obtain rfl := Option.some.inj (hnode.symm.trans hnode')
    obtain ⟨dep, hdep, hhas'⟩ := hasValue_of_deps (hfits n node .refl hnode) hd
    have hrest' := ih hdep hhas' fun m' node' hreach =>
      hfits m' node' (.head ⟨node, hnode, hd⟩ hreach)
    rw [deps_of_hasValue hhas, ← deps_of_hasValue hhas] at hd
    exact .head ⟨node, hnode, hd⟩ hrest'

/-- What is not materialised with the shortcut is of an action that is done in place. -/
theorem reaches_or {fold : ℕ → Port → Option ℕ} {a m : NodeId} {node : Node}
    (hnode : g.nodes[a]? = some node)
    (hfits : ∀ m node, Reaches plain g.nodes a m → g.nodes[m]? = some node →
      Encodable g.nodes node) (h : Reaches plain g.nodes a m) :
    Reaches fold g.nodes a m ∨ ∃ off idx name value, node = .writeReg off idx name value ∧
      (fold off value).isSome ∧ Reaches plain g.nodes value.owner m := by
  rcases Relation.ReflTransGen.cases_head h with rfl | ⟨d, ⟨node', hnode', hd⟩, hrest⟩
  · exact .inl .refl
  obtain rfl := Option.some.inj (hnode.symm.trans hnode')
  obtain ⟨dep, hdep, hhas⟩ := hasValue_of_deps (hfits a node .refl hnode) hd
  have hrest' : Reaches fold g.nodes d m := reaches_of_hasValue hdep hhas
    (fun m' node' hreach => hfits m' node' (.head ⟨node, hnode, hd⟩ hreach)) hrest
  by_cases hdeps : d ∈ deps fold g.nodes node
  · exact .inl (.head ⟨node, hnode, hdeps⟩ hrest')
  · refine .inr ?_
    cases node with
    | writeReg off idx name value =>
      cases hfold : fold off value with
      | none =>
        rw [deps_of_ordinary fun _ _ _ _ heq => by cases heq; exact hfold] at hdeps
        exact absurd hd hdeps
      | some k =>
        refine ⟨off, idx, name, value, rfl, by rw [hfold]; rfl, ?_⟩
        by_cases hconst : ∃ vt k, g.nodes[value.owner]? = some (.constant vt k)
        · obtain ⟨vt, k', hconst⟩ := hconst
          rw [deps_of_constant rfl hconst] at hd
          exact absurd hd List.not_mem_nil
        · rw [deps_of_ne_constant rfl fun vt k' heq => hconst ⟨vt, k', heq⟩] at hd
          obtain rfl := List.mem_singleton.1 hd
          exact hrest
    | _ => exact absurd hd hdeps

theorem portValue_of_portType_none {c : Context} {s : State} {n : NodeId} {k : PortKind}
    {node : Node} (hnode : g.nodes[n]? = some node) (h : portType node k = none) :
    portValue g.nodes c s n k = 0 := by
  unfold portValue
  rw [hnode, Option.bind_some, h]
  cases c.ports (n, k) <;> rfl

/-- An ordinary action does what it does without the shortcut, with the same operands. -/
theorem effect_of_ordinary {cpu : Cpu} {fold : ℕ → Port → Option ℕ} {node : Node}
    {arg arg' : Port → ℕ} {s : State} (h : Ordinary fold node)
    (hargs : ∀ o ∈ node.operands, o.owner ∈ deps plain g.nodes node → arg o = arg' o) :
    effect cpu fold g.nodes arg s node = effect cpu plain g.nodes arg' s node := by
  cases node with
  | writeReg off idx name v =>
    have hfold := h off idx name v rfl
    by_cases hconst : ∃ vt k, g.nodes[v.owner]? = some (.constant vt k)
    · obtain ⟨vt, k, hconst⟩ := hconst
      rw [effect, effect, writtenValue_of_constant hfold hconst,
        writtenValue_of_constant rfl hconst]
    · have hne : ∀ vt k, g.nodes[v.owner]? ≠ some (.constant vt k) :=
        fun vt k heq => hconst ⟨vt, k, heq⟩
      have hv := hargs v List.mem_cons_self (by
        rw [deps_of_ne_constant rfl hne]
        exact List.mem_cons_self)
      rw [effect, effect, writtenValue_of_ne_constant hfold hne,
        writtenValue_of_ne_constant rfl hne, hv]
  | writeMem a v =>
    have ha := hargs a List.mem_cons_self List.mem_cons_self
    have hv := hargs v (List.mem_cons_of_mem a List.mem_cons_self)
      (List.mem_cons_of_mem a.owner List.mem_cons_self)
    simp only [effect, ha, hv]
  | writePc v brType target =>
    have hv := hargs v List.mem_cons_self List.mem_cons_self
    simp only [effect, hv]
  | _ => rfl

end Shortcut

namespace HostPacket

variable {p : HostPacket} {cpu : Cpu} {fold : ℕ → Port → Option ℕ} {t : ℕ} {a : NodeId}

theorem usedFirst_unique {i j : ℕ} {n : NodeId} (hi : p.UsedFirst fold i n)
    (hj : p.UsedFirst fold j n) : i = j := by
  obtain ⟨⟨a, ha, hreach⟩, hfirst⟩ := hi
  obtain ⟨⟨b, hb, hreach'⟩, hfirst'⟩ := hj
  rcases Nat.lt_trichotomy i j with hlt | heq | hlt
  · exact absurd hreach (hfirst' i hlt a ha)
  · exact heq
  · exact absurd hreach' (hfirst j hlt b hb)

/-- There are instructions for all that an action needs. -/
theorem Runs.encodable (h : p.Runs plain (t + 1)) (ha : p.actions[t]? = some a) {m : NodeId}
    {node : Node} (hreach : Reaches plain p.graph.nodes a m)
    (hnode : p.graph.nodes[m]? = some node) : Encodable p.graph.nodes node := by
  have hm := h.progress.mem_iff.2 ⟨t, Nat.lt_succ_self t, a, ha, hreach⟩
  obtain ⟨node', hnode', -, -, hfits⟩ := h.progress.closed m hm
  obtain rfl := Option.some.inj (hnode.symm.trans hnode')
  exact hfits fun _ _ => rfl

/-- A `read_reg` has the value of the guest register when it was read. -/
theorem Runs.readReg_value (h : p.Runs fold t) (s : State) {n : NodeId} {vt : ValueType}
    {off idx : ℕ} {name : String} (hn : n ∈ (p.contextAt fold t).materialised)
    (hnode : p.graph.nodes[n]? = some (.readReg vt off idx name)) :
    ∃ j < t, p.UsedFirst fold j n ∧
      portValue p.graph.nodes (p.contextAt fold t) (p.stateAt cpu fold t s) n .value =
        guestReg (p.stateAt cpu fold j s) vt off := by
  obtain ⟨j, hj, hfirst, hvalue⟩ := h.value_at s hn hnode rfl
  refine ⟨j, hj, hfirst, ?_⟩
  rw [hvalue .value vt rfl, guestReg, regAddress, (h.mono hj.le).stateAt_bp]
  rfl

/-- The difference that is written without the shortcut. -/
theorem Runs.difference_value (h : p.Runs plain (t + 1)) (s : State) {off idx k : ℕ}
    {name : String} {value : Port} (ha : p.actions[t]? = some a)
    (hnode : p.graph.nodes[a]? = some (.writeReg off idx name value))
    (hdecrement : decrement p.graph.nodes off value = some k)
    (hw : value.type.elementWidth ≠ 1) :
    ∃ l r vt idx' name', p.graph.nodes[value.owner]? = some (.binaryArith .sub l r) ∧
      p.graph.nodes[l.owner]? = some (.readReg vt off idx' name') ∧
        vt.elementWidth = value.type.elementWidth ∧
          value.type.elementWidth ∈ moveWidths ∧ ∃ j < t + 1, p.UsedFirst plain j l.owner ∧
            args p.graph.nodes (p.contextAt plain (t + 1)) (p.stateAt cpu plain (t + 1) s) value =
              (cpu.alu .SUB value.type.elementWidth (guestReg (p.stateAt cpu plain j s) vt off)
                (k % 2 ^ value.type.elementWidth)).1 % 2 ^ value.type.elementWidth := by
  obtain ⟨l, r, vt, idx', name', vt', hb, hl, hr⟩ := nodes_of_decrement hdecrement
  have hne : ∀ vt k, p.graph.nodes[value.owner]? ≠ some (.constant vt k) :=
    fun vt k heq => nomatch hb.symm.trans heq
  have hdeps : value.owner ∈ deps plain p.graph.nodes (.writeReg off idx name value) := by
    rw [deps_of_ne_constant rfl hne]
    exact List.mem_cons_self
  have hreachb : Reaches plain p.graph.nodes a value.owner :=
    .single ⟨_, hnode, hdeps⟩
  have hreachl : Reaches plain p.graph.nodes a l.owner :=
    hreachb.tail ⟨_, hb, List.mem_cons_self⟩
  have hreachr : Reaches plain p.graph.nodes a r.owner :=
    hreachb.tail ⟨_, hb, List.mem_cons_of_mem _ List.mem_cons_self⟩
  have hin : ∀ {m}, Reaches plain p.graph.nodes a m →
      m ∈ (p.contextAt plain (t + 1)).materialised :=
    fun hreach => h.progress.mem_iff.2 ⟨t, Nat.lt_succ_self t, a, ha, hreach⟩
  -- the port is that of the value, since those of flags have one bit
  obtain ⟨-, hport⟩ := h.encodable ha .refl hnode
  obtain ⟨bnode, bvt, hbnode, hbvt⟩ := hport.resolve_left fun ⟨vt, k, heq⟩ => hne vt k heq
  obtain rfl := Option.some.inj (hb.symm.trans hbnode)
  have htype : value.type = bvt :=
    p.graph.typed a _ hnode value List.mem_cons_self _ bvt hb hbvt
  have hkind : value.kind = .value ∧ value.type = l.type := by
    rw [htype]
    cases hkind : value.kind with
    | value =>
      rw [hkind] at hbvt
      exact ⟨rfl, (Option.some.inj hbvt).symm⟩
    | zero | negative | overflow | carry =>
      rw [hkind] at hbvt
      obtain rfl := Option.some.inj hbvt
      exact absurd (congrArg ValueType.elementWidth htype) hw
    | constant | operationValue =>
      rw [hkind] at hbvt
      exact nomatch hbvt
  obtain ⟨⟨lnode, lvt, hlnode, hlvt⟩, ⟨rnode, rvt, hrnode, hrvt⟩, hwidth, hwidths, -⟩ :=
    h.encodable ha hreachb hb
  obtain rfl := Option.some.inj (hl.symm.trans hlnode)
  obtain rfl := Option.some.inj (hr.symm.trans hrnode)
  have hltype : l.type = lvt :=
    p.graph.typed value.owner _ hb l List.mem_cons_self _ lvt hl hlvt
  have hrtype : r.type = rvt :=
    p.graph.typed value.owner _ hb r (List.mem_cons_of_mem l List.mem_cons_self) _ rvt hr hrvt
  have hlkind : l.kind = .value ∧ vt = lvt := by
    cases hkind : l.kind <;> rw [hkind] at hlvt <;> cases hlvt
    exact ⟨rfl, rfl⟩
  have hrkind : r.kind = .value ∧ vt' = rvt := by
    cases hkind : r.kind <;> rw [hkind] at hrvt <;> cases hrvt
    exact ⟨rfl, rfl⟩
  obtain ⟨rfl, rfl⟩ : lvt = vt ∧ rvt = vt' := ⟨hlkind.2.symm, hrkind.2.symm⟩
  have hwl : regWidth l.type.elementWidth = value.type.elementWidth := by
    rw [← hkind.2]
    exact if_neg hw
  obtain ⟨j, hj, hfirst, hlvalue⟩ := h.readReg_value s (hin hreachl) hl
  obtain ⟨i, -, -, hrvalue⟩ := h.value_at s (hin hreachr) hr rfl
  obtain ⟨i', -, -, hbvalue⟩ := h.value_at s (hin hreachb) hb rfl
  refine ⟨l, r, lvt, idx', name', hb, hl, by rw [← hltype, ← hkind.2], hwl ▸ hwidths, j, hj,
    hfirst, ?_⟩
  have hargl : args p.graph.nodes (p.contextAt plain (t + 1)) (p.stateAt cpu plain (t + 1) s) l =
      guestReg (p.stateAt cpu plain j s) lvt off := by
    rw [args, hlkind.1, hlvalue]
  have hargr : args p.graph.nodes (p.contextAt plain (t + 1)) (p.stateAt cpu plain (t + 1) s) r =
      k % 2 ^ value.type.elementWidth := by
    rw [args, hrkind.1, hrvalue .value rvt rfl, nodeValue, ← hrtype, ← hwidth, hwl]
  rw [args, hkind.1, hbvalue .value l.type rfl, nodeValue, hargl, hargr, hwl]
  rfl

theorem pow_of_mem {w : ℕ} (h : w ∈ moveWidths) : 256 ^ (w / 8) = 2 ^ w := by
  simp only [List.mem_cons, List.not_mem_nil, or_false] at h
  obtain rfl | rfl | rfl | rfl := h <;> rfl

/-- A store takes the low bits. -/
theorem store_inj {w : ℕ} (h : w ∈ moveWidths) {mem : ℕ → ℕ} {b x y : ℕ} :
    Guest.store mem b x (w / 8) = Guest.store mem b y (w / 8) ↔ x % 2 ^ w = y % 2 ^ w := by
  have hlen : w / 8 ≤ 2 ^ 64 := by
    simp only [List.mem_cons, List.not_mem_nil, or_false] at h
    omega
  rw [← pow_of_mem h]
  constructor
  · intro heq
    rw [← Guest.load_store_self hlen, heq, Guest.load_store_self hlen]
  · intro heq
    rw [← Guest.store_mod hlen, heq, Guest.store_mod hlen]

/-- A difference tells its first operands apart. -/
theorem sub_inj {cpu : SubCpu} {w x x' y : ℕ} :
    (cpu.alu .SUB w x y).1 % 2 ^ w = (cpu.alu .SUB w x' y).1 % 2 ^ w ↔
      x % 2 ^ w = x' % 2 ^ w := by
  rw [cpu.sub, cpu.sub]
  exact ⟨fun h => Nat.ModEq.add_right_cancel' _ h, fun h => Nat.ModEq.add_right _ h⟩

section InPlace

variable {off idx k : ℕ} {name : String} {value : Port}

theorem Runs.notMem (h : p.Runs fold t) (ha : p.actions[t]? = some a)
    {node : Node} (hnode : p.graph.nodes[a]? = some node) (hhas : hasValue node = false) :
    a ∉ (p.contextAt fold t).materialised := by
  intro hin
  obtain ⟨node', hnode', hvalue | ⟨j, hj, hja⟩, -⟩ := h.progress.closed a hin
  · obtain rfl := Option.some.inj (hnode.symm.trans hnode')
    exact absurd (hhas.symm.trans hvalue) (by decide)
  · exact absurd (eq_of_actions hja ha) hj.ne

/-- There is code for what is done in place, unless it has one bit. -/
theorem Runs.inPlace_iff (h : p.Runs (decrement p.graph.nodes) t) (ha : p.actions[t]? = some a)
    (hnode : p.graph.nodes[a]? = some (.writeReg off idx name value))
    (hdecrement : decrement p.graph.nodes off value = some k)
    (hwidths : regWidth value.type.elementWidth ∈ moveWidths) :
    p.Runs (decrement p.graph.nodes) (t + 1) ↔ value.type.elementWidth ≠ 1 := by
  have hmat : materialiseBy (decrement p.graph.nodes) p.graph.nodes (a + 1) a
      (p.contextAt (decrement p.graph.nodes) t) = (do
        let c ← (p.contextAt (decrement p.graph.nodes) t).append
          (Instruction.sub (.guestreg value.type.elementWidth off)
            ⟨.imm k, value.type.elementWidth, false, false⟩)
        return { c with materialised := a :: c.materialised }) := by
    have hwrite : ∀ mat c, materialiseWriteRegBy (decrement p.graph.nodes) p.graph.nodes mat off
        value c = c.append (Instruction.sub (.guestreg value.type.elementWidth off)
          ⟨.imm k, value.type.elementWidth, false, false⟩) := by
      intro mat c
      unfold materialiseWriteRegBy
      rw [hdecrement]
    rw [materialiseBy, if_neg (h.notMem ha hnode rfl), hnode]
    exact congrArg (· >>= _) (hwrite _ _)
  constructor
  · intro hruns hw
    have hok := hruns.materialise ha
    rw [hmat, hw] at hok
    cases hok
  · intro hw
    have hself : regWidth value.type.elementWidth = value.type.elementWidth := if_neg hw
    have hsub : Instruction.sub (.guestreg value.type.elementWidth off)
        ⟨.imm k, value.type.elementWidth, false, false⟩ = .ok _ :=
      if_pos ⟨hself, hwidths, (by decide : (Form.m, Form.i) ∈ [(Form.r, Form.r), (.r, .m), (.m, .r),
        (.r, .i), (.m, .i)])⟩
    obtain ⟨c, hok⟩ : ∃ c, p.lowered (decrement p.graph.nodes) (t + 1) = .ok c := by
      rw [lowered_succ ha, h]
      exact ⟨_, hmat.trans (bind_eq_ok.2 ⟨_, append_eq_ok.2 ⟨_, hsub, rfl⟩, rfl⟩)⟩
    exact runs_of_lowered hok

/-- Memory after a `write_reg`. -/
theorem Runs.mem_writeReg (h : p.Runs fold (t + 1)) (s : State) (ha : p.actions[t]? = some a)
    (hnode : p.graph.nodes[a]? = some (.writeReg off idx name value)) :
    (p.stateAt cpu fold (t + 1) s).mem =
      Guest.store (p.stateAt cpu fold t s).mem (regAddress s off)
        (writtenValue cpu fold p.graph.nodes
          (args p.graph.nodes (p.contextAt fold (t + 1)) (p.stateAt cpu fold (t + 1) s))
          (Guest.load (p.stateAt cpu fold t s).mem (regAddress s off)
            (regWidth value.type.elementWidth / 8)) off value)
        (regWidth value.type.elementWidth / 8) := by
  obtain ⟨node, hnode', hlowers⟩ := h.pred.progress.lowers cpu h ha
  obtain rfl := Option.some.inj (hnode.symm.trans hnode')
  rw [h.stateAt_succ, hlowers.mem, effect, regAddress, h.pred.stateAt_bp]
  rfl

/-- A difference is written in place as it is without the shortcut exactly if the register has the
value that it had when it was read. -/
theorem inPlace_mem_iff {cpu : SubCpu} (hplain : p.Runs plain (t + 1))
    (hfast : p.Runs (decrement p.graph.nodes) (t + 1)) (s : State)
    (hmem : (p.stateAt cpu.toCpu (decrement p.graph.nodes) t s).mem =
      (p.stateAt cpu.toCpu plain t s).mem) (ha : p.actions[t]? = some a)
    (hnode : p.graph.nodes[a]? = some (.writeReg off idx name value))
    (hdecrement : decrement p.graph.nodes off value = some k)
    (hw : value.type.elementWidth ≠ 1) :
    ∃ l r vt idx' name', p.graph.nodes[value.owner]? = some (.binaryArith .sub l r) ∧
      p.graph.nodes[l.owner]? = some (.readReg vt off idx' name') ∧
        ∃ j < t + 1, p.UsedFirst plain j l.owner ∧
          ((p.stateAt cpu.toCpu (decrement p.graph.nodes) (t + 1) s).mem =
            (p.stateAt cpu.toCpu plain (t + 1) s).mem ↔
              guestReg (p.stateAt cpu.toCpu plain t s) vt off =
                guestReg (p.stateAt cpu.toCpu plain j s) vt off) := by
  obtain ⟨l, r, vt, idx', name', hb, hl, hvt, hwidths, j, hj, hfirst, hargs⟩ :=
    hplain.difference_value s ha hnode hdecrement hw
  refine ⟨l, r, vt, idx', name', hb, hl, j, hj, hfirst, ?_⟩
  have hne : ∀ vt k, p.graph.nodes[value.owner]? ≠ some (.constant vt k) :=
    fun vt k heq => nomatch hb.symm.trans heq
  have hself := regWidth_of_mem hwidths
  rw [hplain.mem_writeReg s ha hnode, hfast.mem_writeReg s ha hnode,
    writtenValue_of_fold hdecrement, writtenValue_of_ne_constant rfl hne, hargs, hmem, hself,
    store_inj hwidths, Nat.mod_mod, sub_inj]
  unfold guestReg regAddress
  rw [hplain.pred.stateAt_bp, (hplain.mono (Nat.le_of_lt_succ hj |>.trans t.le_succ)).stateAt_bp,
    hvt, hself, Nat.mod_mod]

end InPlace

/-! ## Agreement -/

/-- The code of the first actions with and without the shortcut. -/
def AgreesAt (p : HostPacket) (cpu : Cpu) (t : ℕ) (s : State) : Prop :=
  Agrees p.graph (p.contextAt plain t) (p.stateAt cpu plain t s)
    (p.contextAt (decrement p.graph.nodes) t) (p.stateAt cpu (decrement p.graph.nodes) t s)

/-- What has been computed is kept. -/
theorem Runs.keep (h : p.Runs fold (t + 1)) (s : State) {m : NodeId}
    (hm : m ∈ (p.contextAt fold t).materialised) (k : PortKind) :
    portValue p.graph.nodes (p.contextAt fold (t + 1)) (p.stateAt cpu fold (t + 1) s) m k =
      portValue p.graph.nodes (p.contextAt fold t) (p.stateAt cpu fold t s) m k := by
  rw [h.stateAt_succ]
  cases ha : p.actions[t]? with
  | none => rw [contextAt_succ_of_none ha, after_of_eq rfl]
  | some a =>
    obtain ⟨node, -, hlowers⟩ := h.pred.progress.lowers cpu h ha
    exact hlowers.keep m hm k _

theorem reaches_leaf {n m : NodeId} {node : Node} (hnode : p.graph.nodes[n]? = some node)
    (hdeps : deps fold p.graph.nodes node = []) (h : Reaches fold p.graph.nodes n m) : m = n := by
  rcases Relation.ReflTransGen.cases_head h with rfl | ⟨d, ⟨node', hnode', hd⟩, -⟩
  · rfl
  · obtain rfl := Option.some.inj (hnode.symm.trans hnode')
    rw [hdeps] at hd
    exact absurd hd List.not_mem_nil

/-- A node that is materialised late is the difference that was done in place, or one of its
operands. It is no load. -/
theorem ne_readMem_of_late (h : p.Runs plain (t + 1)) {j : ℕ} (hj : j < t) {m : NodeId}
    (hplain : p.UsedFirst plain j m) (hfast : p.UsedFirst (decrement p.graph.nodes) t m)
    (vt : ValueType) (address : Port) : p.graph.nodes[m]? ≠ some (.readMem vt address) := by
  intro hm
  obtain ⟨⟨a, ha, hreach⟩, -⟩ := hplain
  have hruns : p.Runs plain (j + 1) := h.mono (Nat.succ_le_succ hj.le)
  obtain ⟨node, hnode, -, -⟩ :=
    hruns.progress.closed a (hruns.progress.done j (Nat.lt_succ_self j) a ha)
  rcases reaches_or hnode (fun _ _ => hruns.encodable ha) hreach with
    hfast' | ⟨off, idx, name, value, rfl, hsome, hreach'⟩
  · exact hfast.2 j hj a ha hfast'
  obtain ⟨k, hk⟩ := Option.isSome_iff_exists.1 hsome
  obtain ⟨l, r, vt', idx', name', vt'', hb, hl, hr⟩ := nodes_of_decrement hk
  rcases Relation.ReflTransGen.cases_head hreach' with rfl | ⟨d, ⟨node', hnode', hd⟩, hrest⟩
  · exact nomatch hb.symm.trans hm
  obtain rfl := Option.some.inj (hb.symm.trans hnode')
  rcases List.mem_cons.1 hd with rfl | hd
  · obtain rfl := reaches_leaf hl rfl hrest
    exact nomatch hl.symm.trans hm
  · obtain rfl := List.mem_singleton.1 hd
    obtain rfl := reaches_leaf hr rfl hrest
    exact nomatch hr.symm.trans hm

section AgreementStep

variable {s : State}

theorem values_step (hplain : p.Runs plain (t + 1))
    (hfast : p.Runs (decrement p.graph.nodes) (t + 1)) (hagree : p.AgreesAt cpu t s)
    (hreads : ∀ n vt off idx name, p.graph.nodes[n]? = some (.readReg vt off idx name) →
      p.UsedFirst (decrement p.graph.nodes) t n → ∀ j < t, p.UsedFirst plain j n →
        guestReg (p.stateAt cpu plain t s) vt off = guestReg (p.stateAt cpu plain j s) vt off) :
    ∀ m ∈ (p.contextAt (decrement p.graph.nodes) (t + 1)).materialised,
      m ∈ (p.contextAt plain (t + 1)).materialised ∧ ∀ k,
        portValue p.graph.nodes (p.contextAt (decrement p.graph.nodes) (t + 1))
            (p.stateAt cpu (decrement p.graph.nodes) (t + 1) s) m k =
          portValue p.graph.nodes (p.contextAt plain (t + 1)) (p.stateAt cpu plain (t + 1) s) m
            k := by
  intro m
  induction m using Nat.strong_induction_on with
  | _ m ih =>
  intro hm
  have hmplain : m ∈ (p.contextAt plain (t + 1)).materialised := by
    obtain ⟨j, hj, a, ha, hreach⟩ := hfast.progress.mem_iff.1 hm
    exact hplain.progress.mem_iff.2 ⟨j, hj, a, ha, reaches_plain hreach⟩
  refine ⟨hmplain, fun k => ?_⟩
  by_cases hold : m ∈ (p.contextAt (decrement p.graph.nodes) t).materialised
  · obtain ⟨hold', hvalue⟩ := hagree.values m hold
    rw [hfast.keep s hold, hplain.keep s hold', hvalue]
  have hfirst : p.UsedFirst (decrement p.graph.nodes) t m := hfast.usedFirst_iff.2 ⟨hm, hold⟩
  obtain ⟨node, hnode, -, hdeps, -⟩ := hfast.progress.closed m hm
  cases hvt : portType node k with
  | none => rw [portValue_of_portType_none hnode hvt, portValue_of_portType_none hnode hvt]
  | some vt =>
    have hhas := hasValue_of_portType hvt
    obtain ⟨i, -, hfirst', hvalue⟩ := hfast.value_at s hm hnode hhas
    obtain rfl := usedFirst_unique hfirst hfirst'
    obtain ⟨j, hj, hfirst'', hvalue'⟩ := hplain.value_at s hmplain hnode hhas
    rw [hvalue k vt hvt, hvalue' k vt hvt, hagree.mem]
    have hargs : ∀ o ∈ node.operands,
        args p.graph.nodes (p.contextAt (decrement p.graph.nodes) (t + 1))
            (p.stateAt cpu (decrement p.graph.nodes) (t + 1) s) o =
          args p.graph.nodes (p.contextAt plain (t + 1)) (p.stateAt cpu plain (t + 1) s) o := by
      intro o ho
      have howner : o.owner ∈ deps (decrement p.graph.nodes) p.graph.nodes node := by
        rw [deps_of_hasValue hhas]
        exact List.mem_map_of_mem ho
      exact (ih o.owner (p.graph.operand_lt m node hnode o ho) (hdeps o.owner howner)).2 o.kind
    rw [nodeValue_congr hargs]
    rcases Nat.lt_succ_iff_lt_or_eq.1 hj with hlt | rfl
    · -- a register that is read again, or a node that does not depend on memory
      by_cases hreg : ∃ vt off idx name, node = .readReg vt off idx name
      · obtain ⟨vt', off, idx, name, rfl⟩ := hreg
        have hsame := hreads m vt' off idx name hnode hfirst j hlt hfirst''
        unfold guestReg regAddress at hsame
        rw [hplain.pred.stateAt_bp, (hplain.mono (Nat.le_succ_of_le hlt.le)).stateAt_bp] at hsame
        exact hsame
      · refine nodeValue_mem (fun vt off idx name heq => hreg ⟨vt, off, idx, name, heq⟩) ?_
        rintro vt' address rfl
        exact ne_readMem_of_late hplain hlt hfirst'' hfirst vt' address hnode
    · rfl

/-- What is done in place, or not. -/
theorem ordinary_or (node : Node) : Ordinary fold node ∨ ∃ off idx name value k,
    node = .writeReg off idx name value ∧ fold off value = some k := by
  by_cases h : ∃ off idx name value k, node = .writeReg off idx name value ∧
      fold off value = some k
  · exact .inr h
  · refine .inl fun off idx name value heq => ?_
    cases hfold : fold off value with
    | none => rfl
    | some k => exact absurd ⟨off, idx, name, value, k, heq, hfold⟩ h

/-- There is code with the shortcut if there is code without. -/
theorem exists_fast (hplain : p.Runs plain (t + 1)) (hfast : p.Runs (decrement p.graph.nodes) t)
    (hwidth : ∀ off value, p.InPlaceAt t off value → value.type.elementWidth ≠ 1) :
    p.Runs (decrement p.graph.nodes) (t + 1) := by
  cases ha : p.actions[t]? with
  | none =>
    rw [Runs, lowered_succ_of_none ha, contextAt_succ_of_none ha]
    exact hfast
  | some a =>
    obtain ⟨node, hnode, -, -⟩ :=
      hplain.progress.closed a (hplain.progress.done t (Nat.lt_succ_self t) a ha)
    rcases ordinary_or node with hordinary | ⟨off, idx, name, value, k, rfl, hk⟩
    · obtain ⟨c, hc⟩ := exists_materialiseBy
        ⟨fun _ _ _ _ => (0, ⟨false, false, false, false⟩), 0⟩ (a + 1) a
        (p.contextAt (decrement p.graph.nodes) t) node (Nat.lt_succ_self a) hfast.progress.placed
        hnode hordinary fun m node' hreach hnode' =>
          hplain.encodable ha (reaches_plain hreach) hnode'
      refine runs_of_lowered (c := c) ?_
      rw [lowered_succ ha, hfast]
      exact hc
    · exact (hfast.inPlace_iff ha hnode hk (hplain.encodable ha .refl hnode).1).2
        (hwidth off value ⟨a, idx, name, ha, hnode, by rw [hk]; rfl⟩)

theorem agrees_step (hplain : p.Runs plain (t + 1))
    (hfast : p.Runs (decrement p.graph.nodes) (t + 1)) (hagree : p.AgreesAt cpu t s)
    (hvalues : ∀ m ∈ (p.contextAt (decrement p.graph.nodes) (t + 1)).materialised,
      m ∈ (p.contextAt plain (t + 1)).materialised ∧ ∀ k,
        portValue p.graph.nodes (p.contextAt (decrement p.graph.nodes) (t + 1))
            (p.stateAt cpu (decrement p.graph.nodes) (t + 1) s) m k =
          portValue p.graph.nodes (p.contextAt plain (t + 1)) (p.stateAt cpu plain (t + 1) s) m k)
    (hplace : ∀ off value, p.InPlaceAt t off value →
      (p.stateAt cpu (decrement p.graph.nodes) (t + 1) s).mem =
        (p.stateAt cpu plain (t + 1) s).mem) : p.AgreesAt cpu (t + 1) s := by
  cases ha : p.actions[t]? with
  | none =>
    unfold AgreesAt
    rw [hplain.stateAt_succ, hfast.stateAt_succ, contextAt_succ_of_none ha,
      contextAt_succ_of_none ha, after_of_eq rfl, after_of_eq rfl]
    exact hagree
  | some a =>
    obtain ⟨node, hnode, hlowers⟩ := hplain.pred.progress.lowers cpu hplain ha
    obtain ⟨node', hnode', hlowers'⟩ := hfast.pred.progress.lowers cpu hfast ha
    obtain rfl := Option.some.inj (hnode.symm.trans hnode')
    rcases @ordinary_or (decrement p.graph.nodes) node with
      hordinary | ⟨off, idx, name, value, k, rfl, hk⟩
    · obtain ⟨actionNode, hactionNode, -, hdeps, -⟩ :=
        hfast.progress.closed a (hfast.progress.done t (Nat.lt_succ_self t) a ha)
      obtain rfl := Option.some.inj (hnode.symm.trans hactionNode)
      have hargs : ∀ o ∈ node.operands, o.owner ∈ deps plain p.graph.nodes node →
          args p.graph.nodes (p.contextAt (decrement p.graph.nodes) (t + 1))
              (p.stateAt cpu (decrement p.graph.nodes) (t + 1) s) o =
            args p.graph.nodes (p.contextAt plain (t + 1)) (p.stateAt cpu plain (t + 1) s) o := by
        intro o _ howner
        rw [← deps_of_ordinary hordinary] at howner
        exact (hvalues o.owner (hdeps o.owner howner)).2 o.kind
      have heffect := @effect_of_ordinary p.graph cpu _ node _ _ (p.stateAt cpu plain t s)
        hordinary hargs
      have hcongr := @effect_congr p.graph cpu (decrement p.graph.nodes) node
        (args p.graph.nodes (p.contextAt (decrement p.graph.nodes) (t + 1))
          (p.stateAt cpu (decrement p.graph.nodes) (t + 1) s)) _ _ hagree.mem hagree.regs
      refine ⟨?_, fun r => ?_, hvalues⟩
      · rw [hplain.stateAt_succ, hfast.stateAt_succ, hlowers.mem, hlowers'.mem,
          ← hplain.stateAt_succ, ← hfast.stateAt_succ, hcongr.1, heffect]
      · rw [hplain.stateAt_succ, hfast.stateAt_succ, hlowers.regs, hlowers'.regs,
          ← hplain.stateAt_succ, ← hfast.stateAt_succ, hcongr.2, heffect]
    · refine ⟨hplace off value ⟨a, idx, name, ha, hnode, by rw [hk]; rfl⟩, fun r => ?_, hvalues⟩
      rw [hplain.stateAt_succ, hfast.stateAt_succ, hlowers.regs, hlowers'.regs]
      exact hagree.regs r

/-- After each action the two codes agree, where there is code without the shortcut. -/
theorem inPlaceRight_iff_agreesAt : p.InPlaceRight cpu s ↔
    ∀ t, p.Runs plain t → p.Runs (decrement p.graph.nodes) t ∧ p.AgreesAt cpu t s := by
  constructor
  · intro h t hplain
    obtain ⟨c', hc', hagree⟩ := h t _ hplain
    rw [← lowerPacketBy_decrement] at hc'
    have hfast : p.lowered (decrement p.graph.nodes) t = .ok c' := hc'
    refine ⟨runs_of_lowered hfast, ?_⟩
    rw [← contextAt_of_lowered hfast] at hagree
    exact hagree
  · intro h t c hc
    obtain ⟨hfast, hagree⟩ := h t (runs_of_lowered hc)
    refine ⟨p.contextAt (decrement p.graph.nodes) t, ?_, ?_⟩
    · rw [← lowerPacketBy_decrement]
      exact hfast
    · rw [← contextAt_of_lowered hc]
      exact hagree

theorem AgreesAt.guestReg (h : p.AgreesAt cpu t s) (vt : ValueType) (off : ℕ) :
    guestReg (p.stateAt cpu (decrement p.graph.nodes) t s) vt off =
      guestReg (p.stateAt cpu plain t s) vt off := by
  unfold X86Host.guestReg regAddress
  rw [h.mem, h.regs]

theorem InPlaceRight.width (h : p.InPlaceRight cpu s) (hplain : p.Runs plain (t + 1)) {off : ℕ}
    {value : Port} (hplace : p.InPlaceAt t off value) : value.type.elementWidth ≠ 1 := by
  obtain ⟨a, idx, name, ha, hnode, hsome⟩ := hplace
  obtain ⟨k, hk⟩ := Option.isSome_iff_exists.1 hsome
  obtain ⟨hfast, -⟩ := inPlaceRight_iff_agreesAt.1 h (t + 1) hplain
  exact (hfast.pred.inPlace_iff ha hnode hk (hplain.encodable ha .refl hnode).1).1 hfast

/-- A guest register that is read again is unchanged. -/
theorem InPlaceRight.reads {cpu : SubCpu} (h : p.InPlaceRight cpu.toCpu s)
    (hplain : p.Runs plain (t + 1)) {n : NodeId} {vt : ValueType} {off idx : ℕ} {name : String}
    (hn : p.graph.nodes[n]? = some (.readReg vt off idx name)) (hreads : p.Rereads t n) {j : ℕ}
    (hfirst : p.UsedFirst plain j n) :
    guestReg (p.stateAt cpu.toCpu plain t s) vt off =
      guestReg (p.stateAt cpu.toCpu plain j s) vt off := by
  have hagrees := inPlaceRight_iff_agreesAt.1 h
  obtain ⟨-, hbefore⟩ := hagrees t hplain.pred
  obtain ⟨hfast, hafter⟩ := hagrees (t + 1) hplain
  rcases hreads with hlate | ⟨off', value, op, l, r, hplace, hb, rfl⟩
  · have hin := (hfast.usedFirst_iff.1 hlate).1
    obtain ⟨hin', hvalue⟩ := hafter.values n hin
    obtain ⟨i, -, hi, hread⟩ := @hfast.readReg_value _ cpu.toCpu _ _ s _ _ _ _ _ hin hn
    obtain ⟨i', -, hi', hread'⟩ := @hplain.readReg_value _ cpu.toCpu _ _ s _ _ _ _ _ hin' hn
    obtain rfl := usedFirst_unique hi hlate
    obtain rfl := usedFirst_unique hi' hfirst
    rw [← hbefore.guestReg, ← hread, ← hread', hvalue]
  · have hwidth := h.width hplain hplace
    obtain ⟨a, idx', name', ha, hnode, hsome⟩ := hplace
    obtain ⟨k, hk⟩ := Option.isSome_iff_exists.1 hsome
    obtain ⟨l', r', vt', idx'', name'', hb', hl', i, -, hi, hiff⟩ :=
      inPlace_mem_iff hplain hfast s hbefore.mem ha hnode hk hwidth
    obtain ⟨-, rfl, -⟩ := Node.binaryArith.inj (Option.some.inj (hb.symm.trans hb'))
    obtain ⟨rfl, rfl, -, -⟩ := Node.readReg.inj (Option.some.inj (hn.symm.trans hl'))
    obtain rfl := usedFirst_unique hi hfirst
    exact hiff.1 hafter.mem

/-- One action, where the register that it reads again is unchanged. -/
theorem Unchanged.agrees_succ {cpu : SubCpu} (h : p.Unchanged cpu.toCpu s)
    (hplain : p.Runs plain (t + 1)) (hfast : p.Runs (decrement p.graph.nodes) t)
    (hagree : p.AgreesAt cpu.toCpu t s) :
    p.Runs (decrement p.graph.nodes) (t + 1) ∧ p.AgreesAt cpu.toCpu (t + 1) s := by
  have hfast' := exists_fast hplain hfast fun off value hplace =>
    h.width t off value hplace ⟨_, hplain⟩
  have hvalues := values_step hplain hfast' hagree fun n vt off idx name hn hlate =>
    h.reads t n vt off idx name hn (.inl hlate) ⟨_, hplain⟩
  refine ⟨hfast', agrees_step hplain hfast' hagree hvalues fun off value hplace => ?_⟩
  have hwidth := h.width t off value hplace ⟨_, hplain⟩
  have hplace' := hplace
  obtain ⟨a, idx, name, ha, hnode, hsome⟩ := hplace'
  obtain ⟨k, hk⟩ := Option.isSome_iff_exists.1 hsome
  obtain ⟨l, r, vt, idx', name', hb, hl, j, hj, hfirst, hiff⟩ :=
    inPlace_mem_iff hplain hfast' s hagree.mem ha hnode hk hwidth
  refine hiff.2 ?_
  rcases Nat.lt_succ_iff_lt_or_eq.1 hj with hlt | rfl
  · exact h.reads t l.owner vt off idx' name' hl
      (.inr ⟨off, value, .sub, l, r, hplace, hb, rfl⟩) ⟨_, hplain⟩ j hlt hfirst
  · rfl

/-- The code of an instruction agrees with that of the plain lowering exactly if nothing of one bit
is done in place and a guest register that is read again has kept its value. -/
theorem inPlace_right_iff (cpu : SubCpu) (s : State) :
    p.InPlaceRight cpu.toCpu s ↔ p.Unchanged cpu.toCpu s := by
  constructor
  · intro h
    refine ⟨fun t off value hplace ⟨c, hc⟩ => h.width (runs_of_lowered hc) hplace,
      fun t n vt off idx name hn hreads ⟨c, hc⟩ j _ hfirst => ?_⟩
    exact h.reads (runs_of_lowered hc) hn hreads hfirst
  · intro h
    refine inPlaceRight_iff_agreesAt.2 fun t hplain => ?_
    induction t with
    | zero =>
      refine ⟨runs_of_lowered lowered_zero, ?_⟩
      unfold AgreesAt
      rw [stateAt_zero, stateAt_zero, contextAt_of_lowered lowered_zero]
      exact ⟨rfl, fun _ => rfl, nofun⟩
    | succ t ih =>
      obtain ⟨hfast, hagree⟩ := ih hplain.pred
      exact h.agrees_succ hplain hfast hagree

end AgreementStep

/-! ## The flags of a difference -/

/-- A CPU, as far as differences go. -/
def subCpu : SubCpu where
  alu
    | .SUB, w, x, y =>
      let r := (x + (2 ^ w - y % 2 ^ w)) % 2 ^ w
      let sign v := decide (2 ^ (w - 1) ≤ v % 2 ^ w)
      (r, ⟨x % 2 ^ w < y % 2 ^ w, sign x != sign y && sign r != sign x, r = 0, sign r⟩)
    | _, _, x, _ => (x, ⟨false, false, false, false⟩)
  gsBase := 0
  sub _ _ _ := Nat.mod_mod _ _

/-- `SUB RAX, 5`, which writes `RAX` and then `ZF`. -/
def subRax : HostPacket where
  graph :=
    { nodes := [.readReg (.u 64) 8 1 "RAX", .constant (.u 64) 5,
        .binaryArith .sub ⟨.value, .u 64, 0⟩ ⟨.value, .u 64, 1⟩,
        .writeReg 8 1 "RAX" ⟨.value, .u 64, 2⟩, .writeReg 136 17 "ZF" ⟨.zero, .u 1, 2⟩]
      operand_lt := by
        intro n node hn o ho
        match n with
        | 0 | 1 => cases hn; cases ho
        | 2 | 3 | 4 => cases hn; revert o; decide
        | n + 5 => cases hn
      typed := by
        intro n node hn o ho m vt hm hvt
        match n with
        | 0 | 1 => cases hn; cases ho
        | 2 =>
          cases hn
          rcases List.mem_cons.1 ho with rfl | ho
          · cases hm; exact Option.some.inj hvt
          · obtain rfl := List.mem_singleton.1 ho
            cases hm; exact Option.some.inj hvt
        | 3 | 4 =>
          cases hn
          obtain rfl := List.mem_singleton.1 ho
          cases hm; exact Option.some.inj hvt
        | n + 5 => cases hn
      address := by
        intro n a h
        match n with
        | 0 | 1 | 2 | 3 | 4 => rcases h with ⟨_, h⟩ | ⟨_, h⟩ <;> cases h
        | n + 5 => rcases h with ⟨_, h⟩ | ⟨_, h⟩ <;> cases h }
  pc := 0
  actions := [3, 4]
  nodup := by decide
  builder := []
  next := 0

/-- `RAX` is 5. -/
def raxFive : State where
  regs _ := 0
  mem a := if a = 8 then 5 else 0
  flags := ⟨false, false, false, false⟩

/-- `ZF` is computed from what `RAX` is after the difference has been written to it. -/
theorem not_subRax_right : ¬subRax.InPlaceRight subCpu.toCpu raxFive := by
  intro h
  have hplain : subRax.Runs plain 2 := runs_of_lowered rfl
  have hdifference : ∀ {fold a node}, subRax.graph.nodes[a]? = some node →
      2 ∈ deps fold subRax.graph.nodes node → Reaches fold subRax.graph.nodes a 0 :=
    fun hnode hdeps => .head ⟨_, hnode, hdeps⟩ (.single ⟨_, rfl, List.mem_cons_self⟩)
  have hlate : subRax.Rereads 1 0 := by
    refine .inl ⟨⟨4, rfl, hdifference rfl List.mem_cons_self⟩, fun j hj a ha hreach => ?_⟩
    obtain rfl := Nat.lt_one_iff.1 hj
    obtain rfl := Option.some.inj ha
    exact nomatch reaches_leaf rfl rfl hreach
  have hfirst : subRax.UsedFirst plain 0 0 :=
    ⟨⟨3, rfl, hdifference rfl List.mem_cons_self⟩, nofun⟩
  have hread := h.reads hplain rfl hlate hfirst
  exact absurd hread (by decide)

end HostPacket

end Arancini.X86Host
