import Mathlib.Data.List.Basic
import Mathlib.Logic.Function.Basic
import Arancini.Ir.Eval

/-!
# Evaluating later, and dropping writes

Two plans for one chunk, an early one and a late one. The late one evaluates a node where
the early one does or later, and may drop writes of registers. When does it give the same
result?

A `Shadow` follows the run of the early plan and keeps book of what the late one would
find. A node is `fresh` while evaluating it again would give the value it has : no action
has written what it reads since it was evaluated. It is `settled` when the late plan has
evaluated it, while it was fresh, from settled operands, and reading no `stale` register,
one whose last write was dropped. The shadow is `sound` when the next action the late plan
runs has settled operands, a call finds no stale register, and none is left at the end.

If the shadow is sound all along the run, the two plans return the same guest
(`returns_iff_of_sound`), and the late one is never stuck on a node that has no value.
-/

namespace Arancini.Ir

namespace Node

/-- A node the actions of which may depend on the whole guest. -/
def isCall : Node → Bool
  | internalCall .. => true
  | _ => false

end Node

/-- What an action writes. -/
inductive Effect
  | none
  | reg (off : ℕ)
  | mem (addr len : ℕ)
  | exchange (addr len : ℕ)
  | lcl (l : ℕ)
  | guest

/-- What an action writes, given the values of its operands. -/
def effect : Node → List ℕ → Effect
  | .writePc .., [_] => .reg Reg.PC.offset
  | .writeReg off _ _ _, [_] => .reg off
  | .writeMem _ o, [addr, _] => .mem addr (o.type.width / 8)
  | .writeLocal l _, [_] => .lcl l
  | .unaryAtomic _ o, addr :: _ => .mem addr (o.type.width / 8)
  | .binaryAtomic _ _ o, addr :: _ => .mem addr (o.type.width / 8)
  | .ternaryAtomic .cmpxchg _ o _, addr :: _ => .exchange addr (o.type.width / 8)
  | .ternaryAtomic _ _ o _, addr :: _ => .mem addr (o.type.width / 8)
  | .internalCall .., _ => .guest
  | _, _ => .none

/-- Some byte lies in both ranges. -/
def overlaps (a len b len' : ℕ) : Bool :=
  (List.range len).any fun i => (List.range len').any fun j =>
    (a + i) % 2 ^ 64 == (b + j) % 2 ^ 64

/-- The effect writes the register at the offset. -/
def Effect.hitsReg (off : ℕ) : Effect → Bool
  | .reg off' => off' == off
  | .exchange .. => Reg.RAX.offset == off
  | .guest => true
  | _ => false

/-- The effect writes one of the bytes. -/
def Effect.hitsMem (a len : ℕ) : Effect → Bool
  | .mem addr l | .exchange addr l => overlaps addr l a len
  | .guest => true
  | _ => false

def Effect.hitsLocal (l : ℕ) : Effect → Bool
  | .lcl l' => l' == l
  | _ => false

/-- The node reads what the effect writes. -/
def Effect.hits (env : Env) (e : Effect) : Node → Bool
  | .readReg _ off _ _ => e.hitsReg off
  | .readMem vt a => (env.port a).any fun b => e.hitsMem b (vt.width / 8)
  | .readLocal _ l => e.hitsLocal l
  | _ => false

/-- The registers that stay stale after the effect. -/
def Effect.stale (stale : List ℕ) : Effect → List ℕ
  | .reg off => stale.filter (· ≠ off)
  | _ => stale

/-- The run of the early plan, and what the late plan would find. -/
structure Shadow where
  cfg : Config
  fresh : List NodeId
  settled : List NodeId
  stale : List ℕ

variable (ops : Ops)

/-- The node has `n` among its operands. -/
def Graph.reads (p : Graph) (n m : NodeId) : Bool :=
  p.nodes[m]?.any fun node => node.operands.any (·.owner == n)

/-- The nodes that stay fresh when node `n` gets a new value. -/
def Graph.forget (p : Graph) (n : NodeId) (fresh : List NodeId) : List NodeId :=
  fresh.filter fun m => m ≠ n ∧ !p.reads n m

namespace Shadow

/-- At the start of a packet. -/
def enter (pkt : ℕ) (g : Guest) (stale : List ℕ) : Shadow :=
  ⟨.enter ops pkt g, [], [], stale⟩

/-- The early plan evaluates a node. -/
def early (p : Graph) (s : Shadow) (n : NodeId) : Shadow :=
  { s with
    cfg := { s.cfg with env := evalOne ops p s.cfg.guest s.cfg.locals s.cfg.env n }
    fresh := n :: p.forget n s.fresh
    settled := s.settled.filter (· ≠ n) }

/-- The operands of the node are settled. -/
def ready (s : Shadow) (node : Node) : Bool :=
  node.operands.all (·.owner ∈ s.settled)

/-- The late plan finds for the node the value the early one has. -/
def settles (p : Graph) (s : Shadow) (n : NodeId) : Bool :=
  n ∈ s.fresh ∧ p.nodes[n]?.any fun node => s.ready node ∧ node.readsReg.all (· ∉ s.stale)

/-- The late plan evaluates a node. -/
def late (p : Graph) (s : Shadow) (n : NodeId) : Shadow :=
  { s with settled := if s.settles p n then n :: s.settled else s.settled.filter (· ≠ n) }

/-- Both plans evaluate the nodes they have here. -/
def eval (P Q : Plan) (p : Graph) (s : Shadow) : Shadow :=
  (Q.evals s.cfg.pkt s.cfg.pos).foldl (late p)
    ((P.evals s.cfg.pkt s.cfg.pos).foldl (early ops p) s)

/-- The fresh nodes that the effect does not hit. -/
def unhit (p : Graph) (s : Shadow) (e : Effect) : List NodeId :=
  s.fresh.filter fun m => !p.nodes[m]?.any (e.hits s.cfg.env)

/-- After an action that both plans run. -/
def after (p : Graph) (s : Shadow) (e : Effect) (o : Outcome) : Shadow where
  cfg := s.cfg.after o
  fresh := if o.result.isSome then p.forget s.cfg.pos (s.unhit p e) else s.unhit p e
  settled := if o.result.isSome then s.cfg.pos :: s.settled else s.settled
  stale := e.stale s.stale

/-- Both plans run the action here. -/
def keep (p : Graph) (node : Node) (s : Shadow) : Option Shadow :=
  (node.operands.mapM s.cfg.env.port).bind fun vals =>
    (exec ops node vals s.cfg.pos s.cfg.guest s.cfg.locals).map (s.after p (effect node vals))

/-- Only the early plan runs the write of register `off` here. -/
def drop (p : Graph) (node : Node) (off : ℕ) (s : Shadow) : Option Shadow :=
  (act ops node s.cfg).map fun c =>
    { s with cfg := c, fresh := s.unhit p (.reg off), stale := off :: s.stale }

/-- The early plan runs the action here, and the late one as well unless it drops it. -/
def act (Q : Plan) (p : Graph) (node : Node) (s : Shadow) : Option Shadow :=
  match Q.active s.cfg.pkt s.cfg.pos, node with
  | false, .writeReg off _ _ _ => s.drop ops p node off
  | _, _ => s.keep ops p node

end Shadow

/-! ## What evaluation and actions depend on -/

theorem load_update {mem : ℕ → ℕ} {x v : ℕ} : ∀ {len a : ℕ},
    (∀ i < len, (a + i) % 2 ^ 64 ≠ x) →
      Guest.load (Function.update mem x v) a len = Guest.load mem a len
  | 0, _, _ => rfl
  | len + 1, a, h => by
    have h0 : a % 2 ^ 64 ≠ x := h 0 (by omega)
    have ih : Guest.load (Function.update mem x v) (a + 1) len = Guest.load mem (a + 1) len :=
      load_update fun i hi => by
        have := h (i + 1) (by omega)
        rwa [show a + 1 + i = a + (i + 1) by omega]
    rw [Guest.load, Guest.load, ih, Function.update_of_ne h0]

/-- Loads outside a stored range are not changed. -/
theorem load_store {a len' : ℕ} : ∀ {len v : ℕ} {mem : ℕ → ℕ} (addr : ℕ),
    (∀ i < len, ∀ j < len', (addr + i) % 2 ^ 64 ≠ (a + j) % 2 ^ 64) →
      Guest.load (Guest.store mem addr v len) a len' = Guest.load mem a len'
  | 0, _, _, _, _ => rfl
  | len + 1, v, mem, addr, h => by
    rw [Guest.store, load_store (addr + 1) fun i hi j hj => by
      have := h (i + 1) (by omega) j hj
      rwa [show addr + 1 + i = addr + (i + 1) by omega]]
    exact load_update fun j hj => (h 0 (by omega) j hj).symm

theorem load_store_of_overlaps {mem : ℕ → ℕ} {addr len v a len' : ℕ}
    (h : overlaps addr len a len' = false) :
    Guest.load (Guest.store mem addr v len) a len' = Guest.load mem a len' := by
  refine load_store addr fun i hi j hj heq => ?_
  simp only [overlaps, List.any_eq_false, List.mem_range] at h
  exact h i hi (by simpa using ⟨j, hj, heq⟩)

/-- An action changes no more than its effect. -/
structure Effect.Bounds (e : Effect) (g : Guest) (locals : ℕ → ℕ) (o : Outcome) : Prop where
  regs : ∀ off, e.hitsReg off = false → o.guest.regs off = g.regs off
  mem : ∀ a len, e.hitsMem a len = false → Guest.load o.guest.mem a len = Guest.load g.mem a len
  locals : ∀ l, e.hitsLocal l = false → o.locals l = locals l

theorem Effect.Bounds.of_reg (g : Guest) (locals : ℕ → ℕ) (off v : ℕ) (next : NodeId) :
    (Effect.reg off).Bounds g locals ⟨g.setReg off v, locals, .none, next⟩ where
  regs _ h := Function.update_of_ne (Ne.symm (ne_of_beq_false h)) _ _
  mem _ _ _ := rfl
  locals _ _ := rfl

theorem Effect.Bounds.of_mem (g : Guest) (locals : ℕ → ℕ) (addr v len : ℕ) (res : Option Result)
    (next : NodeId) :
    (Effect.mem addr len).Bounds g locals ⟨g.setMem addr v len, locals, res, next⟩ where
  regs _ _ := rfl
  mem _ _ h := load_store_of_overlaps h
  locals _ _ := rfl

theorem Effect.Bounds.refl (e : Effect) (g : Guest) (locals : ℕ → ℕ) (res : Option Result)
    (next : NodeId) : e.Bounds g locals ⟨g, locals, res, next⟩ where
  regs _ _ := rfl
  mem _ _ _ := rfl
  locals _ _ := rfl

/-- A compare-and-exchange also writes the accumulator. -/
theorem Effect.Bounds.accumulate {addr len : ℕ} {g : Guest} {locals : ℕ → ℕ} {o : Outcome}
    (h : (Effect.mem addr len).Bounds g locals o) (vals : List ℕ) :
    (Effect.exchange addr len).Bounds g locals (o.accumulate .cmpxchg vals) := by
  unfold Outcome.accumulate
  split
  · split
    · exact ⟨fun off _ => h.regs off rfl, h.mem, h.locals⟩
    · refine ⟨fun off hoff => ?_, h.mem, h.locals⟩
      exact (Function.update_of_ne (Ne.symm (ne_of_beq_false hoff)) _ _).trans (h.regs off rfl)
  · exact ⟨fun off _ => h.regs off rfl, h.mem, h.locals⟩

theorem bounds_of_exec {node : Node} {vals : List ℕ} {pos : NodeId} {g : Guest}
    {locals : ℕ → ℕ} {o : Outcome} (h : exec ops node vals pos g locals = some o) :
    (effect node vals).Bounds g locals o := by
  unfold exec at h
  split at h
  case h_1 | h_2 =>
    obtain ⟨t, -, rfl⟩ := Option.map_eq_some_iff.1 h
    exact .refl _ g locals _ _
  case h_3 | h_4 =>
    cases h
    exact .of_reg g locals _ _ _
  case h_5 | h_7 | h_8 =>
    cases h
    exact .of_mem g locals _ _ _ _ _
  case h_6 =>
    cases h
    exact ⟨fun _ _ => rfl, fun _ _ _ => rfl,
      fun _ h => Function.update_of_ne (Ne.symm (ne_of_beq_false h)) _ _⟩
  case h_9 op _ o _ addr vals =>
    cases h
    have hmem := Effect.Bounds.of_mem g locals addr
    cases op with
    | adc | sbb => exact hmem _ _ _ _
    | cmpxchg => exact (hmem _ _ _ _).accumulate vals
  case h_10 =>
    cases h
    exact ⟨fun _ h => Bool.noConfusion h, fun _ _ h => Bool.noConfusion h, fun _ _ => rfl⟩
  case h_11 =>
    cases h
    exact .refl _ g locals _ _

/-- A node that an action does not hit evaluates to what it did before. -/
theorem evalNode_of_not_hits {node m : Node} {vals : List ℕ} {pos : NodeId} {g : Guest}
    {locals : ℕ → ℕ} {o : Outcome} (h : exec ops node vals pos g locals = some o) {env : Env}
    (hm : (effect node vals).hits env m = false) (address : ℕ) :
    evalNode ops address o.guest o.locals env m = evalNode ops address g locals env m := by
  have hb := bounds_of_exec ops h
  refine evalNode_congr ops (fun _ _ => rfl) (fun off hoff => ?_) (fun vt a b hma hab => ?_)
    fun vt l hml => ?_
  · cases m <;> cases hoff
    exact hb.regs off hm
  · subst hma
    exact hb.mem _ _ (by simpa [Effect.hits, hab] using hm)
  · subst hml
    exact hb.locals l hm

/-- The guests agree but for the stale registers. -/
structure Guest.AgreeOff (stale : List ℕ) (g g' : Guest) : Prop where
  mem : g'.mem = g.mem
  regs : ∀ off, off ∉ stale → g'.regs off = g.regs off

theorem Guest.AgreeOff.eq {g g' : Guest} (h : g.AgreeOff [] g') : g' = g := by
  obtain ⟨regs, mem⟩ := g
  obtain ⟨regs', mem'⟩ := g'
  obtain ⟨rfl, hregs⟩ := h
  obtain rfl : regs' = regs := funext fun off => hregs off (by simp)
  rfl

/-- Writing a register makes the guests agree on it. -/
theorem Guest.AgreeOff.setReg {stale : List ℕ} {g g' : Guest} (h : g.AgreeOff stale g')
    (off v : ℕ) : (g.setReg off v).AgreeOff (stale.filter (· ≠ off)) (g'.setReg off v) where
  mem := h.mem
  regs off' hoff := by
    by_cases he : off' = off
    · simp [Guest.setReg, he]
    · simp only [Guest.setReg, Function.update_of_ne he]
      exact h.regs off' fun hm => hoff (by simp [hm, he])

theorem Guest.AgreeOff.setMem {stale : List ℕ} {g g' : Guest} (h : g.AgreeOff stale g')
    (addr v len : ℕ) : (g.setMem addr v len).AgreeOff stale (g'.setMem addr v len) where
  mem := by simp [Guest.setMem, h.mem]
  regs := h.regs

/-- The outcomes agree but for the stale registers. -/
structure Outcome.AgreeOff (stale : List ℕ) (o o' : Outcome) : Prop where
  guest : o.guest.AgreeOff stale o'.guest
  locals : o'.locals = o.locals
  result : o'.result = o.result
  next : o'.next = o.next

theorem execAtomic_agree {stale : List ℕ} {g g' : Guest} (hg : g.AgreeOff stale g') (node : Node)
    (vt : ValueType) (addr : ℕ) (vals : List ℕ) (pos : NodeId) (locals : ℕ → ℕ) :
    (execAtomic ops node vt addr vals pos g locals).AgreeOff stale
      (execAtomic ops node vt addr vals pos g' locals) := by
  simp only [execAtomic, hg.mem]
  exact ⟨hg.setMem _ _ _, rfl, rfl, rfl⟩

theorem Outcome.AgreeOff.accumulate {stale : List ℕ} {o o' : Outcome} (h : o.AgreeOff stale o')
    (op : TernaryAtomicOp) (vals : List ℕ) :
    (o.accumulate op vals).AgreeOff stale (o'.accumulate op vals) := by
  unfold Outcome.accumulate
  rw [h.result]
  split
  · split
    · exact h
    · refine ⟨⟨h.guest.mem, fun off hoff => ?_⟩, h.locals, rfl, h.next⟩
      exact (h.guest.setReg Reg.RAX.offset _).regs off fun hm => hoff (List.mem_of_mem_filter hm)
  · exact h

/-- An action does the same on guests that agree but for stale registers, if no call finds
any. -/
theorem exec_agree {stale : List ℕ} {g g' : Guest} (hg : g.AgreeOff stale g') {node : Node}
    (hcall : node.isCall → stale = []) (vals : List ℕ) (pos : NodeId) (locals : ℕ → ℕ) :
    Option.Rel (Outcome.AgreeOff ((effect node vals).stale stale))
      (exec ops node vals pos g locals) (exec ops node vals pos g' locals) := by
  unfold exec
  split
  case h_1 _ _ t =>
    cases t with
    | none => exact .none
    | some t => exact .some ⟨hg, rfl, rfl, rfl⟩
  case h_2 _ _ _ t _ =>
    cases t with
    | none => exact .none
    | some t => exact .some ⟨hg, rfl, rfl, rfl⟩
  case h_3 | h_4 => exact .some ⟨hg.setReg _ _, rfl, rfl, rfl⟩
  case h_5 => exact .some ⟨hg.setMem _ _ _, rfl, rfl, rfl⟩
  case h_6 => exact .some ⟨hg, rfl, rfl, rfl⟩
  case h_7 | h_8 => exact .some (execAtomic_agree ops hg _ _ _ _ _ _)
  case h_9 op a o t addr vals =>
    have ha := execAtomic_agree ops hg (.ternaryAtomic op a o t) o.type addr vals pos locals
    cases op with
    | adc | sbb => exact .some ha
    | cmpxchg => exact .some (ha.accumulate .cmpxchg vals)
  case h_10 =>
    obtain rfl := hcall rfl
    obtain rfl := hg.eq
    exact .some ⟨⟨rfl, fun _ _ => rfl⟩, rfl, rfl, rfl⟩
  case h_11 =>
    have he : effect node vals = .none := by
      unfold effect
      split <;> grind
    rw [he]
    exact .some ⟨hg, rfl, rfl, rfl⟩

namespace Shadow

variable (flow : Flow) (ps : List Graph) (P Q : Plan)

/-- The late plan can follow at a node both plans have evaluated. -/
def soundAt (node : Node) (s : Shadow) : Bool :=
  match P.active s.cfg.pkt s.cfg.pos, Q.active s.cfg.pkt s.cfg.pos with
  | true, true => s.ready node && (!node.isCall || s.stale.isEmpty)
  | true, false =>
    match node with
    | .writeReg _ _ _ v => (s.cfg.env.port v).isSome
    | _ => false
  | false, true => false
  | false, false => true

/-- The late plan can follow : it has the operands of the action it runs next, drops only
writes of registers, has no stale register when a call may read it, and none at the
end. -/
def sound (s : Shadow) : Bool :=
  match ps[s.cfg.pkt]? with
  | none => true
  | some p =>
    match p.nodes[s.cfg.pos]? with
    | none =>
      Reg.PC.offset ∉ s.stale ∧
        ((flow s.cfg.pkt (s.cfg.guest.regs Reg.PC.offset)).isSome ∨ s.stale = [])
    | some node => soundAt P Q node (s.eval ops P Q p)

/-- At the end of a packet. -/
def leave (s : Shadow) : Shadow ⊕ Option Guest :=
  match flow s.cfg.pkt (s.cfg.guest.regs Reg.PC.offset) with
  | some k => .inl (.enter ops k s.cfg.guest s.stale)
  | none => .inr (some s.cfg.guest)

/-- The shadow of a run. -/
def machine : Machine Shadow (Option Guest) where
  step s :=
    match ps[s.cfg.pkt]? with
    | none => .inr none
    | some p =>
      match p.nodes[s.cfg.pos]? with
      | none => s.leave ops flow
      | some node =>
        let t := s.eval ops P Q p
        if P.active s.cfg.pkt s.cfg.pos then moveOn (t.act ops Q p node)
        else .inl { t with cfg := { t.cfg with pos := s.cfg.pos + 1 } }

section Step

variable {ops flow ps P Q} {s : Shadow} {p : Graph} {node : Node}

theorem step_of_stray (hp : ps[s.cfg.pkt]? = none) :
    (machine ops flow ps P Q).step s = .inr none := by
  simp [machine, hp]

theorem step_of_end (hp : ps[s.cfg.pkt]? = some p) (hn : p.nodes[s.cfg.pos]? = none) :
    (machine ops flow ps P Q).step s = s.leave ops flow := by
  simp [machine, hp, hn]

theorem step_of_active (hp : ps[s.cfg.pkt]? = some p) (hn : p.nodes[s.cfg.pos]? = some node)
    (ha : P.active s.cfg.pkt s.cfg.pos) :
    (machine ops flow ps P Q).step s = moveOn ((s.eval ops P Q p).act ops Q p node) := by
  simp [machine, hp, hn, ha]

theorem step_of_inactive (hp : ps[s.cfg.pkt]? = some p) (hn : p.nodes[s.cfg.pos]? = some node)
    (ha : P.active s.cfg.pkt s.cfg.pos = false) :
    (machine ops flow ps P Q).step s = .inl { s.eval ops P Q p with
      cfg := { (s.eval ops P Q p).cfg with pos := s.cfg.pos + 1 } } := by
  simp [machine, hp, hn, ha]

end Step

end Shadow

/-! ## The late plan follows -/

/-- The late configuration `c` is what the shadow says : it is where the early one is,
with the same local variables and memory, the same registers but for the stale ones, and
the same results of settled nodes. -/
structure Agree (p : Graph) (s : Shadow) (c : Config) : Prop where
  pkt : c.pkt = s.cfg.pkt
  pos : c.pos = s.cfg.pos
  locals : c.locals = s.cfg.locals
  guest : s.cfg.guest.AgreeOff s.stale c.guest
  settled : ∀ n ∈ s.settled, (c.env n).isSome ∧ c.env n = s.cfg.env n
  fresh : ∀ n ∈ s.fresh,
    p.nodes[n]?.bind (evalNode ops p.address s.cfg.guest s.cfg.locals s.cfg.env) =
    s.cfg.env n

variable {ops} {p : Graph}

theorem port_update_of_ne {env : Env} {n : NodeId} {r : Option Result} {o : Port}
    (h : o.owner ≠ n) : Env.port (Function.update env n r) o = env.port o := by
  simp [Env.port, h]

/-- Giving a node a new result does not change what nodes that do not read it evaluate
to. -/
theorem bind_eval_update {g : Guest} {locals : ℕ → ℕ} {env : Env} {n m : NodeId}
    {r : Option Result} (h : p.reads n m = false) :
    p.nodes[m]?.bind (evalNode ops p.address g locals (Function.update env n r)) =
      p.nodes[m]?.bind (evalNode ops p.address g locals env) := by
  cases hm : p.nodes[m]? with
  | none => rfl
  | some node =>
    refine evalNode_congr ops (fun o ho => port_update_of_ne fun hon => ?_) (fun _ _ => rfl)
      (fun _ _ _ _ _ => rfl) fun _ _ _ => rfl
    simp only [Graph.reads, hm, Option.any_some, List.any_eq_false, beq_iff_eq] at h
    exact h o ho hon

/-- No node reads itself. -/
theorem reads_self (p : Graph) (n : NodeId) : p.reads n n = false := by
  cases hn : p.nodes[n]? with
  | none => simp [Graph.reads, hn]
  | some node =>
    simp only [Graph.reads, hn, Option.any_some, List.any_eq_false, beq_iff_eq]
    exact fun o ho => (p.operand_lt n node hn o ho).ne

theorem Agree.early {s : Shadow} {c : Config} (h : Agree ops p s c) (n : NodeId) :
    Agree ops p (s.early ops p n) c := by
  refine ⟨h.pkt, h.pos, h.locals, h.guest, fun m hm => ?_, fun m hm => ?_⟩
  · obtain ⟨hm, hmn⟩ : m ∈ s.settled ∧ m ≠ n := by simpa [Shadow.early] using hm
    obtain ⟨hsome, heq⟩ := h.settled m hm
    exact ⟨hsome, by simpa [Shadow.early, evalOne, hmn] using heq⟩
  · rcases List.mem_cons.1 hm with rfl | hm
    · simp only [Shadow.early, evalOne, Function.update_self]
      exact bind_eval_update (reads_self p m)
    · obtain ⟨hm, hmn, hr⟩ : m ∈ s.fresh ∧ m ≠ n ∧ p.reads n m = false := by
        simpa [Graph.forget] using hm
      simp only [Shadow.early, evalOne, Function.update_of_ne hmn]
      rw [bind_eval_update hr]
      exact h.fresh m hm

theorem mapM_isSome {f : Port → Option ℕ} : ∀ {l : List Port}, (∀ o ∈ l, (f o).isSome) →
    (l.mapM f).isSome
  | [], _ => rfl
  | o :: l, h => by
    obtain ⟨v, hv⟩ := Option.isSome_iff_exists.1 (h o (by simp))
    obtain ⟨vs, hvs⟩ :=
      Option.isSome_iff_exists.1 (mapM_isSome (l := l) fun x hx => h x (by simp [hx]))
    simp [List.mapM_cons, hv, hvs]

/-- A node whose operands have values has a value. -/
theorem evalNode_isSome {address : ℕ} {g : Guest} {locals : ℕ → ℕ} {env : Env} {node : Node}
    (h : ∀ o ∈ node.operands, (env.port o).isSome) :
    (evalNode ops address g locals env node).isSome := by
  have hvals := mapM_isSome h
  cases node
  case readMem vt a => simpa [evalNode] using h a (by simp [Node.operands])
  case constant | readPc | readReg | readLocal => rfl
  all_goals simpa only [evalNode, Option.isSome_map] using hvals

/-- Settled operands have the same values in both runs. -/
theorem Agree.ports {s : Shadow} {c : Config} (h : Agree ops p s c) {node : Node}
    (hr : s.ready node) :
    ∀ o ∈ node.operands, (c.env.port o).isSome ∧ c.env.port o = s.cfg.env.port o := by
  intro o ho
  have hset : o.owner ∈ s.settled := by
    simpa using List.all_eq_true.1 hr o ho
  obtain ⟨hsome, heq⟩ := h.settled o.owner hset
  exact ⟨by simpa [Env.port] using hsome, by rw [Env.port, Env.port, heq]⟩

/-- What the late plan computes for a node it settles. -/
theorem Agree.settles {s : Shadow} {c : Config} (h : Agree ops p s c) {n : NodeId}
    (hs : s.settles p n) :
    (p.nodes[n]?.bind (evalNode ops p.address c.guest c.locals c.env)).isSome ∧
      p.nodes[n]?.bind (evalNode ops p.address c.guest c.locals c.env) = s.cfg.env n := by
  obtain ⟨hfresh, hn⟩ : n ∈ s.fresh ∧ (p.nodes[n]?.any fun node =>
      s.ready node ∧ node.readsReg.all (· ∉ s.stale)) := by
    simpa [Shadow.settles] using hs
  rw [← h.fresh n hfresh]
  cases hnode : p.nodes[n]? with
  | none => simp [hnode] at hn
  | some node =>
    obtain ⟨hready, hreg⟩ : s.ready node ∧ ∀ off, node.readsReg = some off → off ∉ s.stale := by
      simpa [hnode, Option.all_eq_true] using hn
    have hports := h.ports hready
    exact ⟨evalNode_isSome fun o ho => (hports o ho).1,
      evalNode_congr ops (fun o ho => (hports o ho).2)
        (fun off hoff => h.guest.regs off (hreg off hoff)) (fun _ _ _ _ _ => by rw [h.guest.mem])
        fun _ _ _ => by rw [h.locals]⟩

theorem Agree.late {s : Shadow} {c : Config} (h : Agree ops p s c) (n : NodeId) :
    Agree ops p (s.late p n) { c with env := evalOne ops p c.guest c.locals c.env n } := by
  refine ⟨h.pkt, h.pos, h.locals, h.guest, fun m hm => ?_, h.fresh⟩
  by_cases hmn : m = n
  · subst hmn
    by_cases hs : s.settles p m
    · simpa [Shadow.late, evalOne] using h.settles hs
    · simp [Shadow.late, hs] at hm
  · have hm' : m ∈ s.settled := by
      by_cases hs : s.settles p n
      · simpa [Shadow.late, hs, hmn] using hm
      · simpa [Shadow.late, hs, hmn] using hm
    simpa [Shadow.late, evalOne, hmn] using h.settled m hm'

theorem Agree.foldl_early {c : Config} (ns : List NodeId) {s : Shadow} (h : Agree ops p s c) :
    Agree ops p (ns.foldl (Shadow.early ops p) s) c := by
  induction ns generalizing s with
  | nil => exact h
  | cons n ns ih => exact ih (h.early n)

theorem Agree.foldl_late (ns : List NodeId) {s : Shadow} {c : Config} (h : Agree ops p s c) :
    Agree ops p (ns.foldl (Shadow.late p) s)
      { c with env := ns.foldl (evalOne ops p c.guest c.locals) c.env } := by
  induction ns generalizing s c with
  | nil => exact h
  | cons n ns ih => exact ih (h.late n)

/-- Both plans evaluate the nodes they have at a position. -/
theorem Agree.eval {s : Shadow} {c : Config} (h : Agree ops p s c) (P Q : Plan) :
    Agree ops p (s.eval ops P Q p) (c.eval ops Q p) := by
  have he : Q.evals c.pkt c.pos = Q.evals s.cfg.pkt s.cfg.pos := by rw [h.pkt, h.pos]
  rw [Config.eval, he]
  exact (h.foldl_early _).foldl_late _

/-- A node that an action does not hit, and that does not read its result, stays fresh. -/
theorem fresh_after {c : Config} {node : Node} {vals : List ℕ} {o : Outcome}
    (ho : exec ops node vals c.pos c.guest c.locals = some o) {m : NodeId}
    (hm : p.nodes[m]?.bind (evalNode ops p.address c.guest c.locals c.env) = c.env m)
    (hhit : p.nodes[m]?.any ((effect node vals).hits c.env) = false)
    (hres : o.result.isSome → m ≠ c.pos ∧ p.reads c.pos m = false) :
    p.nodes[m]?.bind (evalNode ops p.address o.guest o.locals (c.after o).env) =
      (c.after o).env m := by
  have hev : p.nodes[m]?.bind (evalNode ops p.address o.guest o.locals c.env) = c.env m := by
    rw [← hm]
    cases hn : p.nodes[m]? with
    | none => rfl
    | some x =>
      rw [hn] at hhit
      exact evalNode_of_not_hits ops ho hhit p.address
  cases hr : o.result with
  | none => simpa [Config.after, hr] using hev
  | some r =>
    obtain ⟨hne, hreads⟩ := hres (by simp [hr])
    simp only [Config.after, hr, Function.update_of_ne hne]
    rw [bind_eval_update hreads, hev]

theorem Agree.after {s : Shadow} {c : Config} (h : Agree ops p s c) {node : Node}
    {vals : List ℕ} {o o' : Outcome}
    (ho : exec ops node vals s.cfg.pos s.cfg.guest s.cfg.locals = some o)
    (ha : o.AgreeOff ((effect node vals).stale s.stale) o') :
    Agree ops p (s.after p (effect node vals) o) (c.after o') := by
  refine ⟨h.pkt, ha.next, ha.locals, ha.guest, fun m hm => ?_, fun m hm => ?_⟩
  · cases hr : o.result with
    | none =>
      have hset : m ∈ s.settled := by simpa [Shadow.after, hr] using hm
      simpa [Shadow.after, Config.after, ha.result, hr] using h.settled m hset
    | some r =>
      by_cases hpos : m = s.cfg.pos
      · simp [Shadow.after, Config.after, ha.result, hr, h.pos, hpos]
      · have hset : m ∈ s.settled := by simpa [Shadow.after, hr, hpos] using hm
        simpa [Shadow.after, Config.after, ha.result, hr, h.pos, hpos] using h.settled m hset
  · have hun : m ∈ s.unhit p (effect node vals) ∧
        (o.result.isSome → m ≠ s.cfg.pos ∧ p.reads s.cfg.pos m = false) := by
      by_cases hr : o.result.isSome
      · simpa [Shadow.after, hr, Graph.forget] using hm
      · simpa [Shadow.after, hr] using hm
    obtain ⟨hfresh, hhit⟩ : m ∈ s.fresh ∧
        p.nodes[m]?.any ((effect node vals).hits s.cfg.env) = false := by
      simpa [Shadow.unhit] using hun.1
    exact fresh_after ho (h.fresh m hfresh) hhit hun.2

/-- Both plans run an action whose operands are settled. -/
theorem Agree.keep {s : Shadow} {c : Config} (h : Agree ops p s c) {node : Node}
    (hready : s.ready node) (hcall : node.isCall → s.stale = []) :
    Option.Rel (Agree ops p) (s.keep ops p node) (act ops node c) := by
  have hports := h.ports hready
  obtain ⟨vals, hvals⟩ := Option.isSome_iff_exists.1 (mapM_isSome fun o ho => (hports o ho).1)
  have hvals' : node.operands.mapM s.cfg.env.port = some vals := by
    rw [← mapM_congr fun o ho => (hports o ho).2, hvals]
  have hex := exec_agree ops h.guest hcall vals s.cfg.pos s.cfg.locals
  rw [Shadow.keep, act, hvals, hvals', h.pos, h.locals, Option.bind_some, Option.bind_some]
  generalize he : exec ops node vals s.cfg.pos s.cfg.guest s.cfg.locals = x at hex ⊢
  generalize exec ops node vals s.cfg.pos c.guest s.cfg.locals = x' at hex ⊢
  cases hex with
  | none => exact .none
  | some ha => exact .some (h.after he ha)

/-- The early plan runs a write that the late plan drops. -/
theorem Agree.drop {s : Shadow} {c : Config} (h : Agree ops p s c) (off idx : ℕ) (name : String)
    {v : Port} (hv : (s.cfg.env.port v).isSome) :
    ∃ t, s.drop ops p (.writeReg off idx name v) off = some t ∧
      Agree ops p t { c with pos := c.pos + 1 } := by
  obtain ⟨x, hx⟩ := Option.isSome_iff_exists.1 hv
  have hact : act ops (.writeReg off idx name v) s.cfg =
      some (s.cfg.after ⟨s.cfg.guest.setReg off x, s.cfg.locals, none, s.cfg.pos + 1⟩) := by
    simp [act, Node.operands, hx, exec]
  refine ⟨_, by rw [Shadow.drop, hact]; rfl, ?_⟩
  refine ⟨h.pkt, by simp [Config.after, h.pos], h.locals, ⟨h.guest.mem, fun r hr => ?_⟩, h.settled,
    fun m hm => ?_⟩
  · obtain ⟨hne, hr⟩ : r ≠ off ∧ r ∉ s.stale := by simpa using hr
    simp only [Config.after, Guest.setReg, Function.update_of_ne hne]
    exact h.guest.regs r hr
  · obtain ⟨hfresh, hhit⟩ : m ∈ s.fresh ∧
        p.nodes[m]?.any ((Effect.reg off).hits s.cfg.env) = false := by
      simpa [Shadow.unhit] using hm
    have ho : exec ops (.writeReg off idx name v) [x] s.cfg.pos s.cfg.guest s.cfg.locals = some _ :=
      rfl
    exact fresh_after ho (h.fresh m hfresh) hhit (by simp)

/-! ## Runs -/

variable {flow : Flow} {ps : List Graph} {P Q : Plan}

theorem cfg_foldl_late (ns : List NodeId) (s : Shadow) :
    (ns.foldl (Shadow.late p) s).cfg = s.cfg := by
  induction ns generalizing s with
  | nil => rfl
  | cons n ns ih => exact ih (s.late p n)

theorem cfg_foldl_early (ns : List NodeId) (s : Shadow) :
    (ns.foldl (Shadow.early ops p) s).cfg =
      { s.cfg with env := ns.foldl (evalOne ops p s.cfg.guest s.cfg.locals) s.cfg.env } := by
  induction ns generalizing s with
  | nil => rfl
  | cons n ns ih => exact ih (s.early ops p n)

theorem cfg_eval (s : Shadow) : (s.eval ops P Q p).cfg = s.cfg.eval ops P p := by
  rw [Shadow.eval, cfg_foldl_late, cfg_foldl_early, Config.eval]

theorem map_cfg_keep (s : Shadow) (node : Node) :
    (s.keep ops p node).map (·.cfg) = act ops node s.cfg := by
  rw [Shadow.keep, act]
  cases node.operands.mapM s.cfg.env.port with
  | none => rfl
  | some vals =>
    simp only [Option.bind_some, Option.map_map]
    rfl

theorem map_cfg_drop (s : Shadow) (node : Node) (off : ℕ) :
    (s.drop ops p node off).map (·.cfg) = act ops node s.cfg := by
  rw [Shadow.drop, Option.map_map]
  exact Option.map_id' ..

theorem map_cfg_act (s : Shadow) (node : Node) :
    (s.act ops Q p node).map (·.cfg) = act ops node s.cfg := by
  unfold Shadow.act
  split
  · exact map_cfg_drop s _ _
  · exact map_cfg_keep s _

/-- Steps to related states, or stuck both. -/
theorem moveOn_rel {σ τ : Type*} {R : σ → τ → Prop} {a : Option σ} {b : Option τ}
    (h : Option.Rel R a b) :
    (∃ s t, (moveOn a : σ ⊕ Option Guest) = .inl s ∧ (moveOn b : τ ⊕ Option Guest) = .inl t ∧
      R s t) ∨ ∃ r : Option Guest, moveOn a = .inr r ∧ moveOn b = .inr r := by
  cases h with
  | some h => exact .inl ⟨_, _, rfl, rfl, h⟩
  | none => exact .inr ⟨none, rfl, rfl⟩

theorem rel_map {σ τ : Type*} (f : σ → τ) (a : Option σ) :
    Option.Rel (fun s t => t = f s) a (a.map f) := by
  cases a with
  | none => exact .none
  | some s => exact .some rfl

/-- The shadow follows the run of the early plan. -/
theorem lockstep_early :
    (Shadow.machine ops flow ps P Q).Lockstep (machine ops flow ps P) fun s c => c = s.cfg := by
  rintro s _ rfl
  cases hp : ps[s.cfg.pkt]? with
  | none => exact .inr ⟨none, Shadow.step_of_stray hp, step_of_stray hp⟩
  | some p =>
    cases hn : p.nodes[s.cfg.pos]? with
    | none =>
      rw [Shadow.step_of_end hp hn, step_of_end hp hn, Shadow.leave, leave]
      cases flow s.cfg.pkt (s.cfg.guest.regs Reg.PC.offset) with
      | none => exact .inr ⟨_, rfl, rfl⟩
      | some k => exact .inl ⟨_, _, rfl, rfl, rfl⟩
    | some node =>
      cases ha : P.active s.cfg.pkt s.cfg.pos with
      | true =>
        rw [Shadow.step_of_active hp hn ha, step_of_active hp hn ha, ← cfg_eval (Q := Q),
          ← map_cfg_act (Q := Q) (p := p)]
        exact moveOn_rel (rel_map _ _)
      | false =>
        rw [Shadow.step_of_inactive hp hn ha, step_of_inactive hp hn ha, ← cfg_eval (Q := Q)]
        exact .inl ⟨_, _, rfl, rfl, rfl⟩

/-- The late configuration agrees with the shadow, which stays sound. -/
structure Follows (ops : Ops) (flow : Flow) (ps : List Graph) (P Q : Plan) (s : Shadow)
    (c : Config) : Prop where
  pkt : c.pkt = s.cfg.pkt
  agree : ∀ p, ps[s.cfg.pkt]? = some p → Agree ops p s c
  sound : ∀ t, (Shadow.machine ops flow ps P Q).Visits s t → t.sound ops flow ps P Q

theorem agree_enter {k : ℕ} {g g' : Guest} {stale : List ℕ} (h : g.AgreeOff stale g') (p : Graph) :
    Agree ops p (.enter ops k g stale) (.enter ops k g') :=
  ⟨rfl, rfl, rfl, h, by simp [Shadow.enter], by simp [Shadow.enter]⟩

/-- Neither plan runs anything. -/
theorem Agree.pass {s : Shadow} {c : Config} (h : Agree ops p s c) {i j : NodeId} (hij : i = j) :
    Agree ops p { s with cfg := { s.cfg with pos := j } } { c with pos := i } :=
  ⟨h.pkt, hij, h.locals, h.guest, h.settled, h.fresh⟩

theorem pkt_of_act {c d : Config} {node : Node} (h : act ops node c = some d) :
    d.pkt = c.pkt := by
  obtain ⟨vals, -, h⟩ := Option.bind_eq_some_iff.1 h
  obtain ⟨o, -, rfl⟩ := Option.map_eq_some_iff.1 h
  rfl

theorem act_of_dropped {s : Shadow} (h : Q.active s.cfg.pkt s.cfg.pos = false) (off idx : ℕ)
    (name : String) (v : Port) :
    s.act ops Q p (.writeReg off idx name v) = s.drop ops p (.writeReg off idx name v) off := by
  simp [Shadow.act, h]

theorem act_of_kept {s : Shadow} (h : Q.active s.cfg.pkt s.cfg.pos = true) (node : Node) :
    s.act ops Q p node = s.keep ops p node := by
  simp [Shadow.act, h]

/-- The late plan follows a sound shadow. -/
theorem lockstep_late :
    (Shadow.machine ops flow ps P Q).Lockstep (machine ops flow ps Q)
      (Follows ops flow ps P Q) := by
  intro s c h
  have hsound := h.sound s (.refl s)
  have hnext : ∀ {t : Shadow} {d : Config}, (Shadow.machine ops flow ps P Q).step s = .inl t →
      d.pkt = t.cfg.pkt → (∀ p, ps[t.cfg.pkt]? = some p → Agree ops p t d) →
      Follows ops flow ps P Q t d := fun hs hpkt ha =>
    ⟨hpkt, ha, fun u hu => h.sound u (.move hs hu)⟩
  have hpkt : ps[c.pkt]? = ps[s.cfg.pkt]? := by rw [h.pkt]
  cases hp : ps[s.cfg.pkt]? with
  | none => exact .inr ⟨none, Shadow.step_of_stray hp, step_of_stray (hpkt.trans hp)⟩
  | some p =>
    have hagree := h.agree p hp
    have hpos : p.nodes[c.pos]? = p.nodes[s.cfg.pos]? := by rw [hagree.pos]
    cases hn : p.nodes[s.cfg.pos]? with
    | none =>
      have hs := @Shadow.step_of_end ops flow ps P Q s p hp hn
      simp only [Shadow.sound, hp, hn] at hsound
      obtain ⟨hpc, hstale⟩ := of_decide_eq_true hsound
      rw [step_of_end (hpkt.trans hp) (hpos.trans hn), leave, h.pkt, hagree.guest.regs _ hpc]
      cases hf : flow s.cfg.pkt (s.cfg.guest.regs Reg.PC.offset) with
      | none =>
        have hg := hagree.guest
        rw [hstale.resolve_left (by simp [hf])] at hg
        exact .inr ⟨some s.cfg.guest, by rw [hs, Shadow.leave, hf], by rw [hg.eq]⟩
      | some k =>
        have hs' : (Shadow.machine ops flow ps P Q).step s =
            .inl (.enter ops k s.cfg.guest s.stale) := by rw [hs, Shadow.leave, hf]
        exact .inl ⟨_, _, hs', rfl, hnext hs' rfl fun p _ => agree_enter hagree.guest p⟩
    | some node =>
      simp only [Shadow.sound, hp, hn] at hsound
      have heval := hagree.eval P Q
      have hcfg : (s.eval ops P Q p).cfg = s.cfg.eval ops P p := cfg_eval s
      have hpkt' : (s.eval ops P Q p).cfg.pkt = s.cfg.pkt := by rw [hcfg]; rfl
      have hpos' : (s.eval ops P Q p).cfg.pos = s.cfg.pos := by rw [hcfg]; rfl
      have hin : ∀ {t : Shadow} {d : Config}, (Shadow.machine ops flow ps P Q).step s = .inl t →
          d.pkt = c.pkt → Agree ops p t d → Follows ops flow ps P Q t d := by
        intro t d hs hd ha
        refine hnext hs ha.pkt fun q hq => ?_
        rw [← ha.pkt, hd, hpkt, hp] at hq
        exact Option.some.inj hq ▸ ha
      have hQc : Q.active c.pkt c.pos = Q.active s.cfg.pkt s.cfg.pos := by rw [h.pkt, hagree.pos]
      unfold Shadow.soundAt at hsound
      rw [hpkt', hpos'] at hsound
      cases hP : P.active s.cfg.pkt s.cfg.pos <;> cases hQ : Q.active s.cfg.pkt s.cfg.pos <;>
        simp only [hP, hQ] at hsound
      · have hs := @Shadow.step_of_inactive ops flow ps P Q s p node hp hn hP
        have hc := @step_of_inactive ops flow ps Q c p node (hpkt.trans hp) (hpos.trans hn)
          (hQc.trans hQ)
        exact .inl ⟨_, _, hs, hc, hin hs rfl (heval.pass (by rw [hagree.pos]))⟩
      · cases hsound
      · obtain ⟨off, idx, name, v, rfl, hv⟩ : ∃ off idx name v, node = .writeReg off idx name v ∧
            ((s.eval ops P Q p).cfg.env.port v).isSome := by
          split at hsound
          · exact ⟨_, _, _, _, rfl, hsound⟩
          · cases hsound
        obtain ⟨t, ht, hagree'⟩ := heval.drop off idx name hv
        have hs := @Shadow.step_of_active ops flow ps P Q s p _ hp hn hP
        rw [act_of_dropped (by rw [hpkt', hpos', hQ]), ht] at hs
        have hc := @step_of_inactive ops flow ps Q c p _ (hpkt.trans hp) (hpos.trans hn)
          (hQc.trans hQ)
        exact .inl ⟨_, _, hs, hc, hin hs rfl hagree'⟩
      · obtain ⟨hready, hcall⟩ : (s.eval ops P Q p).ready node ∧
            (node.isCall → (s.eval ops P Q p).stale = []) := by
          simpa [Bool.or_eq_true, imp_iff_not_or] using hsound
        have hkeep := heval.keep hready hcall
        have hs := @Shadow.step_of_active ops flow ps P Q s p _ hp hn hP
        rw [act_of_kept (by rw [hpkt', hpos', hQ])] at hs
        have hc := @step_of_active ops flow ps Q c p _ (hpkt.trans hp) (hpos.trans hn)
          (hQc.trans hQ)
        generalize (s.eval ops P Q p).keep ops p node = x at hkeep hs
        generalize hy : act ops node (c.eval ops Q p) = y at hkeep hc
        cases hkeep with
        | none => exact .inr ⟨none, hs, hc⟩
        | some ha => exact .inl ⟨_, _, hs, hc, hin hs ((pkt_of_act hy).trans rfl) ha⟩

/-- Two plans whose shadow is sound return the same guest, in the same runs. -/
theorem returns_iff_of_sound {k : ℕ} {g : Guest}
    (h : ∀ t, (Shadow.machine ops flow ps P Q).Visits (.enter ops k g []) t →
      t.sound ops flow ps P Q) (r : Option Guest) :
    (machine ops flow ps P).Returns (.enter ops k g) r ↔
      (machine ops flow ps Q).Returns (.enter ops k g) r := by
  have hfollows : Follows ops flow ps P Q (.enter ops k g []) (.enter ops k g) :=
    ⟨rfl, fun p _ => agree_enter ⟨rfl, fun _ _ => rfl⟩ p, h⟩
  exact (lockstep_early.returns_iff rfl r).symm.trans (lockstep_late.returns_iff hfollows r)

/-- The late plan of a sound shadow has a value for each operand of each action it
reaches. -/
theorem evaluated_of_sound {k : ℕ} {g : Guest}
    (h : ∀ t, (Shadow.machine ops flow ps P Q).Visits (.enter ops k g []) t →
      t.sound ops flow ps P Q) {c : Config} {node : Node}
    (hc : (machine ops flow ps Q).Visits (.enter ops k g) c) (hp : ps[c.pkt]? = some p)
    (hn : p.nodes[c.pos]? = some node) (hQ : Q.active c.pkt c.pos) :
    ∀ o ∈ node.operands, ((c.eval ops Q p).env.port o).isSome := by
  have hfollows : Follows ops flow ps P Q (.enter ops k g []) (.enter ops k g) :=
    ⟨rfl, fun p _ => agree_enter ⟨rfl, fun _ _ => rfl⟩ p, h⟩
  obtain ⟨s, -, hs⟩ := lockstep_late.visits hfollows hc
  rw [hs.pkt] at hp hQ
  have hagree := hs.agree p hp
  rw [hagree.pos] at hn hQ
  have hsound := hs.sound s (.refl s)
  have hcfg : (s.eval ops P Q p).cfg = s.cfg.eval ops P p := cfg_eval s
  have hpkt : (s.eval ops P Q p).cfg.pkt = s.cfg.pkt := by rw [hcfg]; rfl
  have hpos : (s.eval ops P Q p).cfg.pos = s.cfg.pos := by rw [hcfg]; rfl
  simp only [Shadow.sound, hp, hn] at hsound
  unfold Shadow.soundAt at hsound
  rw [hpkt, hpos, hQ] at hsound
  cases hP : P.active s.cfg.pkt s.cfg.pos <;> rw [hP] at hsound
  · cases hsound
  · have hready : (s.eval ops P Q p).ready node := (Bool.and_eq_true_iff.1 hsound).1
    exact fun o ho => ((hagree.eval P Q).ports hready o ho).1

end Arancini.Ir
