import Arancini.Lib.Except
import Arancini.Riscv.RegFile

/-!
# The registers at the end of a block

The code of a block follows the run that keeps book of it, register by register
(`Holds`), as long as that run is synced. It loads no register that the block has written,
since the translator notes every write down in the order of the code (`Noted`).
-/

namespace Arancini.Riscv

open Ir

/-! ## Registers and their slots -/

/-- The register takes values of the type. -/
def takes (r : Reg) (vt : ValueType) : Bool :=
  if 1 ≤ r.idx ∧ r.idx ≤ 16 then isGpr vt
  else if 17 ≤ r.idx ∧ r.idx ≤ 24 then isFlag vt
  else !isFlag vt

/-- The offset and the index are of one register, which takes values of the type. -/
def names (off idx : ℕ) (vt : ValueType) : Bool :=
  Reg.all.any fun r => off == r.offset && idx == r.idx && takes r vt

/-- A node names a register by its own offset and index, and with a type it takes. The
comparand of a compare-and-exchange is the accumulator. -/
def named (nodes : List Node) : Node → Bool
  | .readReg vt off idx _ => names off idx vt
  | .writeReg off idx _ v => names off idx v.type
  | .ternaryAtomic .cmpxchg _ acc _ =>
    match nodes[acc.owner]? with
    | some (.readReg _ off idx _) => off == Reg.RAX.offset && idx == Reg.RAX.idx
    | _ => false
  | _ => true

theorem exists_of_names {off idx : ℕ} {vt : ValueType} (h : names off idx vt) :
    ∃ r : Reg, off = r.offset ∧ idx = r.idx ∧ takes r vt := by
  obtain ⟨r, -, hr⟩ := List.any_eq_true.1 h
  exact ⟨r, by simpa [and_assoc] using hr⟩

theorem mappedAt_slot (i : Mapped) : mappedAt (slot i) = some i := by
  revert i
  decide

theorem slot_of_mappedAt {off : ℕ} {i : Mapped} (h : mappedAt off = some i) : slot i = off :=
  eq_of_beq (List.find?_some (p := fun i => slot i == off) h)

theorem slot_injective : Function.Injective slot := fun i j h =>
  Option.some.inj ((mappedAt_slot i).symm.trans (h ▸ mappedAt_slot j))

/-- A register is mapped where its index is. -/
theorem mappedAt_offset (r : Reg) :
    mappedAt r.offset = if 1 ≤ r.idx ∧ r.idx ≤ 24 then some (mappedOf r.idx) else none := by
  cases r with
  | ZMM n =>
    revert n
    decide
  | _ => decide

/-- Nothing changes where the registers stay as they are found. -/
theorem Host.put_guest (h : Host) : h.put h.guest = h := by
  obtain ⟨vregs, cpu, mem⟩ := h
  simp only [Host.put, Host.guest, mappedAt_slot, Host.mk.injEq, and_true, true_and]
  funext off
  cases hi : mappedAt off with
  | none => simp
  | some i => simp

/-! ## What the translator notes -/

/-- What the code of a packet does to mapped registers, given the notes before and after
it. -/
structure Noted (p : Packet) (s : Notes) (code : PacketCode) (s' : Notes) : Prop where
  loads : ∀ x ∈ code.loads, ∃ i, x = .load i ∧ i ∉ s.loaded
  mono : s.loaded ⊆ s'.loaded
  stores : ∀ n, ∀ x ∈ (code.stores.lookup n).getD [], ∃ i, x = .store i
  assigned : ∀ n ∈ p.actions, ∀ node, p.nodes[n]? = some node → assigns node ⊆ s'.loaded

theorem noted_getOrLoad (i : Mapped) (s : Notes) :
    (∀ x ∈ (getOrLoad i s).1, ∃ j, x = .load j ∧ j ∉ s.loaded) ∧
      s.loaded ⊆ (getOrLoad i s).2.loaded := by
  unfold getOrLoad
  split
  · exact ⟨by simp, fun _ h => h⟩
  · next hi => exact ⟨fun x hx => ⟨i, List.mem_singleton.1 hx, hi⟩, List.subset_cons_self i _⟩

theorem noted_loadAll : ∀ (l : List Mapped) (s : Notes),
    (∀ x ∈ (loadAll l s).1, ∃ i, x = .load i ∧ i ∉ s.loaded) ∧ s.loaded ⊆ (loadAll l s).2.loaded
  | [], s => ⟨by simp [loadAll], fun _ h => h⟩
  | i :: l, s => by
    obtain ⟨hfirst, hsub⟩ := noted_getOrLoad i s
    obtain ⟨hrest, hmono⟩ := noted_loadAll l (getOrLoad i s).2
    refine ⟨fun x hx => ?_, fun j hj => hmono (hsub hj)⟩
    rcases List.mem_append.1 hx with hx | hx
    · exact hfirst x hx
    · obtain ⟨j, rfl, hj⟩ := hrest x hx
      exact ⟨j, rfl, fun h => hj (hsub h)⟩

theorem stores_writeBack {s : Notes} {x : RegInstr} (h : x ∈ writeBack s) : ∃ i, x = .store i := by
  obtain ⟨i, -, rfl⟩ := List.mem_map.1 h
  exact ⟨i, rfl⟩

theorem noted_materialise {nodes : List Node} {node : Node} (hnamed : named nodes node)
    {s s' : Notes} {code : List RegInstr} (h : materialise nodes node s = .ok (code, s')) :
    (∀ x ∈ code, ∃ i, x = .store i) ∧ s.loaded ⊆ s'.loaded ∧ assigns node ⊆ s'.loaded := by
  cases node
  case writeReg off idx name v =>
    obtain ⟨r, rfl, rfl, htakes⟩ := exists_of_names hnamed
    simp only [materialise] at h
    simp only [assigns, mappedAt_offset]
    unfold takes at htakes
    grind [getOrAssign, isFlag, isGpr, Reg.idx]
  case writePc v t ct =>
    simp only [materialise] at h
    split at h <;> cases h
    exact ⟨fun _ => stores_writeBack, fun _ h => h, by simp [assigns]⟩
  case internalCall fn vt args =>
    simp only [materialise] at h
    split at h <;> cases h
    exact ⟨fun _ => stores_writeBack, fun _ h => h, by simp [assigns]⟩
  case ternaryAtomic op a o t =>
    cases op <;> simp only [materialise] at h
    case cmpxchg =>
      split at h <;> cases h
      · exact ⟨by simp, List.subset_cons_self _ _, by simp [assigns]⟩
      · exact ⟨by simp, fun _ h => h, by simp [assigns]⟩
    all_goals cases h
  case unaryAtomic => cases h
  all_goals
    cases h
    exact ⟨by simp, fun _ h => h, by simp [assigns]⟩

theorem noted_materialiseAll {nodes : List Node} (hnamed : ∀ node ∈ nodes, named nodes node) :
    ∀ {actions : List NodeId} {s s' : Notes} {code : List (NodeId × List RegInstr)},
      materialiseAll nodes actions s = .ok (code, s') →
      (∀ n, ∀ x ∈ (code.lookup n).getD [], ∃ i, x = .store i) ∧ s.loaded ⊆ s'.loaded ∧
        ∀ n ∈ actions, ∀ node, nodes[n]? = some node → assigns node ⊆ s'.loaded
  | [], s, s', code, h => by
    cases h
    exact ⟨by simp, fun _ h => h, by simp⟩
  | a :: l, s, s', code, h => by
    unfold materialiseAll at h
    split at h
    · cases h
    · next node hnode =>
      obtain ⟨⟨instrs, s₁⟩, hone, h⟩ := bind_eq_ok.1 h
      obtain ⟨⟨rest, s₂⟩, hrest, h⟩ := bind_eq_ok.1 h
      cases h
      obtain ⟨hst, hmono, hassigned⟩ :=
        noted_materialise (hnamed node (List.mem_of_getElem? hnode)) hone
      obtain ⟨hst', hmono', hassigned'⟩ := noted_materialiseAll hnamed hrest
      refine ⟨fun n x hx => ?_, fun i hi => hmono' (hmono hi), fun n hn m hm => ?_⟩
      · rw [List.lookup_cons] at hx
        split at hx
        · exact hst x hx
        · exact hst' n x hx
      · rcases List.mem_cons.1 hn with rfl | hn
        · cases hnode.symm.trans hm
          exact fun i hi => hmono' (hassigned hi)
        · exact hassigned' n hn m hm

theorem noted_endInstruction {p : Packet} (hnamed : ∀ node ∈ p.nodes, named p.nodes node)
    {s s' : Notes} {code : PacketCode} (h : endInstruction p s = .ok (code, s')) :
    Noted p s code s' := by
  obtain ⟨⟨stores, s₁⟩, hstores, h⟩ := bind_eq_ok.1 h
  cases h
  obtain ⟨hloads, hmono⟩ := noted_loadAll (usedRegs p.nodes p.actions) s
  obtain ⟨hst, hmono', hassigned⟩ := noted_materialiseAll hnamed hstores
  exact ⟨hloads, fun i hi => hmono' (hmono hi), hst, hassigned⟩

/-- The notes before each packet of a block. -/
theorem noted_translateFrom : ∀ {ps : List Packet} {s : Notes} {code : List PacketCode},
    (∀ p ∈ ps, ∀ node ∈ p.nodes, named p.nodes node) → translateFrom ps s = .ok code →
    ∃ notes : ℕ → Notes, notes 0 = s ∧
      ∀ k p, ps[k]? = some p → ∃ x, code[k]? = some x ∧ Noted p (notes k) x (notes (k + 1))
  | [], s, code, _, h => ⟨fun _ => s, rfl, by simp⟩
  | p :: ps, s, code, hnamed, h => by
    obtain ⟨⟨x, s'⟩, hx, h⟩ := bind_eq_ok.1 h
    obtain ⟨rest, hrest, h⟩ := bind_eq_ok.1 h
    cases h
    obtain ⟨notes, rfl, hnotes⟩ := noted_translateFrom (fun q hq => hnamed q (by simp [hq])) hrest
    refine ⟨fun k => Nat.rec s (fun k _ => notes k) k, rfl, fun k q hq => ?_⟩
    cases k with
    | zero =>
      cases hq
      exact ⟨x, rfl, noted_endInstruction (hnamed p (by simp)) hx⟩
    | succ k => exact hnotes k q hq

/-! ## The registers of a run -/

/-- The host holds the guest : a mapped register that is valid in its virtual register, and one
that is not dirty in its slot, unless it is fixed. -/
structure Holds (valid dirty : List Mapped) (g : Guest) (h : Host) : Prop where
  mem : h.mem = g.mem
  cpu : ∀ off, mappedAt off = none → h.cpu off = g.regs off
  vregs : ∀ i ∈ valid, h.vregs i = g.regs (slot i)
  slots : ∀ i : Mapped, i.fixed = false → i ∉ dirty → h.cpu (slot i) = g.regs (slot i)

/-- The slots of the registers that are not valid. -/
def invalid (valid : List Mapped) : List ℕ :=
  ((List.finRange 24).filter (· ∉ valid)).map slot

theorem mem_invalid {valid : List Mapped} {off : ℕ} :
    off ∈ invalid valid ↔ ∃ i, i ∉ valid ∧ slot i = off := by
  simp [invalid]

theorem slot_mem_invalid {valid : List Mapped} {i : Mapped} :
    slot i ∈ invalid valid ↔ i ∉ valid := by
  rw [mem_invalid]
  exact ⟨fun ⟨j, hj, h⟩ => slot_injective h ▸ hj, fun h => ⟨i, h, rfl⟩⟩

namespace Holds

variable {valid dirty : List Mapped} {g : Guest} {h : Host}

theorem regs (hh : Holds valid dirty g h) {off : ℕ} (hoff : off ∉ invalid valid) :
    h.guest.regs off = g.regs off := by
  cases hi : mappedAt off with
  | none => simpa [Host.guest, hi] using hh.cpu off hi
  | some i =>
    obtain rfl := slot_of_mappedAt hi
    have hvalid : i ∈ valid := by simpa [slot_mem_invalid] using hoff
    simpa [Host.guest, hi] using hh.vregs i hvalid

theorem agree (hh : Holds valid dirty g h) : g.AgreeOff (invalid valid) h.guest :=
  ⟨hh.mem, fun _ => hh.regs⟩

/-- What the host holds between blocks, if every dirty register is fixed and every fixed one
valid. -/
theorem held (hh : Holds valid dirty g h) (hdirty : ∀ i ∈ dirty, i.fixed)
    (hfixed : ∀ i : Mapped, i.fixed → i ∈ valid) : h.held = g := by
  obtain ⟨regs, mem⟩ := g
  obtain rfl : h.mem = mem := hh.mem
  refine congrArg (Guest.mk · h.mem) (funext fun off => ?_)
  cases hi : mappedAt off with
  | none => exact hh.cpu off hi
  | some i =>
    obtain rfl := slot_of_mappedAt hi
    cases hf : i.fixed with
    | true => simpa [hf] using hh.vregs i (hfixed i hf)
    | false =>
      have hi : i ∉ dirty := fun h => by simp [hdirty i h] at hf
      simpa [hf] using hh.slots i hf hi

theorem load (hh : Holds valid dirty g h) {i : Mapped} (hf : i.fixed = false) (hi : i ∉ dirty) :
    Holds (i :: valid) dirty g ((RegInstr.load i).run h) where
  mem := hh.mem
  cpu := hh.cpu
  vregs j hj := by
    by_cases hji : j = i
    · subst hji
      exact (Function.update_self ..).trans (hh.slots j hf hi)
    · exact (Function.update_of_ne hji ..).trans (hh.vregs j (List.mem_of_ne_of_mem hji hj))
  slots := hh.slots

theorem store (hh : Holds valid dirty g h) {i : Mapped} (hi : i ∈ valid) :
    Holds valid (dirty.filter (· ≠ i)) g ((RegInstr.store i).run h) where
  mem := hh.mem
  cpu off hoff := by
    have hne : off ≠ slot i := fun he => by simp [he, mappedAt_slot] at hoff
    exact (Function.update_of_ne hne ..).trans (hh.cpu off hoff)
  vregs := hh.vregs
  slots j hf hj := by
    by_cases hji : j = i
    · subst hji
      exact (Function.update_self ..).trans (hh.vregs j hi)
    · have hne : slot j ≠ slot i := fun he => hji (slot_injective he)
      exact (Function.update_of_ne hne ..).trans (hh.slots j hf (by simpa [hji] using hj))

/-- An action of the block, on the registers the code finds and on those of the guest. -/
theorem put (hh : Holds valid dirty g h) {as : List Mapped} {stale : List ℕ} {o o' : Guest}
    (ho : o.AgreeOff stale o') (hstale : ∀ off ∈ stale, ∃ i, i ∉ as ∧ i ∉ valid ∧ slot i = off)
    (hkeep : ∀ i : Mapped, i.fixed = false → i ∉ as → o.regs (slot i) = g.regs (slot i)) :
    Holds (as ++ valid) (as ++ dirty) o (h.put o') where
  mem := ho.mem
  cpu off hoff := by
    simp only [Host.put, hoff]
    refine ho.regs off fun hs => ?_
    obtain ⟨i, -, -, rfl⟩ := hstale off hs
    simp [mappedAt_slot] at hoff
  vregs i hi := by
    refine ho.regs (slot i) fun hs => ?_
    obtain ⟨j, has, hvalid, he⟩ := hstale _ hs
    obtain rfl := slot_injective he
    exact (List.mem_append.1 hi).elim has hvalid
  slots i hf hi := by
    obtain ⟨has, hdirty⟩ : i ∉ as ∧ i ∉ dirty := by simpa using hi
    simp only [Host.put, mappedAt_slot]
    exact (hh.slots i hf hdirty).trans (hkeep i hf has).symm

end Holds

/-! ## One step -/

variable {ops : Ops}

variable (ops) in
/-- Nodes that read valid registers evaluate to the same. -/
theorem foldl_evalOne_agree {p : Graph} {stale : List ℕ} {g g' : Guest} (hg : g.AgreeOff stale g')
    {locals : ℕ → ℕ} : ∀ {ns : List NodeId} {env : Env},
      (∀ n ∈ ns, ∀ node, p.nodes[n]? = some node → ∀ off, node.readsReg = some off → off ∉ stale) →
      ns.foldl (evalOne ops p g' locals) env = ns.foldl (evalOne ops p g locals) env
  | [], _, _ => rfl
  | n :: ns, env, h => by
    have hone : evalOne ops p g' locals env n = evalOne ops p g locals env n := by
      unfold evalOne
      congr 1
      cases hn : p.nodes[n]? with
      | none => rfl
      | some node =>
        refine evalNode_congr ops (fun _ _ => rfl) (fun off hoff => ?_) (fun _ _ _ _ _ => ?_)
          fun _ _ _ => rfl
        · exact hg.regs off (h n (by simp) node hn off hoff)
        · rw [hg.mem]
    rw [List.foldl_cons, List.foldl_cons, hone]
    exact foldl_evalOne_agree hg fun m hm => h m (by simp [hm])

/-- What a helper asks for is not done before the block is left. -/
theorem exec_deferred {node : Node} (h : node.isCall) (vals : List ℕ) (pos : NodeId) (g : Guest)
    (locals : ℕ → ℕ) :
    exec (deferred ops) node vals pos g locals = some ⟨g, locals, some fun _ => 0, pos + 1⟩ := by
  cases node <;> first | rfl | cases h

/-- An action on the registers the code finds, and on those of the guest. -/
structure Outcome.Tracks (node : Node) (valid dirty : List Mapped) (h : Host) (o o' : Outcome) :
    Prop where
  holds : Holds (assigns node ++ valid) (assigns node ++ dirty) o.guest (h.put o'.guest)
  locals : o'.locals = o.locals
  result : o'.result = o.result
  next : o'.next = o.next

/-- Only the write of a register writes a slot that is not fixed. -/
theorem mem_assigns_of_hitsReg {node : Node} (hcall : node.isCall = false) {vals : List ℕ}
    {i : Mapped} (hf : i.fixed = false) (h : (effect node vals).hitsReg (slot i)) :
    i ∈ assigns node := by
  unfold effect at h
  split at h
  case h_1 =>
    have hpc : slot i = Reg.PC.offset := (eq_of_beq h).symm
    have := mappedAt_slot i
    rw [hpc] at this
    cases this
  case h_2 off _ _ _ _ =>
    have hoff : off = slot i := eq_of_beq h
    simp [assigns, hoff, mappedAt_slot]
  case h_7 =>
    have hrax : slot i = slot 0 := (eq_of_beq h).symm
    obtain rfl := slot_injective hrax
    cases hf
  case h_9 => cases hcall
  all_goals cases h

/-- A slot that an action leaves stale is of no register that is valid or that it writes. -/
theorem stale_effect {node : Node} {vals : List ℕ} (hlen : vals.length = node.operands.length)
    {valid : List Mapped} {off : ℕ} (h : off ∈ (effect node vals).stale (invalid valid)) :
    ∃ i, i ∉ assigns node ∧ i ∉ valid ∧ slot i = off := by
  have hsub : off ∈ invalid valid := by
    unfold Effect.stale at h
    split at h
    · exact List.mem_of_mem_filter h
    · exact h
  obtain ⟨i, hi, rfl⟩ := mem_invalid.1 hsub
  refine ⟨i, fun ha => ?_, hi, rfl⟩
  cases node
  case writeReg off idx name v =>
    obtain ⟨x, rfl⟩ := List.length_eq_one_iff.1 hlen
    obtain rfl := slot_of_mappedAt (Option.mem_toList.1 ha)
    simp [effect, Effect.stale] at h
  all_goals cases ha

variable (ops) in
theorem tracks_of_exec {node : Node} {vals : List ℕ} (hlen : vals.length = node.operands.length)
    {valid dirty : List Mapped} {g : Guest} {h : Host} (hh : Holds valid dirty g h) (pos : NodeId)
    (locals : ℕ → ℕ) :
    Option.Rel (Outcome.Tracks node valid dirty h)
      (exec (deferred ops) node vals pos g locals)
      (exec (deferred ops) node vals pos h.guest locals) := by
  cases hcall : node.isCall with
  | true =>
    rw [exec_deferred hcall, exec_deferred hcall]
    refine .some ⟨hh.put hh.agree (fun off hoff => ?_) fun _ _ _ => rfl, rfl, rfl, rfl⟩
    obtain ⟨i, hi, rfl⟩ := mem_invalid.1 hoff
    refine ⟨i, ?_, hi, rfl⟩
    cases node <;> first | exact List.not_mem_nil | cases hcall
  | false =>
    have hno : node.isCall → invalid valid = [] := fun hc => by simp [hcall] at hc
    have hrel := exec_agree (deferred ops) hh.agree hno vals pos locals
    generalize hx : exec (deferred ops) node vals pos g locals = x at hrel ⊢
    generalize exec (deferred ops) node vals pos h.guest locals = y at hrel ⊢
    cases hrel with
    | none => exact .none
    | @some o o' ho =>
      have hbounds := bounds_of_exec (deferred ops) hx
      refine .some ⟨hh.put ho.guest (fun off hoff => ?_) fun i hf hi => ?_, ho.locals, ho.result,
        ho.next⟩
      · exact stale_effect hlen hoff
      · refine hbounds.regs _ ?_
        cases hhit : (effect node vals).hitsReg (slot i) with
        | false => rfl
        | true => exact absurd (mem_assigns_of_hitsReg hcall hf hhit) hi

theorem length_mapM {f : Port → Option ℕ} : ∀ {l : List Port} {vals : List ℕ},
    l.mapM f = some vals → vals.length = l.length
  | [], vals, h => by
    cases h
    rfl
  | o :: l, vals, h => by
    obtain ⟨v, -, h⟩ := Option.bind_eq_some_iff.1 (List.mapM_cons.symm.trans h)
    obtain ⟨vs, hvs, h⟩ := Option.bind_eq_some_iff.1 h
    cases h
    rw [List.length_cons, List.length_cons, length_mapM hvs]

/-! ## Instructions on mapped registers -/

/-- The instruction keeps the registers of the guest : it loads no register that is dirty, and
stores none that is not valid. -/
def RegInstr.Fits (valid dirty : List Mapped) : RegInstr → Prop
  | load i => i.fixed = false ∧ i ∉ dirty
  | store i => i ∈ valid

/-- The book `t'` after some instructions on mapped registers. -/
structure Track.Extends (t t' : Track) : Prop where
  cfg : t'.cfg = t.cfg
  valid : t.valid ⊆ t'.valid
  dirty : t'.dirty ⊆ t.dirty

theorem Track.extends_afterInstr (t : Track) (x : RegInstr) : t.Extends (t.afterInstr x) := by
  cases x with
  | load i => exact ⟨rfl, List.subset_cons_self i _, fun _ h => h⟩
  | store i => exact ⟨rfl, fun _ h => h, List.filter_subset_self _⟩

theorem RegInstr.Fits.mono {t t' : Track} {x : RegInstr} (h : x.Fits t.valid t.dirty)
    (he : t.Extends t') : x.Fits t'.valid t'.dirty := by
  cases x with
  | load i => exact ⟨h.1, fun hi => h.2 (he.dirty hi)⟩
  | store i => exact he.valid h

theorem Holds.run {t : Track} {g : Guest} {h : Host} (hh : Holds t.valid t.dirty g h) {x : RegInstr}
    (hx : x.Fits t.valid t.dirty) :
    Holds (t.afterInstr x).valid (t.afterInstr x).dirty g (x.run h) := by
  cases x with
  | load i => exact hh.load hx.1 hx.2
  | store i => exact hh.store hx

theorem Holds.runAll {g : Guest} : ∀ {l : List RegInstr} {t : Track} {h : Host},
    (∀ x ∈ l, x.Fits t.valid t.dirty) → Holds t.valid t.dirty g h →
    t.Extends (l.foldl Track.afterInstr t) ∧
      Holds (l.foldl Track.afterInstr t).valid (l.foldl Track.afterInstr t).dirty g
        (l.foldl RegInstr.run h)
  | [], _, _, _, hh => ⟨⟨rfl, fun _ h => h, fun _ h => h⟩, hh⟩
  | x :: l, t, h, hl, hh => by
    have hext := t.extends_afterInstr x
    obtain ⟨hext', hh'⟩ := Holds.runAll (l := l) (fun y hy => (hl y (by simp [hy])).mono hext)
      (hh.run (hl x (by simp)))
    exact ⟨⟨hext'.cfg.trans hext.cfg, fun i hi => hext'.valid (hext.valid hi),
      fun i hi => hext.dirty (hext'.dirty hi)⟩, hh'⟩

/-! ## Runs -/

variable {c : Chunk} {code : List PacketCode}

/-- The code stands where the run does, and holds its registers. -/
structure Follows (ops : Ops) (c : Chunk) (code : List PacketCode) (notes : ℕ → Notes) (t : Track)
    (s : HostConfig) : Prop where
  pkt : s.pkt = t.cfg.pkt
  pos : s.pos = t.cfg.pos
  locals : s.locals = t.cfg.locals
  env : s.env = t.cfg.env
  holds : Holds t.valid t.dirty t.cfg.guest s.host
  fixed : ∀ i : Mapped, i.fixed → i ∈ t.valid
  noted : (c.packets[t.cfg.pkt]?).isSome →
    ∀ i : Mapped, i.fixed ∨ i ∈ t.dirty → i ∈ (notes (t.cfg.pkt + 1)).loaded
  synced : ∀ u, (Track.machine ops c code).Visits t u → u.synced c code

section Step

variable {t : Track} {s : HostConfig} {p : Graph} {node : Node}

theorem Track.step_of_active (hp : c.graphs[t.cfg.pkt]? = some p)
    (hn : p.nodes[t.cfg.pos]? = some node) (ha : (plan c).active t.cfg.pkt t.cfg.pos) :
    (Track.machine ops c code).step t =
      moveOn ((act (deferred ops) node (t.cfg.eval (deferred ops) (plan c) p)).map
        (t.after node (storesAt code t.cfg.pkt t.cfg.pos))) := by
  simp [Track.machine, hp, hn, ha]

variable (ops code) in
theorem Track.step_of_inactive (hp : c.graphs[t.cfg.pkt]? = some p)
    (hn : p.nodes[t.cfg.pos]? = some node) (ha : (plan c).active t.cfg.pkt t.cfg.pos = false) :
    (Track.machine ops c code).step t =
      .inl { t with
        cfg := { t.cfg.eval (deferred ops) (plan c) p with pos := t.cfg.pos + 1 } } := by
  simp [Track.machine, hp, hn, ha]

variable (ops code) in
theorem Track.step_of_end (hp : c.graphs[t.cfg.pkt]? = some p) (hn : p.nodes[t.cfg.pos]? = none) :
    (Track.machine ops c code).step t =
      match c.flow false t.cfg.pkt (t.cfg.guest.regs Reg.PC.offset) with
      | some k => .inl (.enter ops code k t.cfg.guest t.valid t.dirty)
      | none => .inr (some t.cfg.guest) := by
  simp only [Track.machine, hp, hn] <;> rfl

theorem hostStep_of_active (hp : c.graphs[s.pkt]? = some p) (hn : p.nodes[s.pos]? = some node)
    (ha : (plan c).active s.pkt s.pos) :
    (hostMachine ops c code).step s =
      moveOn ((act (deferred ops) node (s.found.eval (deferred ops) (plan c) p)).map
        fun d => s.resume d (storesAt code s.pkt s.pos)) := by
  simp [hostMachine, hp, hn, ha]

theorem hostStep_of_inactive (hp : c.graphs[s.pkt]? = some p) (hn : p.nodes[s.pos]? = some node)
    (ha : (plan c).active s.pkt s.pos = false) :
    (hostMachine ops c code).step s =
      .inl (s.resume { s.found.eval (deferred ops) (plan c) p with pos := s.pos + 1 } []) := by
  simp [hostMachine, hp, hn, ha]

theorem hostStep_of_end (hp : c.graphs[s.pkt]? = some p) (hn : p.nodes[s.pos]? = none) :
    (hostMachine ops c code).step s =
      match c.flow false s.pkt (s.host.guest.regs Reg.PC.offset) with
      | some k => .inl (.enter ops code k s.host)
      | none => .inr (some s.host.held) := by
  simp only [hostMachine, hp, hn] <;> rfl

end Step

/-- The instructions of the block go one after the other. -/
theorem flow_eq (c : Chunk) (k pc : ℕ) :
    c.flow false k pc = if k + 1 < c.packets.length then some (k + 1) else none := by
  simp [Chunk.flow, nextPacket]

/-- What the code finds for its nodes is what the run finds, if they read valid registers. -/
theorem found_eval {t : Track} {s : HostConfig} {p : Graph} {notes : ℕ → Notes}
    (h : Follows ops c code notes t s) (hp : c.graphs[t.cfg.pkt]? = some p) {node : Node}
    (hn : p.nodes[t.cfg.pos]? = some node) :
    s.found.eval (deferred ops) (plan c) p =
      { t.cfg.eval (deferred ops) (plan c) p with guest := s.host.guest } := by
  have hsynced := h.synced t (.refl t)
  simp only [Track.synced, hp, hn] at hsynced
  have hreads := List.all_eq_true.1 (Bool.and_eq_true_iff.1 hsynced).1
  have hfold : ∀ n ∈ (plan c).evals t.cfg.pkt t.cfg.pos, ∀ m, p.nodes[n]? = some m →
      ∀ off, m.readsReg = some off → off ∉ invalid t.valid := by
    intro n hmem m hm off hoff hinvalid
    obtain ⟨i, hi, rfl⟩ := mem_invalid.1 hinvalid
    have hall := hreads n hmem
    simp only [hm, Option.all_some, reads, hoff, Option.bind_some, mappedAt_slot,
      Option.toList_some, List.all_cons, List.all_nil, Bool.and_true, decide_eq_true_eq] at hall
    exact hi hall
  have henv : ((plan c).evals t.cfg.pkt t.cfg.pos).foldl
      (evalOne (deferred ops) p s.host.guest t.cfg.locals) t.cfg.env = _ :=
    foldl_evalOne_agree (deferred ops) h.holds.agree hfold
  simp only [HostConfig.found, Config.eval, h.pkt, h.pos, h.locals, h.env, henv]

theorem getElem?_graphs {k : ℕ} : c.graphs[k]? = c.packets[k]?.map (·.graph) := by
  simp [Chunk.graphs]

/-- Within a packet, the next step is followed if the registers are held and the notes cover
what is written. -/
theorem Follows.next {notes : ℕ → Notes} {t u : Track} {s v : HostConfig}
    (h : Follows ops c code notes t s) (hstep : (Track.machine ops c code).step t = .inl u)
    (hcfg : v.found = { u.cfg with guest := v.host.guest }) (hpkt : u.cfg.pkt = t.cfg.pkt)
    (hholds : Holds u.valid u.dirty u.cfg.guest v.host) (hvalid : t.valid ⊆ u.valid)
    (hdirty : ∀ i ∈ u.dirty, i ∈ t.dirty ∨ i ∈ (notes (t.cfg.pkt + 1)).loaded) :
    Follows ops c code notes u v where
  pkt := congrArg Config.pkt hcfg
  pos := congrArg Config.pos hcfg
  locals := congrArg Config.locals hcfg
  env := congrArg Config.env hcfg
  holds := hholds
  fixed i hi := hvalid (h.fixed i hi)
  noted hp i hi := by
    rw [hpkt] at hp ⊢
    rcases hi with hi | hi
    · exact h.noted hp i (.inl hi)
    · exact (hdirty i hi).elim (fun hi => h.noted hp i (.inr hi)) id
  synced w hw := h.synced w (.move hstep hw)

/-- After an action, and the instructions on mapped registers that belong to it. -/
theorem follows_act {notes : ℕ → Notes} {t : Track} {s : HostConfig} {p : Packet} {x : PacketCode}
    (h : Follows ops c code notes t s) (hp : c.packets[t.cfg.pkt]? = some p)
    (hx : code[t.cfg.pkt]? = some x) (hnoted : Noted p (notes t.cfg.pkt) x (notes (t.cfg.pkt + 1)))
    {node : Node} (hn : p.nodes[t.cfg.pos]? = some node)
    (ha : (plan c).active t.cfg.pkt t.cfg.pos) :
    Option.Rel
      (fun u v => (Track.machine ops c code).step t = .inl u → Follows ops c code notes u v)
      ((act (deferred ops) node (t.cfg.eval (deferred ops) (plan c) p.graph)).map
        (t.after node (storesAt code t.cfg.pkt t.cfg.pos)))
      ((act (deferred ops) node (s.found.eval (deferred ops) (plan c) p.graph)).map
        fun d => s.resume d (storesAt code s.pkt s.pos)) := by
  have hg : c.graphs[t.cfg.pkt]? = some p.graph := by rw [getElem?_graphs, hp]; rfl
  have hmem : t.cfg.pos ∈ p.actions := by simpa [plan, hp] using ha
  have hsynced := h.synced t (.refl t)
  simp only [Track.synced, hg, show p.graph.nodes = p.nodes from rfl, hn] at hsynced
  have hstores : storesAt code t.cfg.pkt t.cfg.pos = (x.stores.lookup t.cfg.pos).getD [] := by
    rw [storesAt, hx]
    rfl
  have hfits : ∀ y ∈ storesAt code t.cfg.pkt t.cfg.pos, ∃ i, y = .store i ∧ i ∈ t.valid := by
    intro y hy
    obtain ⟨i, rfl⟩ := hnoted.stores t.cfg.pos y (hstores ▸ hy)
    have hall := (Bool.and_eq_true_iff.1 hsynced).2
    rw [ha] at hall
    exact ⟨i, rfl, by simpa using List.all_eq_true.1 hall _ hy⟩
  rw [found_eval h hg hn, h.pkt, h.pos]
  unfold act
  cases hvals : node.operands.mapM (t.cfg.eval (deferred ops) (plan c) p.graph).env.port with
  | none =>
    simp only [Option.bind_none, Option.map_none]
    exact .none
  | some vals =>
    have hrel := tracks_of_exec ops (length_mapM hvals) h.holds t.cfg.pos t.cfg.locals
    simp only [Option.bind_some, Option.map_map]
    have hcfg : (t.cfg.eval (deferred ops) (plan c) p.graph).pos = t.cfg.pos ∧
        (t.cfg.eval (deferred ops) (plan c) p.graph).guest = t.cfg.guest ∧
        (t.cfg.eval (deferred ops) (plan c) p.graph).locals = t.cfg.locals := ⟨rfl, rfl, rfl⟩
    rw [hcfg.1, hcfg.2.1, hcfg.2.2]
    generalize exec (deferred ops) node vals t.cfg.pos t.cfg.guest t.cfg.locals = a at hrel ⊢
    generalize exec (deferred ops) node vals t.cfg.pos s.host.guest t.cfg.locals = b at hrel ⊢
    cases hrel with
    | none => exact .none
    | @some o o' ho =>
      have hruns := Holds.runAll (t := ⟨(t.cfg.eval (deferred ops) (plan c) p.graph).after o,
        assigns node ++ t.valid, assigns node ++ t.dirty⟩)
        (fun y (hy : y ∈ storesAt code t.cfg.pkt t.cfg.pos) => by
          obtain ⟨i, rfl, hi⟩ := hfits y hy
          exact List.mem_append_right _ hi) ho.holds
      change Track.Extends _ (t.after node _ _) ∧ Holds (t.after node _ _).valid
        (t.after node _ _).dirty _ _ at hruns
      refine .some fun hstep => ?_
      change _ = Sum.inl (t.after node _ _) at hstep
      change Follows ops c code notes (t.after node _ _) _
      generalize t.after node (storesAt code t.cfg.pkt t.cfg.pos)
        ((t.cfg.eval (deferred ops) (plan c) p.graph).after o) = u at hruns hstep ⊢
      obtain ⟨⟨hcfg, hvalid, hdirty⟩, hholds⟩ := hruns
      refine h.next hstep ?_ (by rw [hcfg]; rfl) (by rw [hcfg]; exact hholds)
        (fun i hi => hvalid (List.mem_append_right _ hi)) fun i hi => ?_
      · simp only [hcfg, Function.comp, HostConfig.found, HostConfig.resume, Config.after,
          ho.result, ho.locals, ho.next]
        rfl
      · rcases List.mem_append.1 (hdirty hi) with hi | hi
        · exact .inr (hnoted.assigned _ hmem node hn hi)
        · exact .inl hi

/-- At the start of a packet, after its loads. -/
theorem follows_enter {notes : ℕ → Notes} {k : ℕ} {g : Guest} {h : Host} {valid dirty : List Mapped}
    (hcode : ∀ p, c.packets[k]? = some p →
      ∃ x, code[k]? = some x ∧ Noted p (notes k) x (notes (k + 1)))
    (hh : Holds valid dirty g h) (hfixed : ∀ i : Mapped, i.fixed → i ∈ valid)
    (hnoted : ∀ i : Mapped, i.fixed ∨ i ∈ dirty → i ∈ (notes k).loaded) (hk : k < c.packets.length)
    (hsynced : ∀ u, (Track.machine ops c code).Visits (.enter ops code k g valid dirty) u →
      u.synced c code) :
    Follows ops c code notes (.enter ops code k g valid dirty) (.enter ops code k h) := by
  obtain ⟨x, hx, hspec⟩ := hcode _ (List.getElem?_eq_getElem hk)
  have hloads : ∀ y ∈ loadsAt code k, y.Fits valid dirty := by
    intro y hy
    obtain ⟨i, rfl, hi⟩ := hspec.loads y (by simpa [loadsAt, hx] using hy)
    refine ⟨?_, fun hd => hi (hnoted i (.inr hd))⟩
    cases hf : i.fixed with
    | false => rfl
    | true => exact absurd (hnoted i (.inl hf)) hi
  have hruns := Holds.runAll (t := ⟨.enter ops k g, valid, dirty⟩) hloads hh
  change Track.Extends _ (Track.enter ops code k g valid dirty) ∧
    Holds (Track.enter ops code k g valid dirty).valid (Track.enter ops code k g valid dirty).dirty
      _ _ at hruns
  generalize Track.enter ops code k g valid dirty = u at hruns hsynced ⊢
  obtain ⟨⟨hcfg, hvalid, hdirty⟩, hholds⟩ := hruns
  refine ⟨by rw [hcfg]; rfl, by rw [hcfg]; rfl, by rw [hcfg]; rfl, by rw [hcfg]; rfl,
    by rw [hcfg]; exact hholds, fun i hi => hvalid (hfixed i hi), fun _ i hi => ?_, hsynced⟩
  rw [hcfg]
  exact hspec.mono (hnoted i (hi.imp id fun hi => hdirty hi))

/-- The code follows a synced run. -/
theorem lockstep_host {notes : ℕ → Notes}
    (hcode : ∀ k p, c.packets[k]? = some p →
      ∃ x, code[k]? = some x ∧ Noted p (notes k) x (notes (k + 1))) :
    (Track.machine ops c code).Lockstep (hostMachine ops c code) (Follows ops c code notes) := by
  intro t s h
  have hgs : c.graphs[s.pkt]? = c.graphs[t.cfg.pkt]? := by rw [h.pkt]
  cases hp : c.packets[t.cfg.pkt]? with
  | none =>
    have hg : c.graphs[t.cfg.pkt]? = none := by rw [getElem?_graphs, hp]; rfl
    refine .inr ⟨none, ?_, ?_⟩
    · simp only [Track.machine, hg]
    · simp only [hostMachine, hgs.trans hg]
  | some p =>
    have hg : c.graphs[t.cfg.pkt]? = some p.graph := by rw [getElem?_graphs, hp]; rfl
    have hpos : p.graph.nodes[s.pos]? = p.graph.nodes[t.cfg.pos]? := by rw [h.pos]
    cases hn : p.graph.nodes[t.cfg.pos]? with
    | none =>
      have hstep := Track.step_of_end ops code hg hn
      rw [hstep, hostStep_of_end (hgs.trans hg) (hpos.trans hn), h.pkt, flow_eq, flow_eq]
      rw [flow_eq] at hstep
      split
      · next k hk =>
        split at hk
        · next hlt =>
          cases hk
          rw [if_pos hlt] at hstep
          refine .inl ⟨_, _, rfl, rfl, follows_enter (hcode _) h.holds h.fixed ?_ hlt
            fun u hu => h.synced u (.move hstep hu)⟩
          exact h.noted (by simp [hp])
        · cases hk
      · next hk =>
        have hsynced := h.synced t (.refl t)
        simp only [Track.synced, hg, hn, flow_eq, hk, Option.isSome_none, Bool.false_or,
          List.all_eq_true] at hsynced
        exact .inr ⟨_, rfl, congrArg (Sum.inr ∘ some) (h.holds.held hsynced h.fixed)⟩
    | some node =>
      obtain ⟨x, hx, hspec⟩ := hcode _ p hp
      cases ha : (plan c).active t.cfg.pkt t.cfg.pos with
      | true =>
        have hrel := follows_act h hp hx hspec hn ha
        rw [Track.step_of_active hg hn ha] at hrel ⊢
        rw [hostStep_of_active (hgs.trans hg) (hpos.trans hn) (by rw [h.pkt, h.pos, ha])]
        rcases moveOn_rel hrel with ⟨u, v, hu, hv, huv⟩ | hstuck
        · exact .inl ⟨u, v, hu, hv, huv hu⟩
        · exact .inr hstuck
      | false =>
        have hstep := Track.step_of_inactive ops code hg hn ha
        rw [hstep, hostStep_of_inactive (hgs.trans hg) (hpos.trans hn) (by rw [h.pkt, h.pos, ha])]
        refine .inl ⟨_, _, rfl, rfl, h.next hstep ?_ rfl ?_ (fun _ hi => hi) fun _ hi => .inl hi⟩
        · rw [found_eval h hg hn, h.pos, HostConfig.resume, HostConfig.found]
        · rw [found_eval h hg hn]
          change Holds t.valid t.dirty t.cfg.guest (s.host.put s.host.guest)
          rw [Host.put_guest]
          exact h.holds

theorem cfg_foldl_afterInstr (l : List RegInstr) (t : Track) :
    (l.foldl Track.afterInstr t).cfg = t.cfg := by
  induction l generalizing t with
  | nil => rfl
  | cons x l ih => exact (ih _).trans (t.extends_afterInstr x).cfg

variable (ops c code) in
/-- The run that keeps book is the run of the plan. -/
theorem lockstep_planned :
    (Track.machine ops c code).Lockstep (planned ops c) fun t d => d = t.cfg := by
  rintro t _ rfl
  cases hg : c.graphs[t.cfg.pkt]? with
  | none => exact .inr ⟨none, by simp only [Track.machine, hg], step_of_stray hg⟩
  | some p =>
    cases hn : p.nodes[t.cfg.pos]? with
    | none =>
      rw [Track.step_of_end ops code hg hn, planned, step_of_end hg hn, leave]
      cases c.flow false t.cfg.pkt (t.cfg.guest.regs Reg.PC.offset) with
      | none => exact .inr ⟨_, rfl, rfl⟩
      | some k =>
        exact .inl ⟨_, _, rfl, rfl, (cfg_foldl_afterInstr _ ⟨.enter ops k t.cfg.guest, _, _⟩).symm⟩
    | some node =>
      cases ha : (plan c).active t.cfg.pkt t.cfg.pos with
      | true =>
        rw [Track.step_of_active hg hn ha, planned, step_of_active hg hn ha]
        cases act (deferred ops) node (t.cfg.eval (deferred ops) (plan c) p) with
        | none => exact .inr ⟨none, rfl, rfl⟩
        | some d => exact .inl ⟨_, _, rfl, rfl, (cfg_foldl_afterInstr _ ⟨d, _, _⟩).symm⟩
      | false =>
        rw [Track.step_of_inactive ops code hg hn ha, planned, step_of_inactive hg hn ha]
        exact .inl ⟨_, _, rfl, rfl, rfl⟩

/-- Between blocks, the host holds what it holds. -/
theorem holds_held (h : Host) :
    Holds ((List.finRange 24).filter Mapped.fixed) [] h.held h where
  mem := rfl
  cpu off hoff := by simp [Host.held, hoff]
  vregs i hi := by
    have hf : i.fixed := (List.mem_filter.1 hi).2
    simp [Host.held, mappedAt_slot, hf]
  slots i hf _ := by simp [Host.held, mappedAt_slot, hf]

open X86 X86.Builder

/-- `shifts_translator` on `SHL` of `RAX` by `CL`. -/
def shl : Builder Port := do
  let src ← readReg (.u 64) .RAX "RAX"
  let amt ← readReg (.u 8) .RCX "RCX"
  let amt ← binop .band amt (← const (.u 8) 0x3F)
  let zeroShift ← binop .cmpeq amt (← const (.u 8) 0)
  let _ ← insert (.u 0) (.condBr zeroShift (some 22))
  let shift ← lsl src amt
  let _ ← writeReg .RAX "RAX" shift
  let _ ← writeReg .ZF "ZF" { shift with kind := .zero, type := .u 1 }
  let _ ← writeReg .SF "SF" { shift with kind := .negative, type := .u 1 }
  let amtMin1 ← binop .sub amt (← const (.u 8) 1)
  let tmpShift ← lsl src amtMin1
  let lastShiftBit ← Builder.bitExtract tmpShift 63 1
  let _ ← writeReg .CF "CF" lastShiftBit
  let oneShift ← binop .cmpne amt (← const (.u 8) 1)
  let _ ← insert (.u 0) (.condBr oneShift (some 23))
  let msb ← Builder.bitExtract shift 63 1
  let of ← binop .bxor lastShiftBit msb
  let _ ← writeReg .OF "OF" of
  let _ ← insert (.u 0) (.label "end")
  insert (.u 0) (.label "end")

/-- `jump_translator` on a `JMP` to `0x2000`. -/
def jmp : Builder Port := do
  let target ← const (.u 64) 0x2000
  insert (.u 64) (.writePc target .br 0x2000)

def shlJmp : Chunk :=
  ⟨"", [packetOf 0x1000 (shl []).2 (by decide), packetOf 0x1003 (jmp []).2 (by decide)]⟩

/-- The carry flag is set, and `RCX` is `count`. -/
def shifting (count : ℕ) : Host where
  vregs i := if i = mappedOf Reg.RCX.idx then count else 0
  cpu off := if off = Reg.CF.offset then 1 else 0
  mem _ := 0

def shlJmpCode : List PacketCode :=
  [⟨[], [(6, []), (8, []), (9, []), (10, []), (15, []), (18, []), (21, []), (22, []), (23, [])]⟩,
    ⟨[], [(1, [.store 16, .store 17, .store 18, .store 19])]⟩]

theorem translate_shlJmp : translate shlJmp = .ok shlJmpCode := by
  rfl

end Arancini.Riscv
