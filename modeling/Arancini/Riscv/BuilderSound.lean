import Mathlib.Data.List.Forall2
import Arancini.Riscv.Builder

/-!
# What the scan of the builder keeps

`Becomes` says what becomes of an instruction : it stays or is killed, operands that are registers
of the host already stay as they are, and what it writes is none of the registers to avoid unless
it named that register itself. `allocateFrom_spec` says that of the whole code.

The scan gives out a register only if it is free, so it never gives out `RA`, and it gives out `A1`
only to instructions before a definition of `A1` (`allocate_becomes`, `allocate_around`).
-/

namespace Arancini.Riscv.Builder

open RegAlloc

/-! ## What becomes of an instruction -/

/-- The scan leaves such an operand as it is. -/
def RegisterOperand.Fixed (r : RegisterOperand) : Prop :=
  r = noneReg ∨ r.isPhysical

/-- The scan does not kill the instruction. -/
def Instruction.Stays (i : Instruction) : Prop :=
  i.rd.Fixed ∧ (i.func ≠ .addiNormal ∧ i.func ≠ .add ∨
    i.rd ≠ ZERO ∧ i.rs1 = ZERO ∧ i.rs2 = noneReg)

/-- The second instruction is what becomes of the first in a scan that hands out none of the
registers to avoid. -/
structure Becomes (avoid : Set ℕ) (i o : Instruction) : Prop where
  type : o.type = i.type ∨ o.type = .dead
  func : o.func = i.func
  imm : o.imm = i.imm
  label : o.label = i.label
  rd : i.rd.Fixed → o.rd = i.rd
  rs1 : i.rs1.Fixed → o.rs1 = i.rs1
  rs2 : i.rs2.Fixed → o.rs2 = i.rs2
  avoids : o.rd.encoding ∈ avoid → i.rd.Fixed
  stays : i.Stays → o.type = i.type

/-- None of the registers to avoid is free or belongs to a variable. -/
def Registers.Avoids (T : Registers) (avoid : Set ℕ) : Prop :=
  ∀ r ∈ avoid, T.free r = false ∧ ∀ v, T.map v ≠ some r

section Becomes

variable {avoid : Set ℕ} {i j o : Instruction} {T T' : Registers}

theorem Becomes.refl (i : Instruction) (h : i.rd.encoding ∈ avoid → i.rd.Fixed) :
    Becomes avoid i i :=
  ⟨.inl rfl, rfl, rfl, rfl, fun _ => rfl, fun _ => rfl, fun _ => rfl, h, fun _ => rfl⟩

theorem zero_fixed : ZERO.Fixed := .inr rfl

theorem noneReg_fixed : noneReg.Fixed := .inl rfl

theorem Becomes.stays_of_stays (h : Becomes avoid i o) (hi : i.Stays) : o.Stays := by
  obtain ⟨hfixed, hkind⟩ := hi
  refine ⟨h.rd hfixed ▸ hfixed, ?_⟩
  rcases hkind with hfunc | ⟨hzero, h1, h2⟩
  · exact .inl (by rwa [h.func])
  · refine .inr ⟨by rwa [h.rd hfixed], ?_, ?_⟩
    · rw [h.rs1 (h1 ▸ zero_fixed), h1]
    · rw [h.rs2 (h2 ▸ noneReg_fixed), h2]

theorem Becomes.trans (h : Becomes avoid i j) (h' : Becomes avoid j o) : Becomes avoid i o where
  type := by
    rcases h'.type with h' | h'
    · rw [h']
      exact h.type
    · exact .inr h'
  func := h'.func.trans h.func
  imm := h'.imm.trans h.imm
  label := h'.label.trans h.label
  rd hi := (h'.rd (h.rd hi ▸ hi)).trans (h.rd hi)
  rs1 hi := (h'.rs1 (h.rs1 hi ▸ hi)).trans (h.rs1 hi)
  rs2 hi := (h'.rs2 (h.rs2 hi ▸ hi)).trans (h.rs2 hi)
  avoids ho := by
    have hj := h'.avoids ho
    rw [h'.rd hj] at ho
    exact h.avoids ho
  stays hi := (h'.stays (h.stays_of_stays hi)).trans (h.stays hi)

end Becomes

/-! ## The registers that are not handed out -/

section Avoid

variable {avoid : Set ℕ} (havoid : ∀ r ∈ avoid, r < 32) {i : Instruction} {T T' : Registers}
  {code code' : List Instruction} {A A' : Alloc} {n : ℕ}

include havoid in
theorem fixed_of_mem {r : RegisterOperand} (h : r.encoding ∈ avoid) : r.Fixed :=
  .inr (decide_eq_true (havoid _ h))

theorem Registers.Avoids.take (h : T.Avoids avoid) (v : ℕ) {p : ℕ} (hp : T.free p = true) :
    Registers.Avoids (T.take v p) avoid := by
  intro r hr
  obtain ⟨hfree, hmap⟩ := h r hr
  have hne : r ≠ p := by
    rintro rfl
    rw [hfree] at hp
    cases hp
  refine ⟨(Function.update_of_ne hne ..).trans hfree, fun w hw => ?_⟩
  by_cases hwv : w = v
  · have hself : Function.update T.map v (some p) v = some r := hwv ▸ hw
    rw [Function.update_self] at hself
    exact hne (Option.some.inj hself).symm
  · exact hmap w ((Function.update_of_ne hwv ..).symm.trans hw)

theorem Registers.Avoids.forget (h : T.Avoids avoid) {v p : ℕ} (hp : T.map v = some p) :
    Registers.Avoids (T.forget v p) avoid := by
  intro r hr
  obtain ⟨hfree, hmap⟩ := h r hr
  have hne : r ≠ p := by
    rintro rfl
    exact hmap v hp
  refine ⟨(Function.update_of_ne hne ..).trans hfree, fun w hw => ?_⟩
  by_cases hwv : w = v
  · have hself : Function.update T.map v none v = some r := hwv ▸ hw
    rw [Function.update_self] at hself
    cases hself
  · exact hmap w ((Function.update_of_ne hwv ..).symm.trans hw)

theorem Registers.Avoids.release (h : T.Avoids avoid) {p : ℕ} (hp : p ∉ avoid) :
    Registers.Avoids (T.release p) avoid := by
  intro r hr
  obtain ⟨hfree, hmap⟩ := h r hr
  have hne : r ≠ p := fun hrp => hp (hrp ▸ hr)
  exact ⟨(Function.update_of_ne hne ..).trans hfree, hmap⟩

theorem Registers.findFrom_free {lo p : ℕ} (h : T.findFrom lo = some p) : T.free p = true :=
  List.find?_some h

theorem Registers.allocation_free {preference : RegisterOperand} {p : ℕ}
    (h : T.allocation preference = some p) : T.free p = true := by
  unfold Registers.allocation at h
  split at h
  · next hpref =>
    obtain rfl := Option.some.inj h
    exact hpref.2
  · rcases Option.or_eq_some_iff.1 h with h | ⟨-, h⟩
    · exact Registers.findFrom_free h
    · exact Registers.findFrom_free h

theorem Registers.Avoids.allocate (h : T.Avoids avoid) {o o' preference : RegisterOperand}
    (ho : T.allocate o preference = .ok (o', T')) : T'.Avoids avoid := by
  unfold Registers.allocate at ho
  split at ho
  · cases ho
  · split at ho
    · next p hp =>
      obtain ⟨-, rfl⟩ := Prod.mk.inj (Except.ok.inj ho)
      exact h.take _ (Registers.allocation_free hp)
    · cases ho

theorem Registers.Avoids.use (h : T.Avoids avoid) {o o' rd : RegisterOperand}
    (ho : T.use o rd = .ok (o', T')) : T'.Avoids avoid := by
  unfold Registers.use at ho
  split at ho
  · obtain ⟨-, rfl⟩ := Prod.mk.inj (Except.ok.inj ho)
    exact h
  · exact h.allocate ho

theorem useOperand_spec (h : T.Avoids avoid) {o o' rd : RegisterOperand}
    (ho : useOperand T o rd = .ok (o', T')) : T'.Avoids avoid ∧ (o.Fixed → o' = o) := by
  unfold useOperand at ho
  split at ho
  · obtain ⟨rfl, rfl⟩ := Prod.mk.inj (Except.ok.inj ho)
    exact ⟨h, fun _ => rfl⟩
  · next hfixed => exact ⟨h.use ho, fun hf => absurd hf hfixed⟩

include havoid in
/-- The instruction with the register of the variable it defines. -/
theorem define_spec (h : T.Avoids avoid) (hi : ¬i.rd.Fixed) :
    Becomes avoid i (i.define T).1 ∧ (i.define T).2.Avoids avoid := by
  unfold Instruction.define
  split
  · next p hp =>
    have hp' : p ∉ avoid := fun hmem => (h p hmem).2 _ hp
    refine ⟨⟨.inl rfl, rfl, rfl, rfl, fun hf => absurd hf hi, fun _ => rfl, fun _ => rfl,
      fun hmem => absurd hmem hp', fun _ => rfl⟩, ?_⟩
    dsimp only
    split
    · exact h
    · exact h.forget hp
  · exact ⟨⟨.inr rfl, rfl, rfl, rfl, fun _ => rfl, fun _ => rfl, fun _ => rfl,
      fixed_of_mem havoid, fun hs => absurd hs.1 hi⟩, h⟩

include havoid in
theorem becomes_operands (i : Instruction) {o₁ o₂ : RegisterOperand} (h₁ : i.rs1.Fixed → o₁ = i.rs1)
    (h₂ : i.rs2.Fixed → o₂ = i.rs2) : Becomes avoid i { i with rs1 := o₁, rs2 := o₂ } :=
  ⟨.inl rfl, rfl, rfl, rfl, fun _ => rfl, h₁, h₂, fixed_of_mem havoid, fun _ => rfl⟩

include havoid in
theorem becomes_killMv (i : Instruction) : Becomes avoid i i.killMv := by
  unfold Instruction.killMv
  split
  · next hmv =>
    refine ⟨.inr rfl, rfl, rfl, rfl, fun _ => rfl, fun _ => rfl, fun _ => rfl,
      fixed_of_mem havoid, fun hs => absurd hmv ?_⟩
    rcases hs.2 with ⟨haddi, hadd⟩ | ⟨hzero, h1, h2⟩
    · simp [Instruction.isMv, haddi, hadd]
    · simp [Instruction.mvSource, h1, h2, hzero]
  · exact .refl i (fixed_of_mem havoid)

include havoid in
theorem allocateLinked_spec (h : T.Avoids avoid) (hi : ¬i.rd.Fixed) {i' : Instruction}
    (ho : allocateLinked i T = .ok (i', T')) : Becomes avoid i i' ∧ T'.Avoids avoid := by
  obtain ⟨hb, hT⟩ := define_spec havoid h hi
  unfold allocateLinked at ho
  dsimp only at ho
  split at ho
  · obtain ⟨rfl, rfl⟩ := Prod.mk.inj (pure_eq_ok.1 ho)
    exact ⟨hb, hT⟩
  · obtain ⟨⟨o₁, T₁⟩, ho₁, ho⟩ := bind_eq_ok.1 ho
    obtain ⟨⟨o₂, T₂⟩, ho₂, ho⟩ := bind_eq_ok.1 ho
    obtain ⟨rfl, rfl⟩ := Prod.mk.inj (pure_eq_ok.1 ho)
    obtain ⟨hT₁, h₁⟩ := useOperand_spec hT ho₁
    obtain ⟨hT₂, h₂⟩ := useOperand_spec hT₁ ho₂
    exact ⟨(hb.trans (becomes_operands havoid _ h₁ h₂)).trans (becomes_killMv havoid _), hT₂⟩

theorem forall₂_trans {R : Instruction → Instruction → Prop} [IsTrans Instruction R]
    {l m n : List Instruction} (h : List.Forall₂ R l m) (h' : List.Forall₂ R m n) :
    List.Forall₂ R l n := by
  induction h generalizing n with
  | nil => exact h'
  | cons hab _ ih =>
    obtain ⟨c, n, hbc, hn, rfl⟩ := List.forall₂_cons_left_iff.1 h'
    exact .cons (IsTrans.trans _ _ _ hab hbc) (ih hn)

theorem forall₂_set {R : Instruction → Instruction → Prop} (hR : ∀ a, R a a)
    {l : List Instruction} {k : ℕ} {m m' : Instruction} (hm : l[k]? = some m) (h : R m m') :
    List.Forall₂ R l (l.set k m') := by
  induction l generalizing k with
  | nil => exact .nil
  | cons i l ih =>
    cases k with
    | zero =>
      obtain rfl : i = m := by simpa using hm
      exact .cons h (List.forall₂_same.2 fun i _ => hR i)
    | succ k => exact .cons (hR i) (ih (by simpa using hm))

/-- The tables avoid the registers, and the linked instruction is among the first `n` of those
that follow. -/
structure Alloc.Sound (avoid : Set ℕ) (n : ℕ) (code : List Instruction) (A : Alloc) : Prop where
  avoids : A.table.Avoids avoid
  within : ∀ k m, A.pending code = some (k, m) → k < n ∧ ¬m.rd.Fixed

/-- The scan only touches the first `n` instructions. -/
structure Kept (avoid : Set ℕ) (n : ℕ) (code code' : List Instruction) : Prop where
  becomes : List.Forall₂ (Becomes avoid) code code'
  drop : code'.drop n = code.drop n

include havoid in
theorem Kept.refl (n : ℕ) (code : List Instruction) : Kept avoid n code code :=
  ⟨List.forall₂_same.2 fun i _ => .refl i (fixed_of_mem havoid), rfl⟩

theorem Kept.trans {code'' : List Instruction} (h : Kept avoid n code code')
    (h' : Kept avoid n code' code'') : Kept avoid n code code'' := by
  have : IsTrans Instruction (Becomes avoid) := ⟨fun _ _ _ => Becomes.trans⟩
  exact ⟨forall₂_trans h.becomes h'.becomes, h'.drop.trans h.drop⟩

include havoid in
theorem Kept.set {k : ℕ} {m m' : Instruction} (hm : code[k]? = some m) (hk : k < n)
    (hb : Becomes avoid m m') : Kept avoid n code (code.set k m') := by
  refine ⟨forall₂_set (fun i => .refl i (fixed_of_mem havoid)) hm hb, ?_⟩
  rw [List.drop_set, if_pos hk]

theorem Alloc.pending_eq_some {k : ℕ} {m : Instruction} :
    A.pending code = some (k, m) ↔ A.linked = some (k + 1) ∧ code[k]? = some m := by
  unfold Alloc.pending
  split
  · next j hj =>
    constructor
    · intro h
      obtain ⟨i, hi, heq⟩ := Option.map_eq_some_iff.1 h
      obtain ⟨rfl, rfl⟩ := Prod.mk.inj heq
      exact ⟨hj, hi⟩
    · rintro ⟨hk, hm⟩
      obtain rfl : j = k := by rw [hj] at hk; simpa using hk
      rw [hm]
      rfl
  · next hj => exact ⟨fun h => (by cases h), fun h => absurd h.1 (hj k)⟩

theorem Alloc.Sound.of_pending_none (h : A.table.Avoids avoid) (hp : A.pending code = none) :
    A.Sound avoid n code :=
  ⟨h, fun k m hk => by rw [hp] at hk; cases hk⟩

include havoid in
theorem resolve_spec {conflict : Bool} (h : A.Sound avoid n code)
    (ho : resolve conflict code A = .ok (code', A')) :
    Kept avoid n code code' ∧ A'.Sound avoid n code' ∧
      (A'.linked = some 0 → A.linked = some 0) := by
  unfold resolve at ho
  split at ho
  · next k m hpend =>
    obtain ⟨hk, hm⟩ := h.within k m hpend
    obtain ⟨⟨m', T'⟩, hm', ho⟩ := bind_eq_ok.1 ho
    obtain ⟨rfl, rfl⟩ := Prod.mk.inj (pure_eq_ok.1 ho)
    obtain ⟨hb, hT⟩ := allocateLinked_spec havoid h.avoids hm hm'
    exact ⟨.set havoid (Alloc.pending_eq_some.1 hpend).2 hk hb, .of_pending_none hT rfl,
      fun hl => by cases hl⟩
  · obtain ⟨rfl, rfl⟩ := Prod.mk.inj (Except.ok.inj ho)
    exact ⟨.refl havoid n code, h, id⟩

include havoid in
theorem inlineLink_spec (h : A.Sound avoid n code) (hi : ¬i.rd.Fixed) {i' : Instruction}
    (ho : inlineLink i code A = (i', code', A')) :
    Becomes avoid i i' ∧ ¬i'.rd.Fixed ∧ Kept avoid n code code' ∧ A'.Sound avoid n code' ∧
      (A'.linked = some 0 → A.linked = some 0) := by
  unfold inlineLink at ho
  split at ho
  · next k m hpend =>
    obtain ⟨hk, hm⟩ := h.within k m hpend
    split at ho
    · obtain ⟨rfl, rfl, rfl⟩ : _ = i' ∧ _ = code' ∧ _ = A' := by simpa using ho
      have hkill : Becomes avoid m m.kill := ⟨.inr rfl, rfl, rfl, rfl, fun _ => rfl, fun _ => rfl,
        fun _ => rfl, fixed_of_mem havoid, fun hs => absurd hs.1 hm⟩
      refine ⟨⟨.inl rfl, rfl, rfl, rfl, fun hf => absurd hf hi, fun _ => rfl, fun _ => rfl,
        fun hmem => absurd (fixed_of_mem havoid hmem) hm, fun _ => rfl⟩, hm,
        .set havoid (Alloc.pending_eq_some.1 hpend).2 hk hkill, .of_pending_none ?_ rfl,
        fun hl => by cases hl⟩
      dsimp only
      split
      · next p hp => exact h.avoids.forget hp
      · exact h.avoids
    · obtain ⟨rfl, rfl, rfl⟩ : i = i' ∧ code = code' ∧ A = A' := by simpa using ho
      exact ⟨.refl i (fixed_of_mem havoid), hi, .refl havoid n code, h, id⟩
  · obtain ⟨rfl, rfl, rfl⟩ : i = i' ∧ code = code' ∧ A = A' := by simpa using ho
    exact ⟨.refl i (fixed_of_mem havoid), hi, .refl havoid n code, h, id⟩

/-- The instruction makes a register to avoid free. -/
def Instruction.Frees (i : Instruction) (avoid : Set ℕ) : Prop :=
  (i.rd = A0 ∨ i.rd = A1) ∧ i.isRdUse = false ∧ i.rd.encoding ∈ avoid

include havoid in
theorem allocateDef_spec (h : A.Sound avoid n code) (hfrees : ¬i.Frees avoid)
    (hlinked : A.linked ≠ some 0) {i' : Instruction}
    (ho : allocateDef i code A = .ok (i', code', A')) :
    Becomes avoid i i' ∧ Kept avoid n code code' ∧ A'.Sound avoid n code' ∧
      (A'.linked = some 0 → ¬i'.rd.Fixed) := by
  unfold allocateDef at ho
  split at ho
  · obtain ⟨rfl, rfl, rfl⟩ : i = i' ∧ code = code' ∧ A = A' := by simpa using ho
    exact ⟨.refl i (fixed_of_mem havoid), .refl havoid n code, h, fun hl => absurd hl hlinked⟩
  · next hne =>
    split at ho
    · obtain ⟨rfl, rfl, rfl⟩ : i = i' ∧ code = code' ∧ _ = A' := by simpa using ho
      refine ⟨.refl i (fixed_of_mem havoid), .refl havoid n code, ?_, ?_⟩
      · split
        · next hret =>
          refine ⟨h.avoids.release fun hmem => hfrees ⟨hret.1, by simpa using hret.2, hmem⟩,
            h.within⟩
        · exact h
      · intro hl
        split at hl
        · exact absurd hl hlinked
        · exact absurd hl hlinked
    · next hphys =>
      have hi : ¬i.rd.Fixed := fun hf => hf.elim hne (by simpa using hphys)
      rcases hinl : inlineLink i code A with ⟨i₁, code₁, A₁⟩
      obtain ⟨hb₁, hi₁, hk₁, hs₁, hl₁⟩ := inlineLink_spec havoid h hi hinl
      rw [hinl] at ho
      dsimp only at ho
      split at ho
      · obtain ⟨⟨code₂, A₂⟩, hres, ho⟩ := bind_eq_ok.1 ho
        obtain ⟨rfl, rfl, rfl⟩ : i₁ = i' ∧ code₂ = code' ∧ _ = A' := by simpa using ho
        obtain ⟨hk₂, hs₂, -⟩ := resolve_spec havoid hs₁ hres
        exact ⟨hb₁, hk₁.trans hk₂, .of_pending_none hs₂.avoids rfl, fun _ => hi₁⟩
      · obtain ⟨⟨code₂, A₂⟩, hres, ho⟩ := bind_eq_ok.1 ho
        obtain ⟨rfl, rfl, rfl⟩ : _ = i' ∧ code₂ = code' ∧ _ = A' := by simpa using ho
        obtain ⟨hk₂, hs₂, hl₂⟩ := resolve_spec havoid hs₁ hres
        obtain ⟨hb₃, hT₃⟩ := define_spec havoid hs₂.avoids hi₁
        exact ⟨hb₁.trans hb₃, hk₁.trans hk₂, ⟨hT₃, hs₂.within⟩,
          fun hl => absurd (hl₁ (hl₂ hl)) hlinked⟩

include havoid in
theorem allocateUse_spec (h : A.Sound avoid n code) {o o' rd : RegisterOperand}
    (ho : allocateUse o rd code A = .ok (o', code', A')) :
    (o.Fixed → o' = o) ∧ Kept avoid n code code' ∧ A'.Sound avoid n code' ∧
      (A'.linked = some 0 → A.linked = some 0) := by
  unfold allocateUse at ho
  split at ho
  · obtain ⟨rfl, rfl, rfl⟩ : o = o' ∧ code = code' ∧ A = A' := by simpa using ho
    exact ⟨fun _ => rfl, .refl havoid n code, h, id⟩
  · next hfixed =>
    obtain ⟨⟨code₁, A₁⟩, hres, ho⟩ := bind_eq_ok.1 ho
    obtain ⟨⟨o₂, T₂⟩, huse, ho⟩ := bind_eq_ok.1 ho
    obtain ⟨rfl, rfl, rfl⟩ : o₂ = o' ∧ code₁ = code' ∧ _ = A' := by simpa using ho
    obtain ⟨hk₁, hs₁, hl₁⟩ := resolve_spec havoid h hres
    exact ⟨fun hf => absurd hf hfixed, hk₁, ⟨hs₁.avoids.use huse, hs₁.within⟩, hl₁⟩

/-- One instruction of the scan : what becomes of it and of those that follow. -/
theorem allocateInstruction_spec (havoid : ∀ r ∈ avoid, r < 32) (h : A.Sound avoid n code)
    (hfrees : ¬i.Frees avoid) (hlinked : A.linked ≠ some 0) {i' : Instruction}
    (ho : allocateInstruction i code A = .ok (i', code', A')) :
    Becomes avoid i i' ∧ Kept avoid n code code' ∧ A'.Sound avoid n code' ∧
      (A'.linked = some 0 → ¬i'.rd.Fixed) := by
  unfold allocateInstruction at ho
  obtain ⟨⟨code₁, A₁⟩, hres, ho⟩ := bind_eq_ok.1 ho
  obtain ⟨⟨i₂, code₂, A₂⟩, hdef, ho⟩ := bind_eq_ok.1 ho
  obtain ⟨hk₁, hs₁, hl₁⟩ := resolve_spec havoid h hres
  obtain ⟨hb₂, hk₂, hs₂, hl₂⟩ :=
    allocateDef_spec havoid hs₁ hfrees (fun hl => hlinked (hl₁ hl)) hdef
  dsimp only at ho
  split at ho
  · obtain ⟨rfl, rfl, rfl⟩ : i₂ = i' ∧ code₂ = code' ∧ A₂ = A' := by simpa using ho
    exact ⟨hb₂, hk₁.trans hk₂, hs₂, hl₂⟩
  · obtain ⟨⟨o₃, code₃, A₃⟩, huse₃, ho⟩ := bind_eq_ok.1 ho
    obtain ⟨⟨o₄, code₄, A₄⟩, huse₄, ho⟩ := bind_eq_ok.1 ho
    obtain ⟨rfl, rfl, rfl⟩ : _ = i' ∧ code₄ = code' ∧ A₄ = A' := by simpa using ho
    obtain ⟨h₃, hk₃, hs₃, hl₃⟩ := allocateUse_spec havoid hs₂ huse₃
    obtain ⟨h₄, hk₄, hs₄, hl₄⟩ := allocateUse_spec havoid hs₃ huse₄
    have hb := (hb₂.trans (becomes_operands havoid _ h₃ h₄)).trans (becomes_killMv havoid _)
    refine ⟨hb, (hk₁.trans hk₂).trans (hk₃.trans hk₄), hs₄, fun hl => ?_⟩
    have hrd : (Instruction.killMv { i₂ with rs1 := o₃, rs2 := o₄ }).rd = i₂.rd := by
      unfold Instruction.killMv
      split <;> rfl
    rw [hrd]
    exact hl₂ (hl₃ (hl₄ hl))

/-- The tables after the scan of an instruction are sound for that of the instruction before. -/
theorem Alloc.Sound.shift (hT : A.table.Avoids avoid)
    (hl : ∀ k m, A.linked = some k → code[k]? = some m → k < n ∧ ¬m.rd.Fixed) :
    A.shift.Sound avoid n code := by
  refine ⟨hT, fun k m hk => ?_⟩
  obtain ⟨hlink, hm⟩ := Alloc.pending_eq_some.1 hk
  obtain ⟨j, hj, hjk⟩ := Option.map_eq_some_iff.1 hlink
  obtain rfl : j = k := by omega
  exact hl j m hj hm

theorem Alloc.shift_linked (A : Alloc) : A.shift.linked ≠ some 0 := by
  intro h
  obtain ⟨j, -, hj⟩ := Option.map_eq_some_iff.1 h
  omega

/-- The scan of the code before `post` leaves `post` alone, and gives the registers to avoid to
none of its variables. -/
theorem allocateFrom_spec (havoid : ∀ r ∈ avoid, r < 32) {post : List Instruction} {B : Alloc}
    (hT : B.table.Avoids avoid) (hlinked : B.linked = none) :
    ∀ {pre code' : List Instruction} {A' : Alloc}, (∀ i ∈ pre, ¬i.Frees avoid) →
      allocateFrom (post, B) pre = .ok (code', A') →
        ∃ pre', code' = pre' ++ post ∧ List.Forall₂ (Becomes avoid) pre pre' ∧
          A'.table.Avoids avoid ∧
          ∀ k m, A'.linked = some k → code'[k]? = some m → k < pre'.length ∧ ¬m.rd.Fixed
  | [], code', A', _, h => by
    obtain ⟨rfl, rfl⟩ := Prod.mk.inj (Except.ok.inj h)
    exact ⟨[], rfl, .nil, hT, fun k m hk => by rw [hlinked] at hk; cases hk⟩
  | i :: pre, code', A', hfrees, h => by
    unfold allocateFrom at h
    obtain ⟨⟨code₁, A₁⟩, hrest, h⟩ := bind_eq_ok.1 h
    obtain ⟨⟨i₂, code₂, A₂⟩, hi, h⟩ := bind_eq_ok.1 h
    obtain ⟨rfl, rfl⟩ := Prod.mk.inj (pure_eq_ok.1 h)
    obtain ⟨pre₁, rfl, hpre₁, hT₁, hl₁⟩ := allocateFrom_spec havoid hT hlinked
      (fun j hj => hfrees j (List.mem_cons_of_mem i hj)) hrest
    obtain ⟨hb, hkept, hs₂, hl₂⟩ := allocateInstruction_spec havoid (.shift hT₁ hl₁)
      (hfrees i List.mem_cons_self) A₁.shift_linked hi
    have hdrop : code₂.drop pre₁.length = post := by rw [hkept.drop, List.drop_left]
    have htake := List.forall₂_take pre₁.length hkept.becomes
    rw [List.take_left] at htake
    have hcode₂ : code₂ = code₂.take pre₁.length ++ post := by
      rw [← hdrop, List.take_append_drop]
    have : IsTrans Instruction (Becomes avoid) := ⟨fun _ _ _ => Becomes.trans⟩
    refine ⟨i₂ :: code₂.take pre₁.length, congrArg (i₂ :: ·) hcode₂,
      .cons hb (forall₂_trans hpre₁ htake), hs₂.avoids, ?_⟩
    rintro (_ | k) m hk hm
    · obtain rfl : i₂ = m := by simpa using hm
      exact ⟨Nat.zero_lt_succ _, hl₂ hk⟩
    · obtain ⟨hlt, hfixed⟩ := hs₂.within k m (Alloc.pending_eq_some.2 ⟨hk, by simpa using hm⟩)
      refine ⟨?_, hfixed⟩
      rw [List.length_cons, ← htake.length_eq]
      omega

/-! ### Code that links nothing -/

/-- The instruction does not wait for the definition of what it copies. -/
def Instruction.NoLink (i : Instruction) : Prop :=
  i.rd.Fixed ∨ i.isMv = false ∨ i.mvSource.isVirtual = false

theorem Alloc.pending_of_linked (h : A.linked = none) : A.pending code = none := by
  rw [Alloc.pending, h]

theorem resolve_of_linked {conflict : Bool} (h : A.linked = none) :
    resolve conflict code A = .ok (code, A) := by
  unfold resolve
  rw [Alloc.pending_of_linked h]
  cases conflict <;> rfl

theorem inlineLink_of_linked (h : A.linked = none) : inlineLink i code A = (i, code, A) := by
  rw [inlineLink, Alloc.pending_of_linked h]

theorem links_of_noLink (hi : i.NoLink) (hfixed : ¬i.rd.Fixed) : i.links T = false := by
  rcases hi with hi | hi | hi
  · exact absurd hi hfixed
  · simp [Instruction.links, hi]
  · simp [Instruction.links, hi]

theorem allocateDef_linked (h : A.linked = none) (hi : i.NoLink) {i' : Instruction}
    (ho : allocateDef i code A = .ok (i', code', A')) : A'.linked = none ∧ code' = code := by
  unfold allocateDef at ho
  split at ho
  · obtain ⟨rfl, rfl, rfl⟩ : i = i' ∧ code = code' ∧ A = A' := by simpa using ho
    exact ⟨h, rfl⟩
  · next hne =>
    split at ho
    · obtain ⟨rfl, rfl, rfl⟩ : i = i' ∧ code = code' ∧ _ = A' := by simpa using ho
      refine ⟨?_, rfl⟩
      split <;> exact h
    · next hphys =>
      have hlinks : i.links A.table = false := links_of_noLink hi fun hf => hf.elim hne hphys
      rw [inlineLink_of_linked h] at ho
      simp only [hlinks, resolve_of_linked h, ok_bind] at ho
      obtain ⟨rfl, rfl, rfl⟩ : _ = i' ∧ code = code' ∧ _ = A' := by simpa using ho
      exact ⟨h, rfl⟩

theorem allocateUse_linked (h : A.linked = none) {o o' rd : RegisterOperand}
    (ho : allocateUse o rd code A = .ok (o', code', A')) : A'.linked = none ∧ code' = code := by
  unfold allocateUse at ho
  split at ho
  · obtain ⟨rfl, rfl, rfl⟩ : o = o' ∧ code = code' ∧ A = A' := by simpa using ho
    exact ⟨h, rfl⟩
  · simp only [resolve_of_linked h, ok_bind] at ho
    obtain ⟨⟨o₂, T₂⟩, -, ho⟩ := bind_eq_ok.1 ho
    obtain ⟨rfl, rfl, rfl⟩ : o₂ = o' ∧ code = code' ∧ _ = A' := by simpa using ho
    exact ⟨h, rfl⟩

theorem allocateInstruction_linked (h : A.linked = none) (hi : i.NoLink) {i' : Instruction}
    (ho : allocateInstruction i code A = .ok (i', code', A')) :
    A'.linked = none ∧ code' = code := by
  unfold allocateInstruction at ho
  simp only [resolve_of_linked h, ok_bind] at ho
  obtain ⟨⟨i₂, code₂, A₂⟩, hdef, hrest⟩ := bind_eq_ok.1 ho
  obtain ⟨hl₂, hcode₂⟩ := allocateDef_linked h hi hdef
  dsimp only at hrest
  split at hrest
  · obtain ⟨rfl, rfl, rfl⟩ : i₂ = i' ∧ code₂ = code' ∧ A₂ = A' := by simpa using hrest
    exact ⟨hl₂, hcode₂⟩
  · obtain ⟨⟨o₃, code₃, A₃⟩, huse₃, hrest⟩ := bind_eq_ok.1 hrest
    obtain ⟨⟨o₄, code₄, A₄⟩, huse₄, hrest⟩ := bind_eq_ok.1 hrest
    obtain ⟨rfl, rfl, rfl⟩ : _ = i' ∧ code₄ = code' ∧ A₄ = A' := by simpa using hrest
    obtain ⟨hl₃, hcode₃⟩ := allocateUse_linked hl₂ huse₃
    obtain ⟨hl₄, hcode₄⟩ := allocateUse_linked hl₃ huse₄
    exact ⟨hl₄, hcode₄.trans (hcode₃.trans hcode₂)⟩

theorem Alloc.shift_linked_none (h : A.linked = none) : A.shift.linked = none := by
  rw [Alloc.shift, h]
  rfl

/-- Nothing is linked after the scan of code that links nothing. -/
theorem allocateFrom_linked {start : List Instruction × Alloc} (h : start.2.linked = none) :
    ∀ {code code' : List Instruction} {A' : Alloc}, (∀ i ∈ code, i.NoLink) →
      allocateFrom start code = .ok (code', A') → A'.linked = none
  | [], code', A', _, ho => by
    obtain rfl := Except.ok.inj ho
    exact h
  | i :: code, code', A', hlink, ho => by
    unfold allocateFrom at ho
    obtain ⟨⟨code₁, A₁⟩, hrest, ho⟩ := bind_eq_ok.1 ho
    obtain ⟨⟨i₂, code₂, A₂⟩, hi, ho⟩ := bind_eq_ok.1 ho
    obtain ⟨rfl, rfl⟩ := Prod.mk.inj (pure_eq_ok.1 ho)
    have hl₁ := allocateFrom_linked h (fun j hj => hlink j (List.mem_cons_of_mem i hj)) hrest
    exact (allocateInstruction_linked (Alloc.shift_linked_none hl₁)
      (hlink i List.mem_cons_self) hi).1

/-- The scan goes through the end of the code first. -/
theorem allocateFrom_append {start : List Instruction × Alloc} :
    ∀ {l r : List Instruction},
      allocateFrom start (l ++ r) = (do allocateFrom (← allocateFrom start r) l)
  | [], r => by
    rw [List.nil_append]
    cases allocateFrom start r <;> rfl
  | i :: l, r => by
    rw [List.cons_append, allocateFrom, allocateFrom_append, bind_assoc]
    rfl

/-! ### Operands of code that links nothing -/

/-- What is no register of the host. -/
def noHost : Set ℕ :=
  {r | 32 ≤ r}

/-- All operands of the instruction are registers of the host, if it is not killed. -/
def Instruction.Settled (i : Instruction) : Prop :=
  i.isDead ∨ i.rd.Fixed ∧ i.rs1.Fixed ∧ i.rs2.Fixed

theorem Registers.Avoids.lt_of_free (h : T.Avoids noHost) {p : ℕ} (hp : T.free p = true) :
    p < 32 := by
  by_contra hlt
  rw [(h p (not_lt.1 hlt)).1] at hp
  cases hp

theorem Registers.Avoids.lt_of_map (h : T.Avoids noHost) {v p : ℕ} (hp : T.map v = some p) :
    p < 32 := by
  by_contra hlt
  exact (h p (not_lt.1 hlt)).2 v hp

theorem fixed_of_lt {p : ℕ} (h : p < 32) : RegisterOperand.Fixed ⟨p⟩ :=
  .inr (decide_eq_true h)

theorem Registers.Avoids.use_fixed (h : T.Avoids noHost) {o o' rd : RegisterOperand}
    (ho : T.use o rd = .ok (o', T')) : o'.Fixed := by
  unfold Registers.use at ho
  split at ho
  · next p hp =>
    obtain ⟨rfl, -⟩ := Prod.mk.inj (Except.ok.inj ho)
    exact fixed_of_lt (h.lt_of_map hp)
  · unfold Registers.allocate at ho
    split at ho
    · cases ho
    · split at ho
      · next p hp =>
        obtain ⟨rfl, -⟩ := Prod.mk.inj (Except.ok.inj ho)
        exact fixed_of_lt (h.lt_of_free (Registers.allocation_free hp))
      · cases ho

theorem define_settled (h : T.Avoids noHost) :
    (i.define T).2.Avoids noHost ∧ ((i.define T).1.isDead ∨ (i.define T).1.rd.Fixed) := by
  unfold Instruction.define
  split
  · next p hp =>
    refine ⟨?_, .inr (fixed_of_lt (h.lt_of_map hp))⟩
    dsimp only
    split
    · exact h
    · exact h.forget hp
  · exact ⟨h, .inl (decide_eq_true rfl)⟩

theorem allocateDef_settled (hT : A.table.Avoids noHost) (h : A.linked = none) (hi : i.NoLink)
    {i' : Instruction} (ho : allocateDef i code A = .ok (i', code', A')) :
    A'.table.Avoids noHost ∧ (i'.isDead ∨ i'.rd.Fixed) := by
  unfold allocateDef at ho
  split at ho
  · next hnone =>
    obtain ⟨rfl, rfl, rfl⟩ : i = i' ∧ code = code' ∧ A = A' := by simpa using ho
    exact ⟨hT, .inr (.inl hnone)⟩
  · next hne =>
    split at ho
    · next hphys =>
      obtain ⟨rfl, rfl, rfl⟩ : i = i' ∧ code = code' ∧ _ = A' := by simpa using ho
      refine ⟨?_, .inr (.inr hphys)⟩
      split
      · exact hT.release (not_le.2 (of_decide_eq_true hphys))
      · exact hT
    · next hphys =>
      have hlinks : i.links A.table = false := links_of_noLink hi fun hf => hf.elim hne hphys
      rw [inlineLink_of_linked h] at ho
      simp only [hlinks, resolve_of_linked h, ok_bind] at ho
      obtain ⟨rfl, rfl, rfl⟩ : _ = i' ∧ code = code' ∧ _ = A' := by simpa using ho
      exact define_settled hT

theorem allocateUse_settled (hT : A.table.Avoids noHost) (h : A.linked = none)
    {o o' rd : RegisterOperand} (ho : allocateUse o rd code A = .ok (o', code', A')) :
    A'.table.Avoids noHost ∧ o'.Fixed := by
  unfold allocateUse at ho
  split at ho
  · next hfixed =>
    obtain ⟨rfl, rfl, rfl⟩ : o = o' ∧ code = code' ∧ A = A' := by simpa using ho
    exact ⟨hT, hfixed⟩
  · simp only [resolve_of_linked h, ok_bind] at ho
    obtain ⟨⟨o₂, T₂⟩, huse, ho⟩ := bind_eq_ok.1 ho
    obtain ⟨rfl, rfl, rfl⟩ : o₂ = o' ∧ code = code' ∧ _ = A' := by simpa using ho
    exact ⟨hT.use huse, hT.use_fixed huse⟩

theorem settled_killMv (h : i.rd.Fixed ∧ i.rs1.Fixed ∧ i.rs2.Fixed) : i.killMv.Settled := by
  unfold Instruction.killMv
  split
  · exact .inl (decide_eq_true rfl)
  · exact .inr h

theorem allocateInstruction_settled (hT : A.table.Avoids noHost) (h : A.linked = none)
    (hi : i.NoLink) {i' : Instruction} (ho : allocateInstruction i code A = .ok (i', code', A')) :
    A'.table.Avoids noHost ∧ i'.Settled := by
  unfold allocateInstruction at ho
  simp only [resolve_of_linked h, ok_bind] at ho
  obtain ⟨⟨i₂, code₂, A₂⟩, hdef, hrest⟩ := bind_eq_ok.1 ho
  obtain ⟨hl₂, -⟩ := allocateDef_linked h hi hdef
  obtain ⟨hT₂, hrd⟩ := allocateDef_settled hT h hi hdef
  dsimp only at hrest hrd
  split at hrest
  · next hdead =>
    obtain ⟨rfl, rfl, rfl⟩ : i₂ = i' ∧ code₂ = code' ∧ A₂ = A' := by simpa using hrest
    exact ⟨hT₂, .inl hdead⟩
  · next hdead =>
    obtain ⟨⟨o₃, code₃, A₃⟩, huse₃, hrest⟩ := bind_eq_ok.1 hrest
    obtain ⟨⟨o₄, code₄, A₄⟩, huse₄, hrest⟩ := bind_eq_ok.1 hrest
    obtain ⟨rfl, rfl, rfl⟩ : _ = i' ∧ code₄ = code' ∧ A₄ = A' := by simpa using hrest
    obtain ⟨hl₃, -⟩ := allocateUse_linked hl₂ huse₃
    obtain ⟨hT₃, h₁⟩ := allocateUse_settled hT₂ hl₂ huse₃
    obtain ⟨hT₄, h₂⟩ := allocateUse_settled hT₃ hl₃ huse₄
    exact ⟨hT₄, settled_killMv ⟨hrd.resolve_left hdead, h₁, h₂⟩⟩

/-- The scan settles the operands of code that links nothing. -/
theorem allocateFrom_settled {start : List Instruction × Alloc} (hl : start.2.linked = none)
    (hT : start.2.table.Avoids noHost) :
    ∀ {code code' : List Instruction} {A' : Alloc}, (∀ i ∈ code, i.NoLink) →
      allocateFrom start code = .ok (code', A') →
        A'.table.Avoids noHost ∧ ∀ o ∈ code', o.Settled ∨ o ∈ start.1
  | [], code', A', _, ho => by
    obtain rfl := Except.ok.inj ho
    exact ⟨hT, fun o ho => .inr ho⟩
  | i :: code, code', A', hlink, ho => by
    unfold allocateFrom at ho
    obtain ⟨⟨code₁, A₁⟩, hrest, ho⟩ := bind_eq_ok.1 ho
    obtain ⟨⟨i₂, code₂, A₂⟩, hi, ho⟩ := bind_eq_ok.1 ho
    obtain ⟨rfl, rfl⟩ := Prod.mk.inj (pure_eq_ok.1 ho)
    have hlink' : ∀ j ∈ code, j.NoLink := fun j hj => hlink j (List.mem_cons_of_mem i hj)
    have hl₁ := Alloc.shift_linked_none (allocateFrom_linked hl hlink' hrest)
    obtain ⟨hT₁, hcode₁⟩ := allocateFrom_settled hl hT hlink' hrest
    obtain ⟨-, rfl⟩ := allocateInstruction_linked hl₁ (hlink i List.mem_cons_self) hi
    obtain ⟨hT₂, hi₂⟩ := allocateInstruction_settled (A := A₁.shift) hT₁ hl₁
      (hlink i List.mem_cons_self) hi
    refine ⟨hT₂, fun o ho => ?_⟩
    rcases List.mem_cons.1 ho with rfl | ho
    · exact .inl hi₂
    · exact hcode₁ o ho

end Avoid

/-! ## The registers of the code -/

theorem forall₂_append_left {R : Instruction → Instruction → Prop} {l r code : List Instruction}
    (h : List.Forall₂ R (l ++ r) code) :
    ∃ l' r', code = l' ++ r' ∧ List.Forall₂ R l l' ∧ List.Forall₂ R r r' := by
  induction l generalizing code with
  | nil => exact ⟨[], code, rfl, .nil, h⟩
  | cons i l ih =>
    obtain ⟨o, code, hio, hcode, rfl⟩ := List.forall₂_cons_left_iff.1 h
    obtain ⟨l', r', rfl, hl, hr⟩ := ih hcode
    exact ⟨o :: l', r', rfl, .cons hio hl, hr⟩

theorem start_avoids : Registers.start.Avoids {1, 11} := by
  intro r hr
  refine ⟨by rcases hr with rfl | rfl <;> rfl, fun v hv => ?_⟩
  unfold Registers.start at hv
  dsimp only at hv
  split at hv
  · have := Option.some.inj hv
    rcases hr with rfl | rfl <;> omega
  · cases hv

theorem start_avoids_noHost : Registers.start.Avoids noHost := by
  intro r hr
  have hle : 32 ≤ r := hr
  refine ⟨Nat.testBit_lt_two_pow
      (lt_of_lt_of_le (by decide) (Nat.pow_le_pow_right (by decide) hle)),
    fun v hv => ?_⟩
  unfold Registers.start at hv
  dsimp only at hv
  split at hv
  · have := Option.some.inj hv
    omega
  · cases hv

theorem Registers.Avoids.mono {T : Registers} {avoid avoid' : Set ℕ} (h : T.Avoids avoid)
    (hsub : avoid' ⊆ avoid) : T.Avoids avoid' :=
  fun r hr => h r (hsub hr)

theorem lt_of_mem_kept {r : ℕ} (h : r ∈ ({1, 11} : Set ℕ)) : r < 32 := by
  rcases h with rfl | rfl <;> decide

theorem allocate_eq_ok {code code' : List Instruction} (h : allocate code = .ok code') :
    ∃ A, allocateFrom ([], ⟨.start, none, noneReg⟩) code = .ok (code', A) := by
  obtain ⟨⟨code₁, A⟩, hfrom, heq⟩ := bind_eq_ok.1 h
  obtain rfl : code₁ = code' := by simpa using heq
  exact ⟨A, hfrom⟩

/-- Code that makes neither register free is given neither. -/
theorem allocate_becomes {code code' : List Instruction} (hfrees : ∀ i ∈ code, ¬i.Frees {1, 11})
    (h : allocate code = .ok code') : List.Forall₂ (Becomes {1, 11}) code code' := by
  obtain ⟨A, h⟩ := allocate_eq_ok h
  obtain ⟨code₁, rfl, hcode, -, -⟩ :=
    allocateFrom_spec (fun r hr => lt_of_mem_kept hr) start_avoids rfl hfrees h
  rwa [List.append_nil]

/-- Once an instruction makes `A1` free, only the code before it can be given that register. -/
theorem allocate_around {front rest code' : List Instruction} {i : Instruction} (hi : i.NoLink)
    (hlink : ∀ j ∈ rest, j.NoLink) (hfrees : ∀ j ∈ rest, ¬j.Frees {1, 11})
    (h : allocate (front ++ i :: rest) = .ok code') :
    ∃ front' o rest', code' = front' ++ o :: rest' ∧ List.Forall₂ (Becomes {1}) front front' ∧
      Becomes {1} i o ∧ List.Forall₂ (Becomes {1, 11}) rest rest' ∧ ∀ j ∈ rest', j.Settled := by
  have hsub : ({1} : Set ℕ) ⊆ {1, 11} := by simp
  have hlt : ∀ r ∈ ({1} : Set ℕ), r < 32 := fun r hr => lt_of_mem_kept (hsub hr)
  have hone : ∀ j : Instruction, ¬j.Frees {1} := by
    rintro j ⟨hrd, -, hmem⟩
    rcases hrd with hrd | hrd <;> rw [hrd] at hmem <;> simp [A0, A1] at hmem
  obtain ⟨A, h⟩ := allocate_eq_ok h
  rw [allocateFrom_append] at h
  obtain ⟨⟨code₁, B⟩, hpost, h⟩ := bind_eq_ok.1 h
  unfold allocateFrom at hpost
  obtain ⟨⟨rest', C⟩, hrest, hpost⟩ := bind_eq_ok.1 hpost
  obtain ⟨⟨o, code₂, D⟩, ho, hpost⟩ := bind_eq_ok.1 hpost
  obtain ⟨rfl, rfl⟩ : o :: code₂ = code₁ ∧ D = B := by simpa using hpost
  obtain ⟨rest'', rfl, hbecomes, hC, -⟩ :=
    allocateFrom_spec (fun r hr => lt_of_mem_kept hr) start_avoids rfl hfrees hrest
  rw [List.append_nil] at *
  obtain ⟨-, hsettled⟩ := allocateFrom_settled rfl start_avoids_noHost hlink hrest
  have hlC := allocateFrom_linked rfl hlink hrest
  obtain ⟨hlD, rfl⟩ := allocateInstruction_linked (Alloc.shift_linked_none hlC) hi ho
  obtain ⟨hio, -, hsD, -⟩ := allocateInstruction_spec (n := 0) hlt
    (A := C.shift) (.of_pending_none (hC.mono hsub)
      (Alloc.pending_of_linked (Alloc.shift_linked_none hlC))) (hone i) C.shift_linked ho
  obtain ⟨front', rfl, hfront, -, -⟩ :=
    allocateFrom_spec hlt hsD.avoids hlD (fun j _ => hone j) h
  exact ⟨front', o, code₂, rfl, hfront, hio, hbecomes, fun j hj =>
    (hsettled j hj).resolve_right List.not_mem_nil⟩

end Arancini.Riscv.Builder
