import Mathlib.Data.Nat.Notation
import Mathlib.Tactic.Common

/-!
# Machines that run to a result

A machine either moves on to a next state or stops with a result. `Returns` relates a
state to the result its run ends with, which is unique, and `Visits` to the states its
run passes through.

Two machines are in lockstep when related states move to related states or stop with
the same result (`Lockstep`). Related states then return the same results, and one runs
for ever exactly when the other does.
-/

namespace Arancini

/-- A next state, or a result. -/
structure Machine (σ ρ : Type*) where
  step : σ → σ ⊕ ρ

namespace Machine

variable {σ τ ρ : Type*} {M : Machine σ ρ} {N : Machine τ ρ}

/-- The run from the state stops with the result. -/
inductive Returns (M : Machine σ ρ) : σ → ρ → Prop
  | stop {s : σ} {r : ρ} : M.step s = .inr r → Returns M s r
  | move {s t : σ} {r : ρ} : M.step s = .inl t → Returns M t r → Returns M s r

/-- The run from the first state passes through the second. -/
inductive Visits (M : Machine σ ρ) : σ → σ → Prop
  | refl (s : σ) : Visits M s s
  | move {s t u : σ} : M.step s = .inl t → Visits M t u → Visits M s u

theorem Visits.trans {s t u : σ} (h : M.Visits s t) (h' : M.Visits t u) : M.Visits s u := by
  induction h with
  | refl => exact h'
  | move hstep _ ih => exact .move hstep (ih h')

theorem Visits.returns {s t : σ} {r : ρ} (h : M.Visits s t) (hr : M.Returns t r) :
    M.Returns s r := by
  induction h with
  | refl => exact hr
  | move hstep _ ih => exact .move hstep (ih hr)

/-- The run from the first state passes through the second, and before it through `n` states of
`P`. -/
inductive Passes (M : Machine σ ρ) (P : σ → Prop) : σ → ℕ → σ → Prop
  | refl (s : σ) : Passes M P s 0 s
  | count {s t u : σ} {n : ℕ} : P s → M.step s = .inl t → Passes M P t n u → Passes M P s (n + 1) u
  | move {s t u : σ} {n : ℕ} : ¬P s → M.step s = .inl t → Passes M P t n u → Passes M P s n u

section Passes

variable {P : σ → Prop} {s t u : σ} {m n : ℕ}

theorem Passes.trans (h : M.Passes P s m t) (h' : M.Passes P t n u) : M.Passes P s (m + n) u := by
  induction h with
  | refl => rwa [Nat.zero_add]
  | count hP hstep _ ih =>
    rw [Nat.succ_add]
    exact .count hP hstep (ih h')
  | move hP hstep _ ih => exact .move hP hstep (ih h')

theorem Passes.trans_zero (h : M.Passes P s 0 t) (h' : M.Passes P t n u) : M.Passes P s n u := by
  rw [← Nat.zero_add n]
  exact h.trans h'

theorem Passes.visits (h : M.Passes P s n t) : M.Visits s t := by
  induction h with
  | refl => exact .refl _
  | count _ hstep _ ih | move _ hstep _ ih => exact .move hstep ih

end Passes

/-- The result after at most `n` moves. -/
def run (M : Machine σ ρ) : ℕ → σ → Option ρ
  | 0, _ => none
  | n + 1, s =>
    match M.step s with
    | .inl t => run M n t
    | .inr r => some r

theorem returns_of_run {r : ρ} : ∀ {n : ℕ} {s : σ}, M.run n s = some r → M.Returns s r
  | n + 1, s, h => by
    unfold run at h
    split at h
    · next hs => exact .move hs (returns_of_run h)
    · next hs =>
      cases h
      exact .stop hs

/-- The run stops within `n` moves with a result of which `P` holds. -/
theorem exists_returns_of_run {P : ρ → Bool} {n : ℕ} {s : σ} (h : (M.run n s).any P) :
    ∃ r, M.Returns s r ∧ P r := by
  cases hr : M.run n s with
  | none => simp [hr] at h
  | some r => exact ⟨r, returns_of_run hr, by simpa [hr] using h⟩

theorem Returns.unique {s : σ} {r r' : ρ} (h : M.Returns s r) (h' : M.Returns s r') : r = r' := by
  induction h with
  | stop hs =>
    cases h' with
    | stop hs' => exact Sum.inr.inj (hs.symm.trans hs')
    | move hs' _ => exact nomatch hs.symm.trans hs'
  | move hs _ ih =>
    cases h' with
    | stop hs' => exact nomatch hs.symm.trans hs'
    | move hs' h' =>
      obtain rfl := Sum.inl.inj (hs.symm.trans hs')
      exact ih h'

theorem Returns.exists_run {s : σ} {r : ρ} (h : M.Returns s r) : ∃ n, M.run n s = some r := by
  induction h with
  | stop hs => exact ⟨1, by rw [run, hs]⟩
  | move hs _ ih =>
    obtain ⟨n, hn⟩ := ih
    exact ⟨n + 1, by simp [run, hs, hn]⟩

/-- From a later state fewer moves are left. -/
theorem Visits.exists_run {s t : σ} {r : ρ} (h : M.Visits s t) {n : ℕ} (hn : M.run n s = some r) :
    ∃ m ≤ n, M.run m t = some r := by
  induction h generalizing n with
  | refl => exact ⟨n, n.le_refl, hn⟩
  | move hs _ ih =>
    cases n with
    | zero => exact nomatch hn
    | succ n =>
      rw [run, hs] at hn
      obtain ⟨m, hm, hrun⟩ := ih hn
      exact ⟨m, Nat.le_succ_of_le hm, hrun⟩

/-- Every state the run passes through has the property `P`, and it stops within `n`
moves. -/
def always (M : Machine σ ρ) (P : σ → Bool) : ℕ → σ → Bool
  | 0, _ => false
  | n + 1, s =>
    P s &&
      match M.step s with
      | .inl t => always M P n t
      | .inr _ => true

theorem of_always {P : σ → Bool} : ∀ {n : ℕ} {s t : σ}, M.always P n s → M.Visits s t → P t
  | n + 1, s, t, h, hv => by
    obtain ⟨hs, h⟩ := Bool.and_eq_true_iff.1 h
    cases hv with
    | refl => exact hs
    | move hstep hv =>
      rw [hstep] at h
      exact of_always h hv

/-- Where the run is after `n` moves. -/
def after (M : Machine σ ρ) : ℕ → σ → σ ⊕ ρ
  | 0, s => .inl s
  | n + 1, s =>
    match M.step s with
    | .inl t => after M n t
    | .inr r => .inr r

theorem after_one (M : Machine σ ρ) (s : σ) : M.after 1 s = M.step s := by
  unfold after
  cases M.step s <;> rfl

theorem after_of_step {n : ℕ} {s t : σ} (h : M.step s = .inl t) :
    M.after (n + 1) s = M.after n t := by
  rw [after, h]

/-- Two machines make the same run if and only if they make the same step at each state of
the one's run. -/
theorem after_eq_iff {M N : Machine σ ρ} {s : σ} :
    (∀ n, M.after n s = N.after n s) ↔ ∀ t, M.Visits s t → M.step t = N.step t := by
  constructor
  · intro h t hv
    induction hv with
    | refl s => rw [← after_one M, ← after_one N, h 1]
    | @move s t u hstep _ ih =>
      have hstep' : N.step s = .inl t := by rw [← after_one N, ← h 1, after_one, hstep]
      refine ih fun n => ?_
      rw [← after_of_step hstep, ← after_of_step hstep', h (n + 1)]
  · intro h n
    induction n generalizing s with
    | zero => rfl
    | succ n ih =>
      have hs := h s (.refl s)
      cases hstep : M.step s with
      | inl t =>
        rw [after_of_step hstep, after_of_step (hs.symm.trans hstep)]
        exact ih fun u hu => h u (.move hstep hu)
      | inr r => rw [after, after, ← hs, hstep]

/-- Related states move to related states, or stop with the same result. -/
def Lockstep (M : Machine σ ρ) (N : Machine τ ρ) (R : σ → τ → Prop) : Prop :=
  ∀ s t, R s t →
    (∃ s' t', M.step s = .inl s' ∧ N.step t = .inl t' ∧ R s' t') ∨
      ∃ r, M.step s = .inr r ∧ N.step t = .inr r

variable {R : σ → τ → Prop}

theorem Lockstep.symm (h : Lockstep M N R) : Lockstep N M (fun t s => R s t) := by
  intro t s hst
  rcases h s t hst with ⟨s', t', hs, ht, hst'⟩ | ⟨r, hs, ht⟩
  · exact .inl ⟨t', s', ht, hs, hst'⟩
  · exact .inr ⟨r, ht, hs⟩

theorem Lockstep.returns (h : Lockstep M N R) {s : σ} {t : τ} {r : ρ} (hst : R s t)
    (hr : M.Returns s r) : N.Returns t r := by
  induction hr generalizing t with
  | stop hs =>
    rcases h _ t hst with ⟨s', t', hs', -, -⟩ | ⟨r', hs', ht⟩
    · cases hs.symm.trans hs'
    · obtain rfl := Sum.inr.inj (hs.symm.trans hs')
      exact .stop ht
  | move hs _ ih =>
    rcases h _ t hst with ⟨s', t', hs', ht, hst'⟩ | ⟨r', hs', -⟩
    · obtain rfl := Sum.inl.inj (hs.symm.trans hs')
      exact .move ht (ih hst')
    · cases hs.symm.trans hs'

/-- Related states return the same results. -/
theorem Lockstep.returns_iff (h : Lockstep M N R) {s : σ} {t : τ} (hst : R s t) (r : ρ) :
    M.Returns s r ↔ N.Returns t r :=
  ⟨h.returns hst, fun hr => h.symm.returns hst hr⟩

/-- A state the one run passes through is related to one the other passes through. -/
theorem Lockstep.visits (h : Lockstep M N R) {s : σ} {t u : τ} (hst : R s t)
    (hv : N.Visits t u) : ∃ v, M.Visits s v ∧ R v u := by
  induction hv generalizing s with
  | refl => exact ⟨s, .refl s, hst⟩
  | move ht _ ih =>
    rcases h _ _ hst with ⟨s', t', hs, ht', hst'⟩ | ⟨r, -, ht'⟩
    · obtain rfl := Sum.inl.inj (ht.symm.trans ht')
      obtain ⟨v, hv, hvu⟩ := ih hst'
      exact ⟨v, .move hs hv, hvu⟩
    · cases ht.symm.trans ht'

/-- A move of `N` is one move of `M` or more, and where `N` stops, `M` gets to the same result. -/
def Refines (M : Machine σ ρ) (N : Machine τ ρ) (R : σ → τ → Prop) : Prop :=
  ∀ s t, R s t →
    (∃ s₁ s' t', M.step s = .inl s₁ ∧ M.Visits s₁ s' ∧ N.step t = .inl t' ∧ R s' t') ∨
      ∃ r, M.Returns s r ∧ N.step t = .inr r

theorem Refines.returns_of_run (h : Refines M N R) {r : ρ} :
    ∀ {n : ℕ} {s : σ} {t : τ}, R s t → M.run n s = some r → N.Returns t r := by
  intro n
  induction n using Nat.strongRecOn with
  | ind n ih =>
    intro s t hst hn
    rcases h s t hst with ⟨s₁, s', t', hs, hvisits, ht, hst'⟩ | ⟨r', hr', ht⟩
    · cases n with
      | zero => exact nomatch hn
      | succ n =>
        rw [run, hs] at hn
        obtain ⟨m, hm, hrun⟩ := hvisits.exists_run hn
        exact .move ht (ih m (Nat.lt_succ_of_le hm) hst' hrun)
    · obtain rfl := (Machine.returns_of_run hn).unique hr'
      exact .stop ht

/-- Both return the same results. -/
theorem Refines.returns_iff (h : Refines M N R) {s : σ} {t : τ} (hst : R s t) (r : ρ) :
    M.Returns s r ↔ N.Returns t r := by
  constructor
  · intro hr
    obtain ⟨n, hn⟩ := hr.exists_run
    exact h.returns_of_run hst hn
  · intro hr
    induction hr generalizing s with
    | stop ht =>
      rcases h s _ hst with ⟨s₁, s', t', -, -, ht', -⟩ | ⟨r', hr', ht'⟩
      · exact nomatch ht.symm.trans ht'
      · rwa [Sum.inr.inj (ht.symm.trans ht')]
    | move ht _ ih =>
      rcases h s _ hst with ⟨s₁, s', t', hs, hvisits, ht', hst'⟩ | ⟨r', -, ht'⟩
      · obtain rfl := Sum.inl.inj (ht.symm.trans ht')
        exact .move hs (hvisits.returns (ih hst'))
      · exact nomatch ht.symm.trans ht'

end Machine

end Arancini
