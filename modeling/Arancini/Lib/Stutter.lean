import Arancini.Lib.Machine

/-!
# Simulation with stutter

A move of the first machine may be several moves of the second, or none. Moves that are none make
a measure of the first machine smaller, so a run that does not stop is followed by one that does
not stop either.
-/

namespace Arancini.Machine

variable {σ τ ρ ρ' : Type*} {M : Machine σ ρ} {N : Machine τ ρ'} {R : σ → τ → Prop}
  {measure : σ → ℕ} {s s' : σ} {t : τ}

/-- A run that stops passes through a state that stops. -/
theorem Returns.exists_visits {r : ρ} (h : M.Returns s r) :
    ∃ t, M.Visits s t ∧ M.step t = .inr r := by
  induction h with
  | stop hstep => exact ⟨_, .refl _, hstep⟩
  | move hstep _ ih => exact ih.imp fun t => And.imp_left (.move hstep)

/-- From related states the second machine follows each move of the first. -/
def Follows (N : Machine τ ρ') (M : Machine σ ρ) (R : σ → τ → Prop) (measure : σ → ℕ) : Prop :=
  ∀ s s' t, R s t → M.step s = .inl s' →
    (∃ t₁ t', N.step t = .inl t₁ ∧ N.Visits t₁ t' ∧ R s' t') ∨ measure s' < measure s ∧ R s' t

theorem Follows.visits (h : Follows N M R measure) (hst : R s t) (hv : M.Visits s s') :
    ∃ t', N.Visits t t' ∧ R s' t' := by
  induction hv generalizing t with
  | refl => exact ⟨t, .refl t, hst⟩
  | move hstep _ ih =>
    rcases h _ _ _ hst hstep with ⟨t₁, t', ht, hvisits, hst'⟩ | ⟨-, hst'⟩
    · obtain ⟨u, hu, hR⟩ := ih hst'
      exact ⟨u, .move ht (hvisits.trans hu), hR⟩
    · exact ih hst'

/-- If the first machine does not stop, the second does not. -/
theorem Follows.not_returns (h : Follows N M R measure) (hst : R s t)
    (hM : ∀ r, ¬M.Returns s r) (r : ρ') : ¬N.Returns t r := by
  intro hr
  obtain ⟨n, hn⟩ := hr.exists_run
  clear hr
  -- The moves that are left, and among as many of these the measure.
  induction n using Nat.strongRecOn generalizing s t with
  | ind n ihn =>
    induction hm : measure s using Nat.strongRecOn generalizing s with
    | ind m ihm =>
      cases hstep : M.step s with
      | inr r' => exact hM r' (.stop hstep)
      | inl s' =>
        have hM' : ∀ r, ¬M.Returns s' r := fun r hr => hM r (.move hstep hr)
        rcases h _ _ _ hst hstep with ⟨t₁, t', ht, hvisits, hst'⟩ | ⟨hlt, hst'⟩
        · cases n with
          | zero => cases hn
          | succ n =>
            rw [run, ht] at hn
            obtain ⟨k, hk, hrun⟩ := hvisits.exists_run hn
            exact ihn k (Nat.lt_succ_of_le hk) hst' hM' hrun
        · exact ihm _ (hm ▸ hlt) hst' hM' rfl

end Arancini.Machine
