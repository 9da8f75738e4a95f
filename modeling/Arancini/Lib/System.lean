import Mathlib.Logic.Relation

/-!
# Transition systems

A system is a set of initial states and a step relation. `Reachable` is the closure of
the initial states under steps. `System.Reachable.invariant` is the induction every
safety argument about a run goes through : a predicate of the initial states that each
step keeps holds of every reachable state.
-/

namespace Arancini

/-- Initial states and a step relation. -/
structure System (σ : Type*) where
  /-- The states a run starts in. -/
  init : σ → Prop
  /-- One step of a run. -/
  step : σ → σ → Prop

namespace System

variable {σ : Type*} (S : System σ)

/-- `s` ends some run. -/
inductive Reachable : σ → Prop
  | init {s : σ} : S.init s → Reachable s
  | step {s t : σ} : Reachable s → S.step s t → Reachable t

variable {S}

/-- A predicate of the initial states that every step out of a reachable state keeps
holds of every reachable state. -/
theorem Reachable.invariant {P : σ → Prop} (h0 : ∀ s, S.init s → P s)
    (hs : ∀ s t, S.Reachable s → P s → S.step s t → P t) {s : σ} (h : S.Reachable s) : P s := by
  induction h with
  | init h => exact h0 _ h
  | step hr hst ih => exact hs _ _ hr ih hst

end System

end Arancini
