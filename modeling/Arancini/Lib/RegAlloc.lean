import Mathlib.Data.Set.BooleanAlgebra
import Mathlib.Order.CompletePartialOrder
import Mathlib.Data.Set.Function
import Mathlib.Tactic.Common

/-!
# Registers for straight-line code

Instructions use and define variables. From the end of the code backwards, `Live` is the set of
variables whose value is still wanted, when an instruction that only defines variables that are
not is dropped. In `Closed` code each use comes after a definition, and then none is live at its
start (`live_eq_empty`). In `Fresh` code a variable is not mentioned before its definition.

`Table` is what a backward scan keeps : a register for each variable it has met, and which
registers are free. The table `Holds` a set of variables when their registers are taken and
differ. Taking a free register for one more variable keeps that, and so does giving back the
register of one (`Table.Holds.take`, `Table.Holds.release`).
-/

namespace Arancini.RegAlloc

/-! ## Code -/

section Code

variable {I V : Type*} (uses defs : I → Set V)

/-- The variables that are live before the code. -/
def Live : List I → Set V
  | [] => ∅
  | i :: code => {v | v ∈ Live code ∧ v ∉ defs i ∨ defs i ⊆ Live code ∧ v ∈ uses i}

/-- Each use comes after a definition, or is of one of the given variables. -/
def Closed : Set V → List I → Prop
  | _, [] => True
  | known, i :: code => uses i ⊆ known ∧ Closed (known ∪ defs i) code

/-- The variables the code defines. -/
def Defined : List I → Set V
  | [] => ∅
  | i :: code => defs i ∪ Defined code

/-- No instruction defines a variable that it uses or that is mentioned before it. -/
def Fresh : List I → Prop
  | [] => True
  | i :: code => Disjoint (uses i ∪ defs i) (Defined defs code) ∧ Disjoint (uses i) (defs i) ∧
      Fresh code

variable {uses defs}

theorem live_subset_of_closed : ∀ {code : List I} {known : Set V}, Closed uses defs known code →
    Live uses defs code ⊆ known
  | [], _, _ => Set.empty_subset _
  | i :: code, known, ⟨huses, hcode⟩ => by
    rintro v (⟨hlive, hdef⟩ | ⟨-, huse⟩)
    · exact (live_subset_of_closed hcode hlive).resolve_right hdef
    · exact huses huse

/-- No variable is live before closed code. -/
theorem live_eq_empty {code : List I} (h : Closed uses defs ∅ code) : Live uses defs code = ∅ :=
  Set.subset_empty_iff.1 (live_subset_of_closed h)

theorem defined_append : ∀ (l r : List I), Defined defs (l ++ r) = Defined defs l ∪ Defined defs r
  | [], r => (Set.empty_union _).symm
  | i :: l, r => by
    rw [List.cons_append, Defined, Defined, defined_append l r, Set.union_assoc]

theorem closed_append : ∀ {l r : List I} {known : Set V},
    Closed uses defs known (l ++ r) ↔
      Closed uses defs known l ∧ Closed uses defs (known ∪ Defined defs l) r
  | [], r, known => by simp [Closed, Defined]
  | i :: l, r, known => by
    rw [List.cons_append, Closed, Closed, closed_append, Defined, Set.union_assoc, and_assoc]

/-- The variables the code mentions. -/
def Mentioned (uses defs : I → Set V) (code : List I) : Set V :=
  {v | ∃ i ∈ code, v ∈ uses i ∪ defs i}

theorem fresh_concat : ∀ {code : List I} {i : I}, Fresh uses defs code →
    Disjoint (uses i) (defs i) → Disjoint (Mentioned uses defs code) (defs i) →
      Fresh uses defs (code ++ [i])
  | [], i, _, hi, _ => ⟨Set.disjoint_empty _, hi, trivial⟩
  | j :: code, i, ⟨hj, hself, hcode⟩, hi, hdisj => by
    refine ⟨?_, hself, fresh_concat hcode hi (hdisj.mono_left ?_)⟩
    · change Disjoint _ (Defined defs (code ++ [i]))
      rw [defined_append, Set.disjoint_union_right, Defined, Defined, Set.union_empty]
      have hsub : uses j ∪ defs j ⊆ Mentioned uses defs (j :: code) :=
        fun v hv => ⟨j, List.mem_cons_self, hv⟩
      exact ⟨hj, hdisj.mono_left hsub⟩
    · rintro v ⟨k, hk, hv⟩
      exact ⟨k, List.mem_cons_of_mem j hk, hv⟩

end Code

/-! ## Tables -/

/-- The register of each variable that has one, and the registers that are free. -/
structure Table (V P : Type*) where
  map : V → Option P
  free : P → Bool

namespace Table

variable {V P : Type*}

/-- Register `p` is for variable `v`. -/
def take [DecidableEq V] [DecidableEq P] (T : Table V P) (v : V) (p : P) : Table V P where
  map := Function.update T.map v (some p)
  free := Function.update T.free p false

/-- Register `p` is free again. -/
def release [DecidableEq P] (T : Table V P) (p : P) : Table V P where
  map := T.map
  free := Function.update T.free p true

/-- The variables have registers, which are not free, and no two have the same. -/
structure Holds (T : Table V P) (live : Set V) : Prop where
  taken : ∀ v ∈ live, ∃ p, T.map v = some p ∧ T.free p = false
  injOn : Set.InjOn T.map live

variable {T : Table V P} {live : Set V}

theorem Holds.mono (h : T.Holds live) {live' : Set V} (hsub : live' ⊆ live) : T.Holds live' :=
  ⟨fun v hv => h.taken v (hsub hv), h.injOn.mono hsub⟩

/-- A free register is that of no live variable. -/
theorem Holds.ne_of_free (h : T.Holds live) {v : V} (hv : v ∈ live) {p : P}
    (hp : T.free p = true) : T.map v ≠ some p := by
  intro hmap
  obtain ⟨q, hq, hfree⟩ := h.taken v hv
  obtain rfl := Option.some.inj (hmap.symm.trans hq)
  rw [hp] at hfree
  cases hfree

theorem Holds.take [DecidableEq V] [DecidableEq P] (h : T.Holds live) {v : V} (hv : v ∉ live)
    {p : P} (hp : T.free p = true) :
    (T.take v p).Holds (insert v live) := by
  have hmap : ∀ w ∈ live, (T.take v p).map w = T.map w := fun w hw =>
    Function.update_of_ne (ne_of_mem_of_not_mem hw hv) ..
  have hself : (T.take v p).map v = some p := Function.update_self ..
  refine ⟨fun w hw => ?_, fun w hw x hx heq => ?_⟩
  · rcases hw with rfl | hw
    · exact ⟨p, hself, Function.update_self ..⟩
    · obtain ⟨q, hq, hfree⟩ := h.taken w hw
      have hne : q ≠ p := fun hqp => h.ne_of_free hw hp (hqp ▸ hq)
      exact ⟨q, (hmap w hw).trans hq, (Function.update_of_ne hne ..).trans hfree⟩
  · rcases hw with rfl | hw <;> rcases hx with rfl | hx
    · rfl
    · rw [hself, hmap x hx] at heq
      exact absurd heq.symm (h.ne_of_free hx hp)
    · rw [hself, hmap w hw] at heq
      exact absurd heq (h.ne_of_free hw hp)
    · rw [hmap w hw, hmap x hx] at heq
      exact h.injOn hw hx heq

theorem Holds.release [DecidableEq P] (h : T.Holds live) {v : V} (hv : v ∈ live) {p : P}
    (hp : T.map v = some p) :
    (T.release p).Holds (live \ {v}) := by
  refine ⟨fun w hw => ?_, h.injOn.mono Set.sdiff_subset⟩
  obtain ⟨q, hq, hfree⟩ := h.taken w hw.1
  have hne : q ≠ p := fun hqp => hw.2 (h.injOn hw.1 hv (hq.trans (hqp ▸ hp.symm)))
  exact ⟨q, hq, (Function.update_of_ne hne ..).trans hfree⟩

end Table

end Arancini.RegAlloc
