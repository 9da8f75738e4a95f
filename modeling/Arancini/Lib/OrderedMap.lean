import Mathlib.Order.Lattice
import Mathlib.Order.Basic
import Mathlib.Order.Defs.LinearOrder
import Mathlib.Data.List.Basic
import Mathlib.Tactic.Common

/-!
# Ordered maps

A map with ordered keys as the list of its entries, by their keys. An entry replaces the one that
has its key (`mem_insert`), and `upperBound` finds the entry with the smallest key above a bound
(`upperBound_eq_some_iff`).
-/

namespace Arancini.OrderedMap

variable {K V : Type*} [LinearOrder K]

/-- The entries stand by their keys, and no key twice. -/
def Sorted (m : List (K × V)) : Prop :=
  m.Pairwise fun e e' => e.1 < e'.1

/-- Put an entry into the map. -/
def insert (k : K) (x : V) : List (K × V) → List (K × V)
  | [] => [(k, x)]
  | e :: m =>
    if k < e.1 then (k, x) :: e :: m
    else if k = e.1 then (k, x) :: m
    else e :: insert k x m

/-- The first entry with a key above the bound. -/
def upperBound (b : K) (m : List (K × V)) : Option (K × V) :=
  m.find? fun e => decide (b < e.1)

variable {m : List (K × V)} {k b : K} {x : V} {e : K × V}

theorem mem_insert (hm : Sorted m) : e ∈ insert k x m ↔ e = (k, x) ∨ (e ∈ m ∧ e.1 ≠ k) := by
  induction m with
  | nil => simp [insert]
  | cons f m ih =>
    obtain ⟨hhead, hrest⟩ := List.pairwise_cons.1 hm
    rw [insert]
    split_ifs with hlt heq
    · have habove : ∀ g ∈ f :: m, g.1 ≠ k := fun g hg => by
        rcases List.mem_cons.1 hg with rfl | hg
        · exact hlt.ne'
        · exact (hlt.trans (hhead g hg)).ne'
      rw [List.mem_cons]
      exact or_congr_right ⟨fun hmem => ⟨hmem, habove e hmem⟩, And.left⟩
    · have habove : ∀ g ∈ m, g.1 ≠ k := fun g hg => heq ▸ (hhead g hg).ne'
      rw [List.mem_cons, List.mem_cons]
      refine or_congr_right ⟨fun hmem => ⟨.inr hmem, habove e hmem⟩, ?_⟩
      rintro ⟨rfl | hmem, hne⟩
      · exact absurd heq.symm hne
      · exact hmem
    · rw [List.mem_cons, ih hrest, List.mem_cons]
      constructor
      · rintro (rfl | rfl | ⟨hmem, hne⟩)
        · exact .inr ⟨.inl rfl, Ne.symm heq⟩
        · exact .inl rfl
        · exact .inr ⟨.inr hmem, hne⟩
      · rintro (rfl | ⟨rfl | hmem, hne⟩)
        · exact .inr (.inl rfl)
        · exact .inl rfl
        · exact .inr (.inr ⟨hmem, hne⟩)

theorem sorted_insert (hm : Sorted m) : Sorted (insert k x m) := by
  induction m with
  | nil => exact List.pairwise_singleton ..
  | cons f m ih =>
    obtain ⟨hhead, hrest⟩ := List.pairwise_cons.1 hm
    rw [insert]
    split_ifs with hlt heq
    · refine List.pairwise_cons.2 ⟨fun g hg => ?_, hm⟩
      rcases List.mem_cons.1 hg with rfl | hg
      · exact hlt
      · exact hlt.trans (hhead g hg)
    · exact List.pairwise_cons.2 ⟨fun g hg => heq ▸ hhead g hg, hrest⟩
    · refine List.pairwise_cons.2 ⟨fun g hg => ?_, ih hrest⟩
      rcases (mem_insert hrest).1 hg with rfl | ⟨hg, -⟩
      · exact lt_of_le_of_ne (not_lt.1 hlt) (Ne.symm heq)
      · exact hhead g hg

theorem upperBound_eq_none_iff : upperBound b m = none ↔ ∀ e ∈ m, e.1 ≤ b := by
  simp [upperBound]

/-- `upperBound` finds the smallest key above the bound. -/
theorem upperBound_eq_some_iff (hm : Sorted m) : upperBound b m = some e ↔
    e ∈ m ∧ b < e.1 ∧ ∀ e' ∈ m, b < e'.1 → e.1 ≤ e'.1 := by
  induction m with
  | nil => simp [upperBound]
  | cons f m ih =>
    obtain ⟨hhead, hrest⟩ := List.pairwise_cons.1 hm
    by_cases hf : b < f.1
    · have hfind : upperBound b (f :: m) = some f := List.find?_cons_of_pos (decide_eq_true hf)
      rw [hfind]
      constructor
      · rintro ⟨rfl⟩
        refine ⟨List.mem_cons_self, hf, fun e' he' _ => ?_⟩
        rcases List.mem_cons.1 he' with rfl | he'
        · exact le_rfl
        · exact (hhead e' he').le
      · rintro ⟨hmem, -, hmin⟩
        rcases List.mem_cons.1 hmem with rfl | hmem
        · rfl
        · exact absurd (hhead e hmem) (not_lt.2 (hmin f List.mem_cons_self hf))
    · have hfind : upperBound b (f :: m) = upperBound b m :=
        List.find?_cons_of_neg (by simpa using hf)
      rw [hfind, ih hrest, List.mem_cons]
      constructor
      · rintro ⟨hmem, hlt, hmin⟩
        refine ⟨.inr hmem, hlt, fun e' he' hlt' => ?_⟩
        rcases List.mem_cons.1 he' with rfl | he'
        · exact absurd hlt' hf
        · exact hmin e' he' hlt'
      · rintro ⟨rfl | hmem, hlt, hmin⟩
        · exact absurd hlt hf
        · exact ⟨hmem, hlt, fun e' he' => hmin e' (List.mem_cons_of_mem _ he')⟩

end Arancini.OrderedMap
