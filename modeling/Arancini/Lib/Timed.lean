import Mathlib.Order.Nat
import Mathlib.Tactic.Common

/-!
# Computations that may not end

A computation with loops takes fuel. With some fuel it returns, throws, or runs out of it. `Halts`
says that some fuel is enough, and `Yields` what it returns then. A computation that `Grows` does
the same with more fuel once it ends, so a sequence ends exactly if its parts do (`halts_bind`).

`iterate` runs a body until it returns. `halts_iterate` is the rule for its termination : an
invariant that counts the rounds, and a round behind which there is no other.
-/

namespace Arancini

universe u v

/-- What a computation does with the fuel it has. -/
inductive Timed (ε : Type u) (α : Type v)
  | ok (a : α)
  | error (e : ε)
  | timeout

namespace Timed

variable {ε : Type u} {α β σ : Type v}

def bind : Timed ε α → (α → Timed ε β) → Timed ε β
  | ok a, f => f a
  | error e, _ => error e
  | timeout, _ => timeout

instance : Monad (Timed ε) where
  pure := ok
  bind := bind

@[simp] theorem ok_bind (a : α) (f : α → Timed ε β) : ((ok a : Timed ε α) >>= f) = f a :=
  rfl

@[simp] theorem error_bind (e : ε) (f : α → Timed ε β) : ((error e : Timed ε α) >>= f) = error e :=
  rfl

@[simp] theorem timeout_bind (f : α → Timed ε β) : ((timeout : Timed ε α) >>= f) = timeout :=
  rfl

instance : LawfulMonad (Timed ε) :=
  LawfulMonad.mk' _ (fun x => by cases x <;> rfl) (fun _ _ => rfl) fun x _ _ => by cases x <;> rfl

/-- A value that may be missing. -/
def ofOption (e : ε) : Option α → Timed ε α
  | some a => ok a
  | none => error e

end Timed

open Timed

variable {ε : Type u} {α β σ : Type v} {x : ℕ → Timed ε α} {f : ℕ → α → Timed ε β}

/-- More fuel does not change what a computation does. -/
def Grows (x : ℕ → Timed ε α) : Prop :=
  ∀ m n, m ≤ n → x m ≠ timeout → x n = x m

/-- Some fuel is enough. -/
def Halts (x : ℕ → Timed ε α) : Prop :=
  ∃ n, x n ≠ timeout

/-- The computation returns this value. -/
def Yields (x : ℕ → Timed ε α) (a : α) : Prop :=
  ∃ n, x n = ok a

theorem Yields.halts {a : α} (h : Yields x a) : Halts x := by
  obtain ⟨n, hn⟩ := h
  exact ⟨n, fun ht => nomatch hn.symm.trans ht⟩

theorem Yields.unique (hx : Grows x) {a b : α} (ha : Yields x a) (hb : Yields x b) : a = b := by
  obtain ⟨m, hm⟩ := ha
  obtain ⟨n, hn⟩ := hb
  have hsame : x m = x n := by
    rcases Nat.le_total m n with hle | hle
    · exact (hx m n hle fun ht => nomatch hm.symm.trans ht).symm
    · exact hx n m hle fun ht => nomatch hn.symm.trans ht
  exact Timed.ok.inj (hm.symm.trans (hsame.trans hn))

/-- With any fuel, a computation that returns does so or runs out of it. -/
theorem Yields.timeout_or (hx : Grows x) {a : α} (ha : Yields x a) (n : ℕ) :
    x n = timeout ∨ x n = ok a := by
  obtain ⟨m, hm⟩ := ha
  by_cases hn : x n = timeout
  · exact .inl hn
  · refine .inr ?_
    rcases Nat.le_total m n with hle | hle
    · exact (hx m n hle fun ht => nomatch hm.symm.trans ht).trans hm
    · exact (hx n m hle hn).symm.trans hm

/-! ## Without loops -/

theorem grows_const (r : Timed ε α) : Grows fun _ => r :=
  fun _ _ _ _ => rfl

theorem halts_const {r : Timed ε α} : Halts (fun _ => r) ↔ r ≠ timeout :=
  ⟨fun ⟨_, h⟩ => h, fun h => ⟨0, h⟩⟩

theorem yields_const {r : Timed ε α} {a : α} : Yields (fun _ => r) a ↔ r = ok a :=
  ⟨fun ⟨_, h⟩ => h, fun h => ⟨0, h⟩⟩

/-! ## Sequences -/

theorem Grows.bind (hx : Grows x) (hf : ∀ a, Grows fun n => f n a) :
    Grows fun n => x n >>= f n := by
  intro m n hle hm
  have hne : x m ≠ timeout := fun ht => hm (by
    show (x m >>= f m) = timeout
    rw [ht]
    rfl)
  show (x n >>= f n) = (x m >>= f m)
  rw [hx m n hle hne]
  cases hxm : x m with
  | ok a =>
    refine hf a m n hle fun ht => hm ?_
    show (x m >>= f m) = timeout
    rw [hxm]
    exact ht
  | error e => rfl
  | timeout => exact absurd hxm hne

theorem yields_bind (hx : Grows x) (hf : ∀ a, Grows fun n => f n a) {b : β} :
    Yields (fun n => x n >>= f n) b ↔ ∃ a, Yields x a ∧ Yields (fun n => f n a) b := by
  constructor
  · rintro ⟨n, hn⟩
    have hn : (x n >>= f n) = ok b := hn
    cases hxn : x n with
    | ok a =>
      rw [hxn] at hn
      exact ⟨a, ⟨n, hxn⟩, ⟨n, hn⟩⟩
    | error e =>
      rw [hxn] at hn
      exact nomatch hn
    | timeout =>
      rw [hxn] at hn
      exact nomatch hn
  · rintro ⟨a, ⟨m, hm⟩, ⟨n, hn⟩⟩
    refine ⟨max m n, ?_⟩
    have hxa : x (max m n) = ok a :=
      (hx m _ (Nat.le_max_left m n) fun ht => nomatch hm.symm.trans ht).trans hm
    have hfb : f (max m n) a = ok b :=
      (hf a n _ (Nat.le_max_right m n) fun ht => nomatch hn.symm.trans ht).trans hn
    show (x _ >>= f _) = ok b
    rw [hxa, Timed.ok_bind, hfb]

/-- A sequence ends if its first part does, and its second part after what the first returns. -/
theorem halts_bind (hx : Grows x) (hf : ∀ a, Grows fun n => f n a) :
    Halts (fun n => x n >>= f n) ↔ Halts x ∧ ∀ a, Yields x a → Halts fun n => f n a := by
  constructor
  · rintro ⟨n, hn⟩
    have hne : x n ≠ timeout := fun ht => hn (by
      show (x n >>= f n) = timeout
      rw [ht]
      rfl)
    refine ⟨⟨n, hne⟩, fun a ha => ⟨n, fun ht => hn ?_⟩⟩
    show (x n >>= f n) = timeout
    cases hxn : x n with
    | ok b =>
      obtain rfl := ha.unique hx ⟨n, hxn⟩
      exact ht
    | error e =>
      obtain ⟨m, hm⟩ := ha
      rcases Nat.le_total m n with hle | hle
      · exact nomatch ((hx m n hle fun h => nomatch hm.symm.trans h).trans hm).symm.trans hxn
      · exact nomatch ((hx n m hle hne).trans hxn).symm.trans hm
    | timeout => exact absurd hxn hne
  · rintro ⟨⟨m, hm⟩, hhalts⟩
    cases hxm : x m with
    | ok a =>
      obtain ⟨n, hn⟩ := hhalts a ⟨m, hxm⟩
      refine ⟨max m n, fun ht => hn ?_⟩
      have ht : (x (max m n) >>= f (max m n)) = timeout := ht
      rw [hx m _ (Nat.le_max_left m n) hm, hxm, Timed.ok_bind] at ht
      by_contra hne
      exact hne ((hf a n _ (Nat.le_max_right m n) hne).symm.trans ht)
    | error e =>
      refine ⟨m, fun ht => ?_⟩
      have ht : (x m >>= f m) = timeout := ht
      rw [hxm] at ht
      exact nomatch ht
    | timeout => exact absurd hxm hm

/-- After a first part that returns, a sequence does what its second part does. -/
theorem yields_bind_of_yields (hx : Grows x) (hf : ∀ a, Grows fun n => f n a) {a : α}
    (ha : Yields x a) {b : β} :
    Yields (fun n => x n >>= f n) b ↔ Yields (fun n => f n a) b := by
  rw [yields_bind hx hf]
  constructor
  · rintro ⟨a', ha', hb⟩
    obtain rfl := ha.unique hx ha'
    exact hb
  · exact fun hb => ⟨a, ha, hb⟩

theorem halts_bind_of_yields (hx : Grows x) (hf : ∀ a, Grows fun n => f n a) {a : α}
    (ha : Yields x a) : Halts (fun n => x n >>= f n) ↔ Halts fun n => f n a := by
  rw [halts_bind hx hf]
  refine ⟨fun h => h.2 a ha, fun h => ⟨ha.halts, fun a' ha' => ?_⟩⟩
  obtain rfl := ha.unique hx ha'
  exact h

/-- What comes after a computation may not use fuel. -/
theorem grows_map (hx : Grows x) (g : α → Timed ε β) : Grows fun n => x n >>= g :=
  hx.bind fun a => grows_const (g a)

theorem yields_map (hx : Grows x) {g : α → Timed ε β} {b : β} :
    Yields (fun n => x n >>= g) b ↔ ∃ a, Yields x a ∧ g a = ok b := by
  have hbind := yields_bind hx (fun a => grows_const (g a)) (b := b)
  simp only [yields_const] at hbind
  exact hbind

theorem halts_map (hx : Grows x) {g : α → Timed ε β} :
    Halts (fun n => x n >>= g) ↔ Halts x ∧ ∀ a, Yields x a → g a ≠ timeout := by
  have hbind := halts_bind hx fun a => grows_const (g a)
  simp only [halts_const] at hbind
  exact hbind

/-! ## Lists -/

section Fold

variable {body : ℕ → σ → α → Timed ε σ}

theorem grows_foldlM (hbody : ∀ s a, Grows fun n => body n s a) (l : List α) (s : σ) :
    Grows fun n => l.foldlM (body n) s := by
  induction l generalizing s with
  | nil => exact grows_const _
  | cons a l ih =>
    simp only [List.foldlM_cons]
    exact (hbody s a).bind fun t => ih t

/-- A fold ends if its last round does after those before it. -/
theorem halts_foldlM_concat (hbody : ∀ s a, Grows fun n => body n s a) {l : List α} {a : α}
    {s : σ} : Halts (fun n => (l ++ [a]).foldlM (body n) s) ↔
      Halts (fun n => l.foldlM (body n) s) ∧
        ∀ t, Yields (fun n => l.foldlM (body n) s) t → Halts fun n => body n t a := by
  simp only [List.foldlM_append, List.foldlM_cons, List.foldlM_nil, bind_pure]
  exact halts_bind (grows_foldlM hbody l s) fun t => hbody t a

theorem yields_foldlM_concat (hbody : ∀ s a, Grows fun n => body n s a) {l : List α} {a : α}
    {s t : σ} : Yields (fun n => (l ++ [a]).foldlM (body n) s) t ↔
      ∃ r, Yields (fun n => l.foldlM (body n) s) r ∧ Yields (fun n => body n r a) t := by
  simp only [List.foldlM_append, List.foldlM_cons, List.foldlM_nil, bind_pure]
  exact yields_bind (grows_foldlM hbody l s) fun t => hbody t a

end Fold

/-! ## Loops -/

/-- After a round : go on, or return. -/
def resume (loop : σ → Timed ε α) : σ ⊕ α → Timed ε α
  | .inl t => loop t
  | .inr a => ok a

/-- Run the body until it returns. -/
def iterate (body : ℕ → σ → Timed ε (σ ⊕ α)) : ℕ → σ → Timed ε α
  | 0, _ => timeout
  | n + 1, s => body n s >>= resume (iterate body n)

section Iterate

variable {body : ℕ → σ → Timed ε (σ ⊕ α)}

theorem grows_iterate (hbody : ∀ s, Grows fun n => body n s) (s : σ) :
    Grows fun n => iterate body n s := by
  intro m
  induction m generalizing s with
  | zero => exact fun _ _ hne => absurd rfl hne
  | succ m ih =>
    intro n hle hne
    obtain ⟨n, rfl⟩ : ∃ k, n = k + 1 := ⟨n - 1, by omega⟩
    have hle' : m ≤ n := Nat.le_of_succ_le_succ hle
    have hfirst : body m s ≠ timeout := fun ht => hne (by
      show iterate body (m + 1) s = timeout
      rw [iterate, ht]
      rfl)
    have hsame : body n s = body m s := hbody s m n hle' hfirst
    show iterate body (n + 1) s = iterate body (m + 1) s
    rw [iterate, iterate, hsame]
    cases hm : body m s with
    | ok r =>
      cases r with
      | inl t =>
        refine ih t n hle' fun ht => hne ?_
        show iterate body (m + 1) s = timeout
        rw [iterate, hm]
        exact ht
      | inr a => rfl
    | error e => rfl
    | timeout => exact absurd hm hfirst

theorem yields_iterate_inr {s : σ} {a : α} (h : Yields (fun n => body n s) (.inr a)) :
    Yields (fun n => iterate body n s) a := by
  obtain ⟨n, hn⟩ := h
  have hn : body n s = ok (.inr a) := hn
  refine ⟨n + 1, ?_⟩
  show iterate body (n + 1) s = ok a
  rw [iterate, hn]
  rfl

theorem yields_iterate_inl (hbody : ∀ s, Grows fun n => body n s) {s t : σ} {a : α}
    (h : Yields (fun n => body n s) (.inl t)) (ht : Yields (fun n => iterate body n t) a) :
    Yields (fun n => iterate body n s) a := by
  obtain ⟨m, hm⟩ := h
  obtain ⟨n, hn⟩ := ht
  refine ⟨max m n + 1, ?_⟩
  have hfirst : body (max m n) s = ok (.inl t) :=
    (hbody s m _ (Nat.le_max_left m n) fun ht => nomatch hm.symm.trans ht).trans hm
  have hrest : iterate body (max m n) t = ok a :=
    (grows_iterate hbody t n _ (Nat.le_max_right m n) fun ht => nomatch hn.symm.trans ht).trans hn
  show iterate body (max m n + 1) s = ok a
  rw [iterate, hfirst]
  exact hrest

theorem iterate_succ_eq_ok {n : ℕ} {s : σ} {a : α} (h : iterate body (n + 1) s = ok a) :
    body n s = ok (.inr a) ∨ ∃ t, body n s = ok (.inl t) ∧ iterate body n t = ok a := by
  rw [iterate] at h
  cases hr : body n s with
  | ok r =>
    rw [hr] at h
    cases r with
    | inl t => exact .inr ⟨t, rfl, h⟩
    | inr b =>
      obtain rfl := Timed.ok.inj h
      exact .inl rfl
  | error e =>
    rw [hr] at h
    exact nomatch h
  | timeout =>
    rw [hr] at h
    exact nomatch h

theorem halts_iterate_step (hbody : ∀ s, Grows fun n => body n s) {s : σ} :
    Halts (fun n => iterate body n s) ↔ Halts (fun n => body n s) ∧
      ∀ t, Yields (fun n => body n s) (.inl t) → Halts fun n => iterate body n t := by
  have hrest : ∀ r, Grows fun n => resume (iterate body n) r := by
    rintro (t | a)
    · exact grows_iterate hbody t
    · exact grows_const _
  have hstep : Halts (fun n => iterate body n s) ↔
      Halts fun n => body n s >>= resume (iterate body n) := by
    constructor
    · rintro ⟨n, hn⟩
      cases n with
      | zero => exact absurd rfl hn
      | succ n => exact ⟨n, hn⟩
    · rintro ⟨n, hn⟩
      exact ⟨n + 1, hn⟩
  rw [hstep, halts_bind (hbody s) hrest]
  refine and_congr_right fun _ => ⟨fun h t ht => h (.inl t) ht, ?_⟩
  rintro h (t | a) hr
  · exact h t hr
  · exact ⟨0, nofun⟩

/-- A loop ends if there is a round, among those that an invariant counts, behind which it does not
go on. -/
theorem halts_iterate (hbody : ∀ s, Grows fun n => body n s) {P : ℕ → σ → Prop} {k : ℕ}
    (hround : ∀ j s, P j s → Halts (fun n => body n s) ∧
      ∀ t, Yields (fun n => body n s) (.inl t) → P (j + 1) t)
    (hlast : ∀ s t, P k s → ¬Yields (fun n => body n s) (.inl t)) {j : ℕ} {s : σ} (hle : j ≤ k)
    (hs : P j s) : Halts fun n => iterate body n s := by
  induction hle using Nat.decreasingInduction generalizing s with
  | self =>
    refine (halts_iterate_step hbody).2 ⟨(hround k s hs).1, fun t ht => ?_⟩
    exact absurd ht (hlast s t hs)
  | of_succ j _ ih =>
    refine (halts_iterate_step hbody).2 ⟨(hround j s hs).1, fun t ht => ?_⟩
    exact ih ((hround j s hs).2 t ht)

/-- A loop that always goes on does not end. -/
theorem not_halts_iterate {P : σ → Prop}
    (hround : ∀ s n, P s → body n s = timeout ∨ ∃ t, body n s = ok (.inl t) ∧ P t) {s : σ}
    (hs : P s) : ¬Halts fun n => iterate body n s := by
  rintro ⟨n, hn⟩
  refine hn ?_
  clear hn
  induction n generalizing s with
  | zero => rfl
  | succ n ih =>
    show iterate body (n + 1) s = timeout
    rw [iterate]
    rcases hround s n hs with ht | ⟨t, ht, hP⟩
    · rw [ht]
      rfl
    · rw [ht]
      exact ih hP

end Iterate

end Arancini
