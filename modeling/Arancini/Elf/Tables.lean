import Mathlib.Data.Nat.Factorization.Basic
import Arancini.Elf.Reader

/-!
# The loops over tables

A table is read from its first entry on, each entry behind the one before by the entry size, until
the size of the section is reached. Offsets wrap around, so a loop with an entry size other than
zero comes to an entry in the upper half of the address space, which cannot be read.

`exists_yields_forEntries` says when a table is read, and `halts_forEntries` when its loop ends :
unless it reads its first entry over and over.
-/

namespace Arancini.Elf

variable {σ : Type} {size step i : BitVec 64} {s t : σ}
  {body : ℕ → BitVec 64 → σ → Timed Failure σ} {R : BitVec 64 → Prop}

/-- An entry is read or there is a fault, whatever has been read before. -/
structure ReadsEntry (body : ℕ → BitVec 64 → σ → Timed Failure σ) (R : BitVec 64 → Prop) :
    Prop where
  grows : ∀ i s, Grows fun n => body n i s
  halts : ∀ i s, Halts fun n => body n i s
  yields : ∀ i s, (∃ t, Yields (fun n => body n i s) t) ↔ R i

/-- The offset of an entry. -/
def entryOffset (step : BitVec 64) (k : ℕ) : BitVec 64 :=
  BitVec.ofNat 64 k * step

theorem entryOffset_zero : entryOffset step 0 = 0 :=
  BitVec.zero_mul

theorem entryOffset_succ (k : ℕ) : entryOffset step (k + 1) = step + entryOffset step k := by
  unfold entryOffset
  rw [Nat.add_comm, BitVec.ofNat_add, BitVec.add_mul]
  exact congrArg (· + _) (BitVec.one_mul step)

/-- All entries up to the size are readable. -/
def Reads (size step : BitVec 64) (R : BitVec 64 → Prop) : Prop :=
  ∃ n, (∀ k < n, entryOffset step k < size ∧ R (entryOffset step k)) ∧ ¬entryOffset step n < size

/-- The first entry is read over and over. -/
def Stuck (size step : BitVec 64) (R : BitVec 64 → Prop) : Prop :=
  step = 0 ∧ size ≠ 0 ∧ R 0

/-! ## A round -/

section Round

theorem forEntry_of_lt (h : i < size) (n : ℕ) : forEntry size step body n (i, s) =
    body n i s >>= fun t => .ok (.inl (i + step, t)) :=
  if_pos h

theorem forEntry_of_not_lt (h : ¬i < size) (n : ℕ) :
    forEntry size step body n (i, s) = .ok (.inr s) :=
  if_neg h

variable (hbody : ReadsEntry body R)

include hbody

theorem grows_forEntry (r : BitVec 64 × σ) : Grows fun n => forEntry size step body n r := by
  obtain ⟨i, s⟩ := r
  by_cases h : i < size
  · simp only [forEntry_of_lt h]
    exact grows_map (hbody.grows i s) _
  · simp only [forEntry_of_not_lt h]
    exact grows_const _

theorem halts_forEntry (r : BitVec 64 × σ) : Halts fun n => forEntry size step body n r := by
  obtain ⟨i, s⟩ := r
  by_cases h : i < size
  · simp only [forEntry_of_lt h]
    exact (halts_map (hbody.grows i s)).2 ⟨hbody.halts i s, nofun⟩
  · simp only [forEntry_of_not_lt h]
    exact halts_const.2 nofun

/-- A round that goes on has read an entry. -/
theorem yields_forEntry_inl {r : BitVec 64 × σ} :
    Yields (fun n => forEntry size step body n (i, s)) (.inl r) ↔
      i < size ∧ r.1 = i + step ∧ Yields (fun n => body n i s) r.2 := by
  by_cases h : i < size
  · simp only [forEntry_of_lt h]
    rw [yields_map (hbody.grows i s)]
    constructor
    · rintro ⟨t, ht, heq⟩
      obtain rfl := Sum.inl.inj (Timed.ok.inj heq)
      exact ⟨h, rfl, ht⟩
    · rintro ⟨-, hi, ht⟩
      exact ⟨r.2, ht, congrArg _ (congrArg _ (Prod.ext hi.symm rfl))⟩
  · simp only [forEntry_of_not_lt h, yields_const]
    exact ⟨fun heq => (nomatch heq), fun heq => absurd heq.1 h⟩

theorem yields_forEntry_inr :
    Yields (fun n => forEntry size step body n (i, s)) (.inr t) ↔ ¬i < size ∧ t = s := by
  by_cases h : i < size
  · simp only [forEntry_of_lt h]
    rw [yields_map (hbody.grows i s)]
    exact ⟨fun ⟨_, _, heq⟩ => (nomatch heq), fun heq => absurd h heq.1⟩
  · simp only [forEntry_of_not_lt h, yields_const]
    constructor
    · intro heq
      exact ⟨h, (Sum.inr.inj (Timed.ok.inj heq)).symm⟩
    · rintro ⟨-, rfl⟩
      rfl

end Round

/-! ## The loop -/

section Loop

variable (hbody : ReadsEntry body R)

include hbody

theorem grows_forEntries (s : σ) : Grows fun n => forEntries size step body n s :=
  grows_iterate (grows_forEntry hbody) _

/-- From an offset on, a table is read if its entries are. -/
theorem exists_yields_iterate :
    (∃ t, Yields (fun n => iterate (forEntry size step body) n (i, s)) t) ↔
      ∃ n, (∀ k < n, i + entryOffset step k < size ∧ R (i + entryOffset step k)) ∧
        ¬i + entryOffset step n < size := by
  have hzero : ∀ i : BitVec 64, i + entryOffset step 0 = i := fun i => by
    rw [entryOffset_zero]
    exact BitVec.add_zero i
  have hsucc : ∀ (i : BitVec 64) k, i + entryOffset step (k + 1) = i + step + entryOffset step k :=
    fun i k => by rw [entryOffset_succ, BitVec.add_assoc]
  constructor
  · rintro ⟨t, n, hn⟩
    replace hn : iterate (forEntry size step body) n (i, s) = .ok t := hn
    induction n generalizing i s with
    | zero => exact nomatch hn
    | succ n ih =>
      rcases iterate_succ_eq_ok hn with hlast | ⟨⟨j, u⟩, hnext, hrest⟩
      · refine ⟨0, fun k hk => absurd hk (Nat.not_lt_zero k), ?_⟩
        rw [hzero]
        exact ((yields_forEntry_inr hbody).1 ⟨n, hlast⟩).1
      · obtain ⟨hlt, rfl, hread⟩ := (yields_forEntry_inl hbody).1 ⟨n, hnext⟩
        obtain ⟨m, hreads, hend⟩ := ih hrest
        refine ⟨m + 1, fun k hk => ?_, by rwa [hsucc]⟩
        cases k with
        | zero =>
          rw [hzero]
          exact ⟨hlt, (hbody.yields i s).1 ⟨u, hread⟩⟩
        | succ k =>
          rw [hsucc]
          exact hreads k (Nat.lt_of_succ_lt_succ hk)
  · rintro ⟨n, hread, hend⟩
    induction n generalizing i s with
    | zero =>
      rw [hzero] at hend
      exact ⟨s, yields_iterate_inr ((yields_forEntry_inr hbody).2 ⟨hend, rfl⟩)⟩
    | succ n ih =>
      obtain ⟨hlt, hR⟩ := hread 0 (Nat.succ_pos n)
      rw [hzero] at hlt hR
      obtain ⟨u, hu⟩ := (hbody.yields i s).2 hR
      have hstep : Yields (fun n => forEntry size step body n (i, s)) (.inl (i + step, u)) :=
        (yields_forEntry_inl hbody).2 ⟨hlt, rfl, hu⟩
      obtain ⟨t, ht⟩ := @ih (i + step) u (fun k hk => by
        rw [← hsucc]
        exact hread (k + 1) (Nat.succ_lt_succ hk)) (by
        rw [← hsucc]
        exact hend)
      exact ⟨t, yields_iterate_inl (grows_forEntry hbody) hstep ht⟩

/-- A table is read if its entries are. -/
theorem exists_yields_forEntries :
    (∃ t, Yields (fun n => forEntries size step body n s) t) ↔ Reads size step R := by
  have hzero : ∀ i : BitVec 64, 0 + i = i := BitVec.zero_add
  have hiterate := @exists_yields_iterate σ size step 0 s body R hbody
  simp only [hzero] at hiterate
  exact hiterate

/-- A loop over a first entry that is readable does not come to its end. -/
theorem not_halts_of_stuck (h : Stuck size step R) :
    ¬Halts fun n => forEntries size step body n s := by
  obtain ⟨rfl, hsize, hR⟩ := h
  have hlt : (0 : BitVec 64) < size := (BitVec.pos_iff_ne_zero size).2 hsize
  refine not_halts_iterate (P := fun r => r.1 = 0) ?_ rfl
  rintro ⟨i, s⟩ n rfl
  obtain ⟨t, ht⟩ := (hbody.yields 0 s).2 hR
  rw [forEntry_of_lt hlt]
  rcases ht.timeout_or (hbody.grows 0 s) n with hn | hn
  · exact .inl (by rw [hn]; rfl)
  · exact .inr ⟨(0 + 0, t), by rw [hn]; rfl, rfl⟩

/-- A table is read entry by entry. -/
theorem yields_forEntries (f : ℕ → σ) {n : ℕ} (hsize : size.toNat = n * step.toNat)
    (hpos : 0 < step.toNat)
    (hchain : ∀ k < n, Yields (fun m => body m (entryOffset step k) (f k)) (f (k + 1))) :
    Yields (fun m => forEntries size step body m (f 0)) (f n) := by
  have hoffset : ∀ k ≤ n, (entryOffset step k).toNat = k * step.toNat := by
    intro k hk
    have hle : k * step.toNat ≤ size.toNat := hsize ▸ Nat.mul_le_mul_right _ hk
    unfold entryOffset
    rw [BitVec.toNat_mul, BitVec.toNat_ofNat, Nat.mod_mul_mod,
      Nat.mod_eq_of_lt (hle.trans_lt size.isLt)]
  suffices h : ∀ k ≤ n, Yields (fun m => iterate (forEntry size step body) m
      (entryOffset step k, f k)) (f n) by
    have hzero := h 0 (Nat.zero_le n)
    rwa [entryOffset_zero] at hzero
  intro k hk
  induction hk using Nat.decreasingInduction with
  | self =>
    refine yields_iterate_inr ((yields_forEntry_inr hbody).2 ⟨?_, rfl⟩)
    rw [BitVec.lt_def, hoffset n (Nat.le_refl n), hsize]
    exact Nat.lt_irrefl _
  | of_succ k hlt ih =>
    refine yields_iterate_inl (grows_forEntry hbody) ((yields_forEntry_inl hbody).2
      ⟨?_, ?_, hchain k hlt⟩) ih
    · rw [BitVec.lt_def, hoffset k hlt.le, hsize]
      exact Nat.mul_lt_mul_of_pos_right hlt hpos
    · rw [entryOffset_succ, BitVec.add_comm]

end Loop

/-- A multiple of an entry size is in the upper half. -/
theorem exists_entryOffset (h : step ≠ 0) :
    ∃ k, 0 < k ∧ entryOffset step k = BitVec.ofNat 64 (2 ^ 63) := by
  have hne : step.toNat ≠ 0 := fun heq => h (BitVec.eq_of_toNat_eq heq)
  obtain ⟨v, m, hm, hstep⟩ := Nat.exists_eq_two_pow_mul_odd hne
  obtain ⟨q, rfl⟩ := hm
  have hv : v ≤ 63 := by
    by_contra hv
    have hpow : 2 ^ 64 ≤ 2 ^ v := Nat.pow_le_pow_right (by decide) (by omega)
    have hlt := step.isLt
    rw [hstep] at hlt
    exact absurd (hpow.trans (Nat.le_mul_of_pos_right _ (Nat.succ_pos _))) (Nat.not_le.2 hlt)
  refine ⟨2 ^ (63 - v), Nat.two_pow_pos _, BitVec.eq_of_toNat_eq ?_⟩
  have hmul : 2 ^ (63 - v) * (2 ^ v * (2 * q + 1)) = 2 ^ 63 + 2 ^ 64 * q := by
    rw [← Nat.mul_assoc, ← Nat.pow_add, Nat.sub_add_cancel hv]
    omega
  unfold entryOffset
  rw [BitVec.toNat_mul, BitVec.toNat_ofNat, Nat.mod_mul_mod, hstep, hmul, Nat.add_mul_mod_self_left,
    BitVec.toNat_ofNat]

/-- A loop over a table ends unless it reads its first entry over and over. -/
theorem halts_forEntries {img : Image} {offset : BitVec 64} (hbody : ReadsEntry body R)
    (hmapped : ∀ i, R i → (img.byte (offset + i)).isSome) :
    Halts (fun n => forEntries size step body n s) ↔ ¬Stuck size step R := by
  refine ⟨fun h hstuck => not_halts_of_stuck hbody hstuck h, fun h => ?_⟩
  by_cases hstep : step = 0
  · -- there is no first entry, or it cannot be read
    refine (halts_iterate_step (grows_forEntry hbody)).2 ⟨halts_forEntry hbody _, ?_⟩
    rintro r hr
    obtain ⟨hlt, -, hread⟩ := (yields_forEntry_inl hbody).1 hr
    have hsize : size ≠ 0 := (BitVec.pos_iff_ne_zero size).1 hlt
    exact absurd ⟨hstep, hsize, (hbody.yields 0 s).1 ⟨r.2, hread⟩⟩ h
  · obtain ⟨k, hpos, hk⟩ := exists_entryOffset hstep
    refine halts_iterate (grows_forEntry hbody) (P := fun j r => r.1 = entryOffset step j ∧
      (0 < j → (img.byte offset).isSome)) (k := k) ?_ ?_ (Nat.zero_le k)
      ⟨entryOffset_zero.symm, nofun⟩
    · rintro j ⟨i, s⟩ ⟨hi, hfirst⟩
      obtain rfl : i = entryOffset step j := hi
      refine ⟨halts_forEntry hbody _, fun r hr => ?_⟩
      obtain ⟨-, hnext, hread⟩ := (yields_forEntry_inl hbody).1 hr
      refine ⟨?_, fun _ => ?_⟩
      · rw [hnext, entryOffset_succ, BitVec.add_comm]
      · cases j with
        | zero =>
          have hmap := hmapped _ ((hbody.yields _ s).1 ⟨r.2, hread⟩)
          rw [entryOffset_zero] at hmap
          rwa [show offset + 0 = offset from BitVec.add_zero offset] at hmap
        | succ j => exact hfirst (Nat.succ_pos j)
    · rintro ⟨i, s⟩ r ⟨hi, hfirst⟩ hr
      obtain rfl : i = entryOffset step k := hi
      obtain ⟨-, -, hread⟩ := (yields_forEntry_inl hbody).1 hr
      have hmap := hmapped _ ((hbody.yields _ s).1 ⟨r.2, hread⟩)
      rw [hk] at hmap
      exact Image.unmapped_half (hfirst hpos) hmap

end Arancini.Elf
