import Mathlib.Tactic.Ring
import Arancini.Ir.Delay

/-!
# Memory

What a load finds after a store, byte by byte. An address wraps around at the top of memory.
-/

namespace Arancini.Ir.Guest

variable {mem : ℕ → ℕ} {a b v len : ℕ}

/-! ## Stores -/

theorem store_of_ne {x : ℕ} : ∀ {len a v : ℕ} {mem : ℕ → ℕ}, (∀ i < len, (a + i) % 2 ^ 64 ≠ x) →
    store mem a v len x = mem x
  | 0, _, _, _, _ => rfl
  | len + 1, a, v, mem, h => by
    have h0 : a % 2 ^ 64 ≠ x := h 0 len.succ_pos
    rw [store, store_of_ne fun i hi => ?_, Function.update_of_ne h0.symm]
    rw [Nat.add_right_comm]
    exact h (i + 1) (Nat.succ_lt_succ hi)

/-- Addresses that are not too far apart are different. -/
theorem address_ne {i j : ℕ} (hi : i < 2 ^ 64) (hj : j < 2 ^ 64) (hne : i ≠ j) :
    (a + i) % 2 ^ 64 ≠ (a + j) % 2 ^ 64 := by
  omega

theorem store_at : ∀ {len a v : ℕ} {mem : ℕ → ℕ} {i : ℕ}, i < len → len ≤ 2 ^ 64 →
    store mem a v len ((a + i) % 2 ^ 64) = v / 256 ^ i % 256
  | len + 1, a, v, mem, 0, _, hlen => by
    rw [store, store_of_ne fun j hj => ?_, Nat.add_zero, Function.update_self, pow_zero,
      Nat.div_one]
    rw [Nat.add_assoc, Nat.add_comm 1 j]
    exact address_ne (by omega) (by omega) (by omega)
  | len + 1, a, v, mem, i + 1, hi, hlen => by
    rw [store, ← Nat.add_assoc, Nat.add_right_comm,
      store_at (Nat.lt_of_succ_lt_succ hi) (Nat.le_of_succ_le hlen), Nat.div_div_eq_div_mul,
      pow_succ']

/-- The bytes that a store has written, and those it has not. -/
theorem store_eq_iff {len' v' : ℕ} (hle : len ≤ len') (hlen : len' ≤ 2 ^ 64)
    (hv : ∀ i < len, v / 256 ^ i % 256 = v' / 256 ^ i % 256) :
    store mem a v len = store mem a v' len' ↔
      ∀ i, len ≤ i → i < len' → mem ((a + i) % 2 ^ 64) = v' / 256 ^ i % 256 := by
  have hkept : ∀ i, len ≤ i → i < len' →
      store mem a v len ((a + i) % 2 ^ 64) = mem ((a + i) % 2 ^ 64) := by
    intro i hi hi'
    refine store_of_ne fun j hj => ?_
    exact address_ne (by omega) (by omega) (by omega)
  constructor
  · intro h i hi hi'
    rw [← hkept i hi hi', h, store_at hi' hlen]
  · intro h
    funext x
    by_cases hx : ∃ i < len', (a + i) % 2 ^ 64 = x
    · obtain ⟨i, hi', rfl⟩ := hx
      rw [store_at hi' hlen]
      rcases Nat.lt_or_ge i len with hi | hi
      · rw [store_at hi (hle.trans hlen), hv i hi]
      · rw [hkept i hi hi', h i hi hi']
    · have hne : ∀ i < len', (a + i) % 2 ^ 64 ≠ x := fun i hi heq => hx ⟨i, hi, heq⟩
      rw [store_of_ne hne, store_of_ne fun i hi => hne i (hi.trans_le hle)]

/-- A store takes the low bytes. -/
theorem store_mod (hlen : len ≤ 2 ^ 64) : store mem a (v % 256 ^ len) len = store mem a v len := by
  refine (store_eq_iff le_rfl hlen fun i hi => ?_).2 fun i hi hi' => absurd hi hi'.not_ge
  obtain ⟨k, rfl⟩ := Nat.exists_eq_add_of_lt hi
  rw [Nat.add_assoc, pow_add, Nat.mod_mul_right_div_self, pow_succ', Nat.mod_mul_right_mod]

/-- An address counts up to multiples of the size of memory. -/
theorem store_congr : ∀ {len a b v : ℕ} {mem : ℕ → ℕ}, a % 2 ^ 64 = b % 2 ^ 64 →
    store mem a v len = store mem b v len
  | 0, _, _, _, _, _ => rfl
  | len + 1, a, b, v, mem, h => by
    rw [store, store, h, store_congr (by omega : (a + 1) % 2 ^ 64 = (b + 1) % 2 ^ 64)]

theorem load_congr : ∀ {len a b : ℕ} {mem : ℕ → ℕ}, a % 2 ^ 64 = b % 2 ^ 64 →
    load mem a len = load mem b len
  | 0, _, _, _, _ => rfl
  | len + 1, a, b, mem, h => by
    rw [load, load, h, load_congr (by omega : (a + 1) % 2 ^ 64 = (b + 1) % 2 ^ 64)]

/-! ## Loads -/

theorem load_add (mem : ℕ → ℕ) : ∀ (a m n : ℕ),
    load mem a (m + n) = load mem a m + 256 ^ m * load mem (a + m) n
  | a, 0, n => by simp [load]
  | a, m + 1, n => by
    rw [Nat.add_right_comm, load, load_add mem (a + 1) m n, load, pow_succ', Nat.add_assoc a 1 m,
      Nat.add_comm 1 m]
    ring

theorem load_store_self : ∀ {len a v : ℕ} {mem : ℕ → ℕ}, len ≤ 2 ^ 64 →
    load (store mem a v len) a len = v % 256 ^ len
  | 0, _, _, _, _ => (Nat.mod_one _).symm
  | len + 1, a, v, mem, hlen => by
    have hhead : store mem a v (len + 1) (a % 2 ^ 64) = v % 256 := by
      have hat : store mem a v (len + 1) ((a + 0) % 2 ^ 64) = v / 256 ^ 0 % 256 :=
        store_at len.succ_pos hlen
      rwa [Nat.add_zero, pow_zero, Nat.div_one] at hat
    rw [load, hhead, store, load_store_self (Nat.le_of_succ_le hlen), pow_succ', Nat.mod_mul]

/-- The low bytes are those of a shorter load. -/
theorem load_mod_of_le {m n : ℕ} (h : m ≤ n) (mem : ℕ → ℕ) (a : ℕ) :
    load mem a n % 256 ^ m = load mem a m % 256 ^ m := by
  obtain ⟨k, rfl⟩ := Nat.exists_eq_add_of_le h
  rw [load_add, Nat.add_mul_mod_self_left]

/-- What is loaded is part of it what was stored and part of it what was there. -/
theorem load_store_add {m n : ℕ} (hlen : m + n ≤ 2 ^ 64) :
    load (store mem a v m) a (m + n) = v % 256 ^ m + 256 ^ m * load mem (a + m) n := by
  rw [load_add, load_store_self (by omega), load_store a fun i hi j hj => ?_]
  rw [Nat.add_assoc]
  exact address_ne (by omega) (by omega) (by omega)

/-! ## Bytes -/

section Bytes

variable (hbyte : ∀ x, mem x < 256)
include hbyte

theorem store_lt : ∀ (len a v x : ℕ), store mem a v len x < 256 := by
  intro len
  induction len generalizing mem with
  | zero => exact fun _ _ x => hbyte x
  | succ len ih =>
    intro a v x
    refine ih (fun y => ?_) (a + 1) (v / 256) x
    rw [Function.update_apply]
    split_ifs
    · exact Nat.mod_lt v (by decide)
    · exact hbyte y

theorem load_lt (a : ℕ) : ∀ len, load mem a len < 256 ^ len
  | 0 => Nat.one_pos
  | len + 1 => by
    have hlast : load mem (a + len) 1 < 256 := hbyte _
    rw [load_add, pow_succ]
    calc load mem a len + 256 ^ len * load mem (a + len) 1
        < 256 ^ len + 256 ^ len * load mem (a + len) 1 := Nat.add_lt_add_right (load_lt a len) _
      _ = 256 ^ len * (load mem (a + len) 1 + 1) := by ring
      _ ≤ 256 ^ len * 256 := Nat.mul_le_mul_left _ hlast

theorem store_load_self : ∀ len a, store mem a (load mem a len) len = mem
  | 0, _ => rfl
  | len + 1, a => by
    have hlow := hbyte (a % 2 ^ 64)
    have hmod : load mem a (len + 1) % 256 = mem (a % 2 ^ 64) := by
      rw [load]
      omega
    have hdiv : load mem a (len + 1) / 256 = load mem (a + 1) len := by
      rw [load]
      omega
    rw [store, hmod, hdiv, Function.update_eq_self, store_load_self len (a + 1)]

end Bytes

/-- A store in two parts. -/
theorem store_add : ∀ (m n a v : ℕ) (mem : ℕ → ℕ),
    store mem a v (m + n) = store (store mem a v m) (a + m) (v / 256 ^ m) n
  | 0, n, a, v, mem => by
    rw [Nat.zero_add, pow_zero, Nat.div_one]
    rfl
  | m + 1, n, a, v, mem => by
    rw [Nat.add_right_comm, store, store_add m n, store, Nat.div_div_eq_div_mul, ← pow_succ',
      Nat.add_assoc a 1 m, Nat.add_comm 1 m]

/-- The low bytes alone are stored as all are if the others are there. -/
theorem store_eq_store_iff (hbyte : ∀ x, mem x < 256) {m n : ℕ} (hlen : m + n ≤ 2 ^ 64)
    (hv : v < 256 ^ (m + n)) :
    store mem a v m = store mem a v (m + n) ↔ v / 256 ^ m = load mem a (m + n) / 256 ^ m := by
  have hpos : 0 < 256 ^ m := Nat.pow_pos (by decide)
  have hload : load mem a (m + n) / 256 ^ m = load mem (a + m) n := by
    rw [load_add, Nat.add_mul_div_left _ _ hpos, Nat.div_eq_of_lt (load_lt hbyte a m), zero_add]
  rw [hload]
  constructor
  · intro h
    have hstored := congrArg (fun mem => load mem a (m + n)) h
    simp only [load_store_add hlen, load_store_self hlen, Nat.mod_eq_of_lt hv] at hstored
    rw [← hstored, Nat.add_mul_div_left _ _ hpos, Nat.div_eq_of_lt (Nat.mod_lt _ hpos), zero_add]
  · intro h
    have hkept : load (store mem a v m) (a + m) n = load mem (a + m) n := by
      refine load_store a fun i hi j hj => ?_
      rw [Nat.add_assoc]
      exact address_ne (by omega) (by omega) (by omega)
    rw [store_add, h, ← hkept, store_load_self (store_lt hbyte m a v)]

/-- The same in bits. -/
theorem store_setWidth_eq_iff (hbyte : ∀ x, mem x < 256) {n w k m : ℕ} (hn : 8 * k = n)
    (hw : 8 * m = w) (hle : k ≤ m) (hlen : m ≤ 2 ^ 64) (x : BitVec w) :
    store mem a (x.setWidth n).toNat k = store mem a x.toNat m ↔
      x >>> n = BitVec.ofNat w (load mem a m) >>> n := by
  subst hn hw
  obtain ⟨r, rfl⟩ := Nat.exists_eq_add_of_le hle
  have hpow : ∀ l, 2 ^ (8 * l) = 256 ^ l := fun l => pow_mul 2 8 l
  have hx : x.toNat < 256 ^ (k + r) := (hpow _) ▸ x.isLt
  rw [BitVec.toNat_setWidth, hpow, store_mod (hle.trans hlen), store_eq_store_iff hbyte hlen hx,
    ← BitVec.toNat_inj, BitVec.toNat_ushiftRight, BitVec.toNat_ushiftRight,
    Nat.shiftRight_eq_div_pow, Nat.shiftRight_eq_div_pow, BitVec.toNat_ofNat, hpow, hpow,
    Nat.mod_eq_of_lt (load_lt hbyte a _)]

end Arancini.Ir.Guest
