import Mathlib.Data.List.Pairwise
import Arancini.Lib.Bits

/-!
# Words in pieces

An instruction format cuts a value into pieces and puts each at its own place of a word. `scatter`
moves the pieces, and with the pieces turned around it collects them again. Pieces that are put
to different places do not disturb each other (`scatter_scatter_of_apart`), and what is collected
is the value, as far as the pieces cover it (`toInt_collect`, `toNat_collect`).
-/

namespace Arancini

/-- The `len` bits from `lo` on go to the bits from `pos` on. -/
structure Piece where
  lo : ℕ
  len : ℕ
  pos : ℕ
  deriving DecidableEq

namespace Piece

/-- The way back. -/
def turn (p : Piece) : Piece :=
  ⟨p.pos, p.len, p.lo⟩

/-- A bit of the word is in the piece. -/
def Puts (p : Piece) (i : ℕ) : Prop :=
  p.pos ≤ i ∧ i < p.pos + p.len

instance (p : Piece) (i : ℕ) : Decidable (p.Puts i) :=
  inferInstanceAs (Decidable (_ ∧ _))

/-- What one piece takes is not where the other has been put. -/
def Apart (q p : Piece) : Prop :=
  q.lo + q.len ≤ p.pos ∨ p.pos + p.len ≤ q.lo

instance (q p : Piece) : Decidable (q.Apart p) :=
  inferInstanceAs (Decidable (_ ∨ _))

/-- Two pieces have different places. -/
def Clear (p q : Piece) : Prop :=
  p.pos + p.len ≤ q.pos ∨ q.pos + q.len ≤ p.pos

instance (p q : Piece) : Decidable (p.Clear q) :=
  inferInstanceAs (Decidable (_ ∨ _))

instance : Std.Symm Clear :=
  ⟨fun _ _ h => h.symm⟩

end Piece

variable {m n k : ℕ}

/-- The pieces of a value, each at its place of a word of `n` bits. -/
def scatter (n : ℕ) : List Piece → BitVec m → BitVec n
  | [], _ => 0
  | p :: ps, v => (v.extractLsb' p.lo p.len).setWidth n <<< p.pos ||| scatter n ps v

/-- The pieces are collected from a word. -/
abbrev collect (m : ℕ) (ps : List Piece) (w : BitVec n) : BitVec m :=
  scatter m (ps.map Piece.turn) w

theorem getLsbD_scatter (ps : List Piece) (v : BitVec m) {i : ℕ} (hi : i < n) :
    (scatter n ps v).getLsbD i = true ↔
      ∃ p ∈ ps, p.Puts i ∧ v.getLsbD (p.lo + (i - p.pos)) = true := by
  induction ps with
  | nil => simp [scatter]
  | cons p ps ih =>
    rw [scatter, BitVec.getLsbD_or, Bool.or_eq_true, ih]
    simp only [List.mem_cons, exists_eq_or_imp]
    refine or_congr ?_ Iff.rfl
    rw [BitVec.getLsbD_shiftLeft, BitVec.getLsbD_setWidth, BitVec.getLsbD_extractLsb']
    simp only [Piece.Puts, hi, decide_true, Bool.true_and, Bool.and_eq_true, Bool.not_eq_true',
      decide_eq_false_iff_not, decide_eq_true_eq, not_lt]
    constructor
    · rintro ⟨hpos, -, hlen, hbit⟩
      exact ⟨⟨hpos, by omega⟩, hbit⟩
    · rintro ⟨⟨hpos, hlen⟩, hbit⟩
      exact ⟨hpos, by omega, by omega, hbit⟩

theorem scatter_or (ps : List Piece) (v w : BitVec m) :
    scatter n ps (v ||| w) = scatter n ps v ||| scatter n ps w := by
  refine BitVec.eq_of_getLsbD_eq fun i hi => ?_
  rw [Bool.eq_iff_iff, BitVec.getLsbD_or, Bool.or_eq_true, getLsbD_scatter _ _ hi,
    getLsbD_scatter _ _ hi, getLsbD_scatter _ _ hi]
  simp only [BitVec.getLsbD_or, Bool.or_eq_true, and_or_left, exists_or]

/-- What is taken from where nothing has been put is zero. -/
theorem scatter_scatter_of_apart {qs ps : List Piece} (h : ∀ q ∈ qs, ∀ p ∈ ps, q.Apart p)
    (v : BitVec m) : scatter k qs (scatter n ps v) = 0#k := by
  refine BitVec.eq_of_getLsbD_eq fun i hi => ?_
  rw [BitVec.getLsbD_zero, ← Bool.not_eq_true, getLsbD_scatter _ _ hi]
  rintro ⟨q, hq, ⟨hpos, hlen⟩, hbit⟩
  have hlt := BitVec.lt_of_getLsbD hbit
  obtain ⟨p, hp, ⟨hpos', hlen'⟩, -⟩ := (getLsbD_scatter ps v hlt).mp hbit
  rcases h q hq p hp with h | h <;> omega

/-! ## Round trips -/

/-- The places of the pieces are disjoint and in a word of `n` bits. -/
def Placed (n : ℕ) (ps : List Piece) : Prop :=
  (∀ p ∈ ps, p.pos + p.len ≤ n) ∧
    ps.Pairwise Piece.Clear

instance (n : ℕ) (ps : List Piece) : Decidable (Placed n ps) :=
  inferInstanceAs (Decidable (_ ∧ _))

/-- A bit of the value that is in some piece. -/
def Covered (ps : List Piece) (i : ℕ) : Prop :=
  ∃ p ∈ ps, p.turn.Puts i

instance (ps : List Piece) (i : ℕ) : Decidable (Covered ps i) :=
  inferInstanceAs (Decidable (∃ p ∈ ps, _))

theorem getLsbD_collect {ps : List Piece} (h : Placed n ps) (v : BitVec m) {i : ℕ} (hi : i < k) :
    (collect k ps (scatter n ps v)).getLsbD i = true ↔ Covered ps i ∧ v.getLsbD i = true := by
  rw [getLsbD_scatter _ _ hi]
  constructor
  · rintro ⟨q, hq, ⟨hlo, hlen⟩, hbit⟩
    obtain ⟨p, hp, rfl⟩ := List.mem_map.mp hq
    have hlt := BitVec.lt_of_getLsbD hbit
    obtain ⟨p', hp', ⟨hpos, hlen'⟩, hbit'⟩ := (getLsbD_scatter ps v hlt).mp hbit
    simp only [Piece.turn] at hlo hlen hpos hlen' hbit'
    have heq : p' = p := by
      by_contra hne
      rcases h.2.forall hp' hp hne with h | h <;> omega
    subst heq
    rw [show p'.lo + (p'.pos + (i - p'.lo) - p'.pos) = i by omega] at hbit'
    exact ⟨⟨p', hp, hlo, hlen⟩, hbit'⟩
  · rintro ⟨⟨p, hp, hin⟩, hbit⟩
    refine ⟨p.turn, List.mem_map_of_mem hp, hin, ?_⟩
    obtain ⟨hlo, hlen⟩ := hin
    simp only [Piece.turn] at hlo hlen ⊢
    have hn := h.1 p hp
    refine (getLsbD_scatter ps v (by omega)).mpr ⟨p, hp, ⟨by omega, by omega⟩, ?_⟩
    rwa [show p.lo + (p.pos + (i - p.lo) - p.pos) = i by omega]

theorem setWidth_scatter (h : k ≤ n) (ps : List Piece) (v : BitVec m) :
    (scatter n ps v).setWidth k = scatter k ps v := by
  refine BitVec.eq_of_getLsbD_eq fun i hi => ?_
  rw [BitVec.getLsbD_setWidth, decide_eq_true hi, Bool.true_and, Bool.eq_iff_iff,
    getLsbD_scatter _ _ (by omega), getLsbD_scatter _ _ hi]

/-- Pieces that cover all bits that are set. -/
theorem collect_scatter {ps : List Piece} (h : Placed n ps) {v : BitVec m}
    (hcov : ∀ i < k, v.getLsbD i = true → Covered ps i) :
    collect k ps (scatter n ps v) = v.setWidth k := by
  refine BitVec.eq_of_getLsbD_eq fun i hi => ?_
  rw [Bool.eq_iff_iff, getLsbD_collect h v hi, BitVec.getLsbD_setWidth, decide_eq_true hi,
    Bool.true_and]
  exact and_iff_right_of_imp (hcov i hi)

/-! ## Single fields -/

/-- A field at `pos`. -/
def put (n pos : ℕ) (x : BitVec k) : BitVec n :=
  x.setWidth n <<< pos

/-- The field of `len` bits at `pos`. -/
def part (pos len : ℕ) (w : BitVec n) : BitVec len :=
  (w >>> pos).setWidth len

section Fields

variable {pos len pos' : ℕ} {ps : List Piece} {x : BitVec k}

theorem put_eq_scatter (n pos : ℕ) (x : BitVec k) : put n pos x = scatter n [⟨0, k, pos⟩] x := by
  refine BitVec.eq_of_getLsbD_eq fun i hi => ?_
  rw [put, BitVec.getLsbD_shiftLeft, BitVec.getLsbD_setWidth, Bool.eq_iff_iff,
    getLsbD_scatter _ _ hi]
  simp only [List.mem_singleton, exists_eq_left, Piece.Puts, Nat.zero_add, Bool.and_eq_true,
    Bool.not_eq_true', decide_eq_true_eq, decide_eq_false_iff_not, not_lt]
  constructor
  · rintro ⟨⟨-, hpos⟩, -, hbit⟩
    exact ⟨⟨hpos, by have := BitVec.lt_of_getLsbD hbit; omega⟩, hbit⟩
  · rintro ⟨⟨hpos, -⟩, hbit⟩
    exact ⟨⟨hi, hpos⟩, by omega, hbit⟩

theorem toNat_part (pos len : ℕ) (w : BitVec n) :
    (part pos len w).toNat = w.toNat / 2 ^ pos % 2 ^ len := by
  rw [part, BitVec.toNat_setWidth, BitVec.toNat_ushiftRight, Nat.shiftRight_eq_div_pow]

theorem part_eq_scatter (pos len : ℕ) (w : BitVec n) :
    part pos len w = scatter len [⟨pos, len, 0⟩] w := by
  refine BitVec.eq_of_getLsbD_eq fun i hi => ?_
  rw [part, BitVec.getLsbD_setWidth, BitVec.getLsbD_ushiftRight, Bool.eq_iff_iff,
    getLsbD_scatter _ _ hi]
  simp [Piece.Puts, hi]

@[simp] theorem part_or (pos len : ℕ) (v w : BitVec n) :
    part pos len (v ||| w) = part pos len v ||| part pos len w := by
  rw [part_eq_scatter, part_eq_scatter, part_eq_scatter, scatter_or]

@[simp] theorem part_ofNat (pos len x : ℕ) :
    part pos len (BitVec.ofNat n x) = BitVec.ofNat len (x % 2 ^ n / 2 ^ pos) := by
  refine BitVec.eq_of_toNat_eq ?_
  rw [toNat_part, BitVec.toNat_ofNat, BitVec.toNat_ofNat]

/-- A field of the low bits. -/
theorem part_part (h : pos + len ≤ k) (w : BitVec n) :
    part pos len (part 0 k w) = part pos len w := by
  refine BitVec.eq_of_getLsbD_eq fun i hi => ?_
  simp only [part, BitVec.getLsbD_setWidth, BitVec.getLsbD_ushiftRight, Nat.zero_add]
  rw [decide_eq_true (show pos + i < k by omega), Bool.true_and]

/-- The field itself. -/
@[simp] theorem part_put (h : pos + k ≤ n) (x : BitVec k) : part pos k (put n pos x) = x := by
  have hround : collect k [⟨0, k, pos⟩] (scatter n [⟨0, k, pos⟩] x) = _ :=
    collect_scatter ⟨by simpa using h, List.pairwise_singleton _ _⟩ fun i hi _ =>
      ⟨_, List.mem_singleton_self _, Nat.zero_le _, by simpa [Piece.turn] using hi⟩
  rw [part_eq_scatter, put_eq_scatter]
  simpa only [collect, List.map_cons, List.map_nil, Piece.turn, BitVec.setWidth_eq] using hround

/-- A part of a field. -/
theorem part_put_of_le (h : pos' ≤ pos) (hn : pos + len ≤ n) (x : BitVec k) :
    part pos len (put n pos' x) = part (pos - pos') len x := by
  refine BitVec.eq_of_getLsbD_eq fun i hi => ?_
  simp only [part, put, BitVec.getLsbD_setWidth, BitVec.getLsbD_ushiftRight,
    BitVec.getLsbD_shiftLeft, hi, decide_true, Bool.true_and]
  rw [decide_eq_true (show pos + i < n by omega), decide_eq_false (show ¬pos + i < pos' by omega),
    show pos + i - pos' = pos - pos' + i by omega]
  simp [show pos - pos' + i < n by omega]

/-- A field somewhere else. -/
@[simp] theorem part_put_of_clear (h : pos + len ≤ pos' ∨ pos' + k ≤ pos) (x : BitVec k) :
    part pos len (put n pos' x) = 0#(len) := by
  rw [part_eq_scatter, put_eq_scatter]
  exact scatter_scatter_of_apart (by simpa [Piece.Apart] using h) x

theorem part_scatter_of_clear (h : ∀ p ∈ ps, pos + len ≤ p.pos ∨ p.pos + p.len ≤ pos)
    (v : BitVec m) : part pos len (scatter n ps v) = 0#(len) := by
  rw [part_eq_scatter]
  exact scatter_scatter_of_apart (by simpa [Piece.Apart] using h) v

theorem collect_put_of_clear (h : ∀ p ∈ ps, p.pos + p.len ≤ pos ∨ pos + k ≤ p.pos)
    (x : BitVec k) : collect len ps (put n pos x) = 0#(len) := by
  rw [put_eq_scatter]
  exact scatter_scatter_of_apart (by simpa [Piece.Apart, Piece.turn] using h) x

/-- A field that is not among the pieces. -/
theorem collect_or_put {w : BitVec n} (h : ∀ p ∈ ps, p.pos + p.len ≤ pos ∨ pos + k ≤ p.pos)
    (x : BitVec k) : collect len ps (w ||| put n pos x) = collect len ps w := by
  have hzero : collect len ps (put n pos x) = 0#(len) := collect_put_of_clear h x
  rw [collect] at hzero ⊢
  rw [scatter_or, hzero, BitVec.or_zero, collect]

end Fields

/-! ## Integers in pieces -/

section Integers

variable {ps : List Piece} {a i j : ℕ} {x : ℤ}

theorem getLsbD_ofInt_of_dvd (hx : 2 ^ a ∣ x) (hi : i < a) :
    (BitVec.ofInt m x).getLsbD i = false := by
  obtain ⟨c, rfl⟩ := hx
  have hpow : BitVec.ofInt m (2 ^ a) = BitVec.twoPow m a := by
    refine BitVec.eq_of_toNat_eq ?_
    rw [BitVec.toNat_ofInt, BitVec.toNat_twoPow]
    norm_cast
  rw [BitVec.ofInt_mul, BitVec.mul_comm, hpow, ← BitVec.shiftLeft_eq_mul_twoPow,
    BitVec.getLsbD_shiftLeft]
  simp [hi]

theorem getLsbD_ofInt_of_lt (hx : 0 ≤ x) (hlt : x < 2 ^ j) (hi : j ≤ i) :
    (BitVec.ofInt m x).getLsbD i = false := by
  obtain ⟨x, rfl⟩ := Int.eq_ofNat_of_zero_le hx
  have hx : x < 2 ^ i := lt_of_lt_of_le (by exact_mod_cast hlt) (Nat.pow_le_pow_right two_pos hi)
  rw [BitVec.ofInt_natCast, BitVec.getLsbD_ofNat, Nat.testBit_lt_two_pow hx, Bool.and_false]

/-- A signed number that the pieces hold is read back. -/
theorem toInt_collect (h : Placed n ps) (hcov : ∀ i < k, a ≤ i → Covered ps i) (hkm : k ≤ m)
    (hk : 0 < k) (hx : 2 ^ a ∣ x) (hlow : -2 ^ (k - 1) ≤ x) (hhigh : x < 2 ^ (k - 1)) :
    (collect k ps (scatter n ps (BitVec.ofInt m x))).toInt = x := by
  have hset : ∀ i < k, (BitVec.ofInt m x).getLsbD i = true → Covered ps i := by
    intro i hi hbit
    refine hcov i hi (le_of_not_gt fun hlt => ?_)
    rw [getLsbD_ofInt_of_dvd hx hlt] at hbit
    cases hbit
  rw [collect_scatter h hset, setWidth_ofInt hkm, BitVec.toInt_ofInt]
  have hpow := two_pow_eq hk
  refine Int.bmod_eq_of_le_mul_two ?_ ?_ <;> push_cast <;> omega

/-- A number without sign that the pieces hold is read back. -/
theorem toNat_collect (h : Placed n ps) (hcov : ∀ i < j, a ≤ i → Covered ps i) (hjk : j ≤ k)
    (hkm : k ≤ m) (hx : 2 ^ a ∣ x) (hlow : 0 ≤ x) (hhigh : x < 2 ^ j) :
    ((collect k ps (scatter n ps (BitVec.ofInt m x))).toNat : ℤ) = x := by
  have hset : ∀ i < k, (BitVec.ofInt m x).getLsbD i = true → Covered ps i := by
    intro i hi hbit
    rcases lt_or_ge i j with hj | hj
    · refine hcov i hj (le_of_not_gt fun hlt => ?_)
      rw [getLsbD_ofInt_of_dvd hx hlt] at hbit
      cases hbit
    · rw [getLsbD_ofInt_of_lt hlow hhigh hj] at hbit
      cases hbit
  have hk : x < 2 ^ k := hhigh.trans_le (pow_le_pow_right₀ one_le_two hjk)
  rw [collect_scatter h hset, setWidth_ofInt hkm, BitVec.toNat_ofInt]
  push_cast
  rw [Int.emod_eq_of_lt hlow hk, Int.toNat_of_nonneg hlow]

end Integers

end Arancini
