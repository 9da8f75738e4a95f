import Arancini.Lib.Field

/-!
# Lanes of a bit vector

A vector of lanes of one width is a bit vector, and lane `i` is its bits from `w * i` on. A lane
can be replaced (`setLane`), and the lanes one after the other by a function (`mapLanes`). A sum
of two vectors is the sum in a lane when nothing is carried into the lane (`lane_add`). A vector
whose lanes have their top bits cleared carries nothing out of a lane, and the top bit of a sum
is put in afterwards with an exclusive or (`add_eq_xor_top`).
-/

namespace Arancini

variable {w m n : ℕ}

/-- Lane `i` of a vector of lanes of width `w`. -/
def lane (w i : ℕ) (v : BitVec n) : BitVec w :=
  v.extractLsb' (w * i) w

/-- The lowest lane. -/
theorem lane_zero (w : ℕ) (v : BitVec n) : lane w 0 v = v.setWidth w := by
  ext k hk
  simp [lane]

theorem lane_append_low {i : ℕ} (h : w * i + w ≤ n) (hi : BitVec m) (lo : BitVec n) :
    lane w i (hi ++ lo) = lane w i lo :=
  BitVec.extractLsb'_append_eq_of_add_le h

theorem lane_append_high {k i : ℕ} (h : n = w * k) (hi : BitVec m) (lo : BitVec n) :
    lane w (k + i) (hi ++ lo) = lane w i hi := by
  subst h
  rw [lane, BitVec.extractLsb'_append_eq_of_le (by rw [mul_add]; exact Nat.le_add_right _ _),
    mul_add, Nat.add_sub_cancel_left]
  rfl

theorem lane_and (i : ℕ) (x y : BitVec n) : lane w i (x &&& y) = lane w i x &&& lane w i y :=
  BitVec.extractLsb'_and

theorem lane_xor (i : ℕ) (x y : BitVec n) : lane w i (x ^^^ y) = lane w i x ^^^ lane w i y :=
  BitVec.extractLsb'_xor

theorem and_xor_distrib (x y z : BitVec n) : x &&& (y ^^^ z) = (x &&& y) ^^^ (x &&& z) := by
  ext k hk
  simp only [BitVec.getElem_and, BitVec.getElem_xor, Bool.and_xor_distrib_left]

/-- A sum of two vectors is the sum in a lane into which nothing is carried. -/
theorem lane_add {i : ℕ} (hn : w * i + w ≤ n) {x y : BitVec n}
    (h : x.toNat % 2 ^ (w * i) + y.toNat % 2 ^ (w * i) < 2 ^ (w * i)) :
    lane w i (x + y) = lane w i x + lane w i y := by
  have hpow : 2 ^ n = 2 ^ (w * i) * 2 ^ (n - w * i) := by
    rw [← pow_add]
    congr 1
    omega
  refine BitVec.eq_of_toNat_eq ?_
  simp only [lane, BitVec.extractLsb'_toNat, BitVec.toNat_add, Nat.shiftRight_eq_div_pow]
  rw [hpow, Nat.mod_mul_right_div_self,
    Nat.mod_mod_of_dvd _ (Nat.pow_dvd_pow 2 (show w ≤ n - w * i by omega)),
    Nat.add_div (by positivity), if_neg (by omega), Nat.add_zero, ← Nat.add_mod]

/-- Nothing is carried into a lane when a mask keeps the bits below it small. -/
theorem lane_add_of_masked {i : ℕ} (hn : w * i + w ≤ n) {mask : BitVec n}
    (hmask : 2 * (mask.toNat % 2 ^ (w * i)) < 2 ^ (w * i)) (x y : BitVec n) :
    lane w i ((x &&& mask) + (y &&& mask)) =
      (lane w i x &&& lane w i mask) + (lane w i y &&& lane w i mask) := by
  have hle : ∀ z : BitVec n, (z &&& mask).toNat % 2 ^ (w * i) ≤ mask.toNat % 2 ^ (w * i) := by
    intro z
    rw [BitVec.toNat_and, Nat.and_mod_two_pow]
    exact Nat.and_le_right
  have hx := hle x
  have hy := hle y
  rw [lane_add hn (by omega), lane_and, lane_and]

/-! ## Replacing lanes -/

/-- The vector with another lane `i`. -/
def setLane (i : ℕ) (v : BitVec n) (x : BitVec w) : BitVec n :=
  insertField v (w * i) w x

theorem lane_setLane {i j : ℕ} (hi : w * i + w ≤ n) (hj : w * j + w ≤ n) (v : BitVec n)
    (x : BitVec w) : lane w j (setLane i v x) = if j = i then x else lane w j v := by
  refine BitVec.eq_of_getLsbD_eq fun k hk => ?_
  rw [lane, BitVec.getLsbD_extractLsb', decide_eq_true hk, Bool.true_and, setLane,
    getLsbD_insertField (by omega)]
  by_cases hij : j = i
  · subst hij
    rw [if_pos (by omega), if_pos rfl, Nat.add_sub_cancel_left]
  · have hout : ¬(w * i ≤ w * j + k ∧ w * j + k < w * i + w) := by
      rcases Nat.lt_or_gt_of_ne hij with hlt | hgt
      · have hle := Nat.mul_le_mul_left w hlt
        rw [Nat.mul_succ] at hle
        omega
      · have hle := Nat.mul_le_mul_left w hgt
        rw [Nat.mul_succ] at hle
        omega
    rw [if_neg hout, if_neg hij, lane, BitVec.getLsbD_extractLsb', decide_eq_true hk, Bool.true_and]

/-- A vector of one lane. -/
theorem setLane_zero (v x : BitVec w) : setLane 0 v x = x := by
  rw [setLane, Nat.mul_zero, insertField_all]

/-- The function applied to the first `k` lanes, one after the other. -/
def mapLanes (f : BitVec w → BitVec w) : ℕ → BitVec n → BitVec n
  | 0, v => v
  | k + 1, v => setLane k (mapLanes f k v) (f (lane w k (mapLanes f k v)))

/-- A lane is replaced once. -/
theorem lane_mapLanes {f : BitVec w → BitVec w} {j : ℕ} (hj : w * j + w ≤ n) (v : BitVec n) :
    ∀ {k : ℕ}, w * k ≤ n → lane w j (mapLanes f k v) = if j < k then f (lane w j v) else lane w j v
  | 0, _ => (if_neg (Nat.not_lt_zero j)).symm
  | k + 1, hk => by
    rw [Nat.mul_succ] at hk
    rw [mapLanes, lane_setLane hk hj, lane_mapLanes hk v (by omega), lane_mapLanes hj v (by omega)]
    by_cases hjk : j = k
    · subst hjk
      rw [if_pos rfl, if_neg (lt_irrefl j), if_pos (Nat.lt_succ_self j)]
    · rw [if_neg hjk]
      by_cases hlt : j < k
      · rw [if_pos hlt, if_pos (by omega)]
      · rw [if_neg hlt, if_neg (by omega)]

/-- The function applied to the first `k` lanes of two vectors. The other lanes are of the first. -/
def zipLanes (f : BitVec w → BitVec w → BitVec w) : ℕ → BitVec n → BitVec n → BitVec n
  | 0, u, _ => u
  | k + 1, u, v => setLane k (zipLanes f k u v) (f (lane w k u) (lane w k v))

theorem lane_zipLanes {f : BitVec w → BitVec w → BitVec w} {j : ℕ} (hj : w * j + w ≤ n)
    (u v : BitVec n) : ∀ {k : ℕ}, w * k ≤ n → lane w j (zipLanes f k u v) =
      if j < k then f (lane w j u) (lane w j v) else lane w j u
  | 0, _ => (if_neg (Nat.not_lt_zero j)).symm
  | k + 1, hk => by
    rw [Nat.mul_succ] at hk
    rw [zipLanes, lane_setLane hk hj, lane_zipLanes hj u v (by omega)]
    by_cases hjk : j = k
    · subst hjk
      rw [if_pos rfl, if_pos (Nat.lt_succ_self j)]
    · rw [if_neg hjk]
      by_cases hlt : j < k
      · rw [if_pos hlt, if_pos (by omega)]
      · rw [if_neg hlt, if_neg (by omega)]

/-- The first `k` values of `f`, in the lanes from `off` on. -/
def setLanes (off : ℕ) (f : ℕ → BitVec w) : ℕ → BitVec n → BitVec n
  | 0, v => v
  | k + 1, v => setLane (off + k) (setLanes off f k v) (f k)

theorem lane_setLanes {off : ℕ} {f : ℕ → BitVec w} {j : ℕ} (hj : w * j + w ≤ n) (v : BitVec n) :
    ∀ {k : ℕ}, w * (off + k) ≤ n →
      lane w j (setLanes off f k v) = if off ≤ j ∧ j < off + k then f (j - off) else lane w j v
  | 0, _ => (if_neg (by omega)).symm
  | k + 1, hk => by
    rw [← Nat.add_assoc, Nat.mul_succ] at hk
    rw [setLanes, lane_setLane hk hj, lane_setLanes hj v (by omega)]
    by_cases hjk : j = off + k
    · rw [if_pos hjk, if_pos (by omega), hjk, Nat.add_sub_cancel_left]
    · rw [if_neg hjk]
      by_cases hin : off ≤ j ∧ j < off + k
      · rw [if_pos hin, if_pos (by omega)]
      · rw [if_neg hin, if_neg (by omega)]

/-- A vector is determined by its lanes. -/
theorem eq_of_lane_eq {k : ℕ} (hn : n = w * k) {x y : BitVec n}
    (h : ∀ i < k, lane w i x = lane w i y) : x = y := by
  subst hn
  refine BitVec.eq_of_getLsbD_eq fun b hb => ?_
  have hw : 0 < w := Nat.pos_of_ne_zero fun h0 => by simp [h0] at hb
  have hbit := congrArg (BitVec.getLsbD · (b % w)) (h (b / w) (Nat.div_lt_of_lt_mul hb))
  simpa only [lane, BitVec.getLsbD_extractLsb', Nat.mod_lt b hw, decide_true, Bool.true_and,
    Nat.div_add_mod] using hbit

/-! ## The top bit -/

section TopBit

variable (x y : BitVec w)

/-- The number of which the top bit alone is set. -/
def topBit (w : ℕ) : BitVec w :=
  BitVec.twoPow w (w - 1)

theorem topBit_add_topBit (hw : 0 < w) : topBit w + topBit w = 0#w := by
  refine BitVec.eq_of_toNat_eq ?_
  have hpow : 2 ^ w = 2 ^ (w - 1) + 2 ^ (w - 1) := by
    rw [← two_mul, ← pow_succ', Nat.sub_add_cancel hw]
  rw [topBit, BitVec.toNat_add, BitVec.toNat_twoPow_of_lt (by omega), ← hpow]
  simp

/-- What is below the top bit, and the top bit. -/
theorem and_not_topBit_add : (x &&& ~~~topBit w) + (x &&& topBit w) = x := by
  rw [BitVec.add_eq_or_of_and_eq_zero]
  · ext k hk
    simp only [BitVec.getElem_or, BitVec.getElem_and, BitVec.getElem_not]
    cases x[k] <;> cases (topBit w)[k] <;> rfl
  · ext k hk
    simp only [BitVec.getElem_and, BitVec.getElem_not, BitVec.getElem_zero]
    cases x[k] <;> cases (topBit w)[k] <;> rfl

theorem add_topBit_eq_xor (hw : 0 < w) : x + topBit w = x ^^^ topBit w := by
  cases hbit : x.getLsbD (w - 1) with
  | false =>
    have hzero : x &&& topBit w = 0#w := by
      rw [topBit, BitVec.and_twoPow, hbit]
      rfl
    rw [BitVec.add_eq_or_of_and_eq_zero _ _ hzero]
    ext k hk
    have hbits : (x[k] && (topBit w)[k]) = false := by
      rw [← BitVec.getElem_and, hzero, BitVec.getElem_zero]
    rw [BitVec.getElem_or, BitVec.getElem_xor]
    revert hbits
    cases x[k] <;> cases (topBit w)[k] <;> decide
  | true =>
    have htop : x &&& topBit w = topBit w := by
      rw [topBit, BitVec.and_twoPow, hbit]
      rfl
    have hlow : x ^^^ topBit w = x &&& ~~~topBit w := by
      ext k hk
      have hbits : (x[k] && (topBit w)[k]) = (topBit w)[k] := by
        rw [← BitVec.getElem_and, htop]
      rw [BitVec.getElem_xor, BitVec.getElem_and, BitVec.getElem_not]
      revert hbits
      cases x[k] <;> cases (topBit w)[k] <;> decide
    calc x + topBit w
        = (x &&& ~~~topBit w) + (x &&& topBit w) + topBit w := by rw [and_not_topBit_add]
      _ = x &&& ~~~topBit w := by
          rw [htop, BitVec.add_assoc, topBit_add_topBit hw, BitVec.add_zero]
      _ = x ^^^ topBit w := hlow.symm

/-- Adding a top bit, if it is set. -/
theorem add_and_topBit (hw : 0 < w) : x + (y &&& topBit w) = (y &&& topBit w) ^^^ x := by
  rw [BitVec.xor_comm, topBit, BitVec.and_twoPow]
  split
  · exact add_topBit_eq_xor x hw
  · rw [BitVec.add_zero, BitVec.xor_zero]

/-- The top bits of two numbers add up to the top bit of their exclusive or. -/
theorem and_topBit_add (hw : 0 < w) :
    (x &&& topBit w) + (y &&& topBit w) = (x ^^^ y) &&& topBit w := by
  simp only [topBit, BitVec.and_twoPow, BitVec.getLsbD_xor]
  cases x.getLsbD (w - 1) <;> cases y.getLsbD (w - 1)
  · exact BitVec.add_zero _
  · exact BitVec.zero_add _
  · exact BitVec.add_zero _
  · exact topBit_add_topBit hw

/-- The sum of two numbers from the sum of what is below the top bits. -/
theorem add_eq_xor_topBit (hw : 0 < w) :
    x + y = ((x ^^^ y) &&& topBit w) ^^^ ((x &&& ~~~topBit w) + (y &&& ~~~topBit w)) := by
  have hsum : x + y =
      ((x &&& ~~~topBit w) + (y &&& ~~~topBit w)) + ((x ^^^ y) &&& topBit w) := by
    conv_lhs => rw [← and_not_topBit_add x, ← and_not_topBit_add y]
    rw [← and_topBit_add x y hw]
    ac_rfl
  rw [hsum]
  exact add_and_topBit _ _ hw

end TopBit

end Arancini
