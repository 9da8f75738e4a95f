import Arancini.Lib.Bits

/-!
# Bit fields

A field of a bit vector is the bits from a position on. `insertField` puts a value into a field,
and `extractLsb'` reads one. The laws say that they are inverse to each other, and that a field
leaves the others alone.
-/

namespace Arancini

variable {w m : ℕ}

/-- Ones in the field of `len` bits at `pos`. -/
def fieldMask (w pos len : ℕ) : BitVec w :=
  (BitVec.allOnes len).setWidth w <<< pos

/-- The vector `v` with the low `len` bits of `b` in the field at `pos`. -/
def insertField (v : BitVec w) (pos len : ℕ) (b : BitVec m) : BitVec w :=
  (v &&& ~~~fieldMask w pos len) ||| ((b.setWidth len).setWidth w <<< pos)

theorem getLsbD_fieldMask {pos len i : ℕ} (hi : i < w) :
    (fieldMask w pos len).getLsbD i = decide (pos ≤ i ∧ i < pos + len) := by
  simp only [fieldMask, BitVec.getLsbD_shiftLeft, BitVec.getLsbD_setWidth,
    BitVec.getLsbD_allOnes, hi, decide_true, Bool.true_and]
  by_cases hpos : i < pos
  · simp [hpos]
  · simp [hpos, show i - pos < w by omega, show pos ≤ i by omega,
      show i - pos < len ↔ i < pos + len by omega]

theorem getLsbD_insertField {v : BitVec w} {pos len : ℕ} {b : BitVec m} {i : ℕ} (hi : i < w) :
    (insertField v pos len b).getLsbD i =
      if pos ≤ i ∧ i < pos + len then b.getLsbD (i - pos) else v.getLsbD i := by
  simp only [insertField, BitVec.getLsbD_or, BitVec.getLsbD_and, BitVec.getLsbD_not,
    getLsbD_fieldMask hi, BitVec.getLsbD_shiftLeft, BitVec.getLsbD_setWidth, hi, decide_true,
    Bool.true_and]
  by_cases hpos : i < pos
  · simp [hpos, show ¬pos ≤ i by omega]
  · by_cases hlen : i < pos + len
    · simp [hpos, hlen, show pos ≤ i by omega, show i - pos < w by omega,
        show i - pos < len by omega]
    · simp [hpos, hlen, show ¬i - pos < len by omega]

/-- A field that has been inserted is read back. -/
theorem extract_insertField {pos len : ℕ} (h : pos + len ≤ w) (v : BitVec w) (b : BitVec m) :
    (insertField v pos len b).extractLsb' pos len = b.setWidth len := by
  refine BitVec.eq_of_getLsbD_eq fun i hi => ?_
  rw [BitVec.getLsbD_extractLsb', getLsbD_insertField (by omega), BitVec.getLsbD_setWidth]
  simp [hi]

/-- Inserting what is there changes nothing. -/
theorem insertField_extract (v : BitVec w) (pos len : ℕ) :
    insertField v pos len (v.extractLsb' pos len) = v := by
  refine BitVec.eq_of_getLsbD_eq fun i hi => ?_
  rw [getLsbD_insertField hi, BitVec.getLsbD_extractLsb']
  split
  · rename_i hin
    simp [show i - pos < len by omega, show pos + (i - pos) = i by omega]
  · rfl

theorem insertField_zero (v : BitVec w) (pos : ℕ) (b : BitVec m) : insertField v pos 0 b = v := by
  refine BitVec.eq_of_getLsbD_eq fun i hi => ?_
  rw [getLsbD_insertField hi, if_neg (by omega)]

/-- Zeros in zeros. -/
theorem insertField_zero_zero (pos len : ℕ) : insertField (0#w) pos len (0#m) = 0#w := by
  refine BitVec.eq_of_getLsbD_eq fun i hi => ?_
  rw [getLsbD_insertField hi, BitVec.getLsbD_zero, BitVec.getLsbD_zero, ite_self]

section Append

variable {k : ℕ} {hi : BitVec k} {lo : BitVec m} {pos len : ℕ} {n : ℕ} {b : BitVec n}

/-- A field of the lower part. -/
theorem insertField_append_low (h : pos + len ≤ m) :
    insertField (hi ++ lo) pos len b = hi ++ insertField lo pos len b := by
  refine BitVec.eq_of_getLsbD_eq fun i hik => ?_
  rw [getLsbD_insertField hik, BitVec.getLsbD_append, BitVec.getLsbD_append]
  by_cases hlow : i < m
  · rw [if_pos hlow, if_pos hlow, getLsbD_insertField hlow]
  · rw [if_neg hlow, if_neg hlow, if_neg (by omega)]

/-- A field of the upper part. -/
theorem insertField_append_high (h : m ≤ pos) :
    insertField (hi ++ lo) pos len b = insertField hi (pos - m) len b ++ lo := by
  refine BitVec.eq_of_getLsbD_eq fun i hik => ?_
  rw [getLsbD_insertField hik, BitVec.getLsbD_append, BitVec.getLsbD_append]
  by_cases hlow : i < m
  · rw [if_pos hlow, if_pos hlow, if_neg (by omega)]
  · rw [if_neg hlow, if_neg hlow, getLsbD_insertField (by omega)]
    by_cases hin : pos ≤ i ∧ i < pos + len
    · rw [if_pos hin, if_pos (by omega), show i - m - (pos - m) = i - pos by omega]
    · rw [if_neg hin, if_neg (by omega)]

theorem extract_append_low (h : pos + len ≤ m) :
    (hi ++ lo).extractLsb' pos len = lo.extractLsb' pos len :=
  BitVec.extractLsb'_append_eq_of_add_le h

theorem extract_append_high (h : m ≤ pos) :
    (hi ++ lo).extractLsb' pos len = hi.extractLsb' (pos - m) len :=
  BitVec.extractLsb'_append_eq_of_le h

end Append

/-- A field that is a whole vector is replaced. -/
theorem insertField_all (v : BitVec w) (b : BitVec w) : insertField v 0 w b = b := by
  refine BitVec.eq_of_getLsbD_eq fun i hi => ?_
  rw [getLsbD_insertField hi, if_pos (by omega), Nat.sub_zero]

/-- The low part of a vector with a field. -/
theorem setWidth_insertField {k : ℕ} (hk : k ≤ w) {v : BitVec w} {pos len : ℕ} {b : BitVec m} :
    (insertField v pos len b).setWidth k = insertField (v.setWidth k) pos len b := by
  refine BitVec.eq_of_getLsbD_eq fun i hi => ?_
  rw [BitVec.getLsbD_setWidth, getLsbD_insertField (by omega), getLsbD_insertField hi,
    BitVec.getLsbD_setWidth]
  simp [hi]

/-- Only the low bits of what is inserted matter. -/
theorem insertField_setWidth {k : ℕ} {v : BitVec w} {pos len : ℕ} {b : BitVec m} (h : len ≤ k) :
    insertField v pos len (b.setWidth k) = insertField v pos len b := by
  rw [insertField, insertField, BitVec.setWidth_setWidth_of_le _ h]

/-! ## The low field -/

section Low

variable {k : ℕ}

theorem insertField_setWidth_self (v : BitVec w) (k : ℕ) :
    insertField v 0 k (v.setWidth k) = v := by
  have hlow : v.extractLsb' 0 k = v.setWidth k := by
    ext i hi
    simp
  rw [← hlow, insertField_extract]

theorem insertField_eq_insertField_iff (hk : k ≤ w) {x y : BitVec w} {a b : BitVec k} :
    insertField x 0 k a = insertField y 0 k b ↔ a = b ∧ x >>> k = y >>> k := by
  rw [ushiftRight_eq_iff]
  constructor
  · intro h
    have hlow := congrArg (BitVec.setWidth k) h
    rw [setWidth_insertField hk, setWidth_insertField hk, insertField_all,
      insertField_all] at hlow
    refine ⟨hlow, fun i hi hle => ?_⟩
    have hbit := congrArg (BitVec.getLsbD · i) h
    simp only [getLsbD_insertField hi] at hbit
    rwa [if_neg (by omega), if_neg (by omega)] at hbit
  · rintro ⟨rfl, h⟩
    refine BitVec.eq_of_getLsbD_eq fun i hi => ?_
    rw [getLsbD_insertField hi, getLsbD_insertField hi]
    split_ifs with hin
    · rfl
    · exact h i hi (by omega)

theorem eq_insertField_iff (hk : k ≤ w) {x y : BitVec w} {a : BitVec k} :
    x = insertField y 0 k a ↔ x.setWidth k = a ∧ x >>> k = y >>> k := by
  rw [← insertField_eq_insertField_iff hk, insertField_setWidth_self]

theorem insertField_inj (hk : k ≤ w) (v : BitVec w) {a b : BitVec k} :
    insertField v 0 k a = insertField v 0 k b ↔ a = b :=
  (insertField_eq_insertField_iff hk).trans (and_iff_left rfl)

/-- The low part of a field alone is inserted if the rest of the field stays what it is. -/
theorem insertField_setWidth_eq_iff (hkm : k ≤ m) (hm : m ≤ w) (v : BitVec w) (b : BitVec m) :
    insertField v 0 k (b.setWidth k) = insertField v 0 m b ↔
      b >>> k = v.setWidth m >>> k := by
  have hlow : b.setWidth k = (insertField v 0 m b).setWidth k := by
    rw [setWidth_insertField (hkm.trans hm)]
    refine BitVec.eq_of_getLsbD_eq fun i hi => ?_
    rw [getLsbD_insertField hi, if_pos (by omega), BitVec.getLsbD_setWidth, decide_eq_true hi,
      Bool.true_and, Nat.sub_zero]
  rw [eq_comm, eq_insertField_iff (hkm.trans hm), and_iff_right hlow.symm, ushiftRight_eq_iff,
    ushiftRight_eq_iff]
  constructor
  · intro h i hi hle
    have hbit := h i (by omega) hle
    rw [getLsbD_insertField (by omega), if_pos (by omega), Nat.sub_zero] at hbit
    rw [hbit, BitVec.getLsbD_setWidth, decide_eq_true hi, Bool.true_and]
  · intro h i hi hle
    rw [getLsbD_insertField hi, Nat.sub_zero]
    split_ifs with hin
    · rw [h i (by omega) hle, BitVec.getLsbD_setWidth, decide_eq_true (show i < m by omega),
        Bool.true_and]
    · rfl

end Low

/-- A shift to the left end of a vector and back to the right, with copies of the sign, reads a
field. -/
theorem sshiftRight_shiftLeft_eq {pos len : ℕ} (hlen : 0 < len) (h : pos + len ≤ w)
    (x : BitVec w) : (x <<< (w - (pos + len))).sshiftRight (w - len) =
      (x.extractLsb' pos len).signExtend w := by
  have hmsb : (x <<< (w - (pos + len))).msb = x.getLsbD (pos + (len - 1)) := by
    rw [BitVec.msb_eq_getLsbD_last, BitVec.getLsbD_shiftLeft,
      show w - 1 - (w - (pos + len)) = pos + (len - 1) by omega]
    simp [show w - 1 < w by omega, show ¬w - 1 < w - (pos + len) by omega]
  have hmsb' : (x.extractLsb' pos len).msb = x.getLsbD (pos + (len - 1)) := by
    rw [BitVec.msb_eq_getLsbD_last, BitVec.getLsbD_extractLsb']
    simp [hlen]
  refine BitVec.eq_of_getLsbD_eq fun i hi => ?_
  rw [BitVec.getLsbD_sshiftRight, BitVec.getLsbD_signExtend, hmsb, hmsb']
  by_cases hin : i < len
  · rw [if_pos (by omega), if_pos hin, BitVec.getLsbD_shiftLeft, BitVec.getLsbD_extractLsb',
      show w - len + i - (w - (pos + len)) = pos + i by omega]
    simp [hi, hin, show w - len + i < w by omega, show ¬w - len + i < w - (pos + len) by omega]
  · rw [if_neg (by omega), if_neg hin]
    simp [hi]

end Arancini
