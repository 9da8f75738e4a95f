import Arancini.Lib.Lanes
import Arancini.Riscv.AddSub

/-!
# Packed addition and subtraction on RISC-V

A vector of 128 bits is in two registers, and the host has no vector instructions. `add` and
`sub` of `arithmetic.h` work on the lanes of a register with masks and shifts, once for each
register of the pair.

Two of the sequences have a slip. `sub` of lanes of 32 bits computes the upper lane of a register
the other way round. `add` of lanes of 8 bits negates its mask where it needs the complement, so
the lowest lane of a register loses its bit 0. `materialiseVectorArith_right_iff` says for which
vectors that does not show, and that the other lane widths are rejected.
-/

namespace Arancini.Riscv

/-! ## The lowering -/

/-- The two host registers of a `TypedRegister` of 128 bits. -/
structure RegPair where
  reg1 : BitVec 64
  reg2 : BitVec 64
  deriving DecidableEq

/-- The value of the pair. -/
def RegPair.value (r : RegPair) : BitVec 128 :=
  r.reg2 ++ r.reg1

/-- A `value_type` of a vector of integers. -/
structure VectorType where
  nrElements : ℕ
  elementWidth : ℕ
  deriving DecidableEq

/-- `add` of the two lanes of 32 bits of a register. -/
def addWords (src1 src2 : BitVec 64) : BitVec 64 :=
  let temp1 := srli src1 32
  let temp2 := srli src2 32
  let temp2 := temp2 + temp1
  let temp2 := slli temp2 32
  let out := src1 + src2
  let out := slli out 32
  let out := srli out 32
  out ||| temp2

/-- `sub` of the two lanes of 32 bits of a register. -/
def subWords (src1 src2 : BitVec 64) : BitVec 64 :=
  let temp1 := srli src1 32
  let temp2 := srli src2 32
  let temp2 := temp2 - temp1 -- the operands are exchanged
  let temp2 := slli temp2 32
  let out := src1 - src2
  let out := slli out 32
  let out := srli out 32
  out ||| temp2

/-- The constant that `gen_constant` leaves in `mask1`. -/
def mask1 : BitVec 64 := 0x7F7F7F7F7F7F7F7F

/-- `neg` of `mask1`. -/
def mask2 : BitVec 64 := -mask1

/-- `add` of the eight lanes of 8 bits of a register. -/
def addBytes (src1 src2 : BitVec 64) : BitVec 64 :=
  let temp1 := src1 &&& mask1
  let temp2 := src2 &&& mask1
  let temp1 := temp1 + temp2
  let out := src1 ^^^ src2
  let out := out &&& mask2
  out ^^^ temp1

/-- `add` of vectors. With four elements of another width it leaves `out` as it is. -/
def addVector (type : VectorType) (out lhs rhs : RegPair) : Except String RegPair :=
  match type.nrElements with
  | 4 =>
    if type.elementWidth = 32 then
      .ok ⟨addWords lhs.reg1 rhs.reg1, addWords lhs.reg2 rhs.reg2⟩
    else .ok out
  | 16 =>
    if type.elementWidth = 8 then
      .ok ⟨addBytes lhs.reg1 rhs.reg1, addBytes lhs.reg2 rhs.reg2⟩
    else .ok out
  | _ => .error "not implemented"

/-- `sub` of vectors. -/
def subVector (type : VectorType) (out lhs rhs : RegPair) : Except String RegPair :=
  match type.nrElements with
  | 4 =>
    if type.elementWidth = 32 then
      .ok ⟨subWords lhs.reg1 rhs.reg1, subWords lhs.reg2 rhs.reg2⟩
    else .ok out
  | _ => .error "not implemented"

/-- The vector types that `materialise_binary_arith` lets through. -/
def vectorWorks (op : AddSub) (type : VectorType) : Bool :=
  type = ⟨4, 32⟩ || (type = ⟨16, 8⟩ && op = .add)

/-- `materialise_binary_arith` of two vectors. A flag that is used is not implemented. -/
def materialiseVectorArith (op : AddSub) (type : VectorType) (lhs rhs : RegPair)
    (want : Wanted) : Except String RegPair := do
  if vectorWorks op type then
    let out ← match op with
      | .add => addVector type ⟨0, 0⟩ lhs rhs
      | .sub => subVector type ⟨0, 0⟩ lhs rhs
    if want.any then throw "not implemented"
    return out
  else throw "unsupported width on binary arith operation"

/-! ## The lanes of a register -/

/-- A register that is put together from two halves. -/
theorem lane_halves (x y : BitVec 64) :
    lane 32 0 (srli (slli x 32) 32 ||| slli y 32) = lane 32 0 x ∧
      lane 32 1 (srli (slli x 32) 32 ||| slli y 32) = lane 32 0 y := by
  constructor
  · ext k hk
    simp [lane, srli, slli, hk, show k < 64 by omega, show 32 + k < 64 by omega]
  · ext k hk
    simp [lane, srli, slli, show 32 + k < 64 by omega, show ¬32 + (32 + k) < 64 by omega,
      BitVec.getLsbD_eq_getElem (show k < 64 by omega)]

theorem lane_srli (x : BitVec 64) : lane 32 0 (srli x 32) = lane 32 1 x := by
  ext k hk
  simp [lane, srli]

theorem lane_addWords (x y : BitVec 64) {i : ℕ} (hi : i < 2) :
    lane 32 i (addWords x y) = lane 32 i x + lane 32 i y := by
  obtain ⟨hlow, hhigh⟩ := lane_halves (x + y) (srli y 32 + srli x 32)
  obtain rfl | rfl : i = 0 ∨ i = 1 := by omega
  · refine hlow.trans ?_
    rw [lane_zero, lane_zero, lane_zero, BitVec.setWidth_add _ _ (by decide)]
  · refine hhigh.trans ?_
    rw [lane_zero, BitVec.setWidth_add _ _ (by decide), ← lane_zero, ← lane_zero, lane_srli,
      lane_srli, BitVec.add_comm]

theorem lane_zero_subWords (x y : BitVec 64) :
    lane 32 0 (subWords x y) = lane 32 0 x - lane 32 0 y := by
  refine (lane_halves (x - y) (srli y 32 - srli x 32)).1.trans ?_
  rw [lane_zero, lane_zero, lane_zero, setWidth_sub (by decide)]

/-- The upper lane is the difference the other way round. -/
theorem lane_one_subWords (x y : BitVec 64) :
    lane 32 1 (subWords x y) = lane 32 1 y - lane 32 1 x := by
  refine (lane_halves (x - y) (srli y 32 - srli x 32)).2.trans ?_
  rw [lane_zero, setWidth_sub (by decide), ← lane_zero, ← lane_zero, lane_srli, lane_srli]

theorem lane_mask1 {i : ℕ} (hi : i < 8) :
    lane 8 i mask1 = ~~~topBit 8 ∧ 2 * (mask1.toNat % 2 ^ (8 * i)) < 2 ^ (8 * i) := by
  revert i
  decide

theorem lane_mask2 {i : ℕ} (hi : i < 8) :
    lane 8 i mask2 = topBit 8 ^^^ if i = 0 then 1 else 0 := by
  revert i
  decide

/-- Bit 0 of the lowest lane is lost. -/
theorem lane_addBytes (x y : BitVec 64) {i : ℕ} (hi : i < 8) :
    lane 8 i (addBytes x y) = ((lane 8 i x ^^^ lane 8 i y) &&& if i = 0 then 1 else 0) ^^^
      (lane 8 i x + lane 8 i y) := by
  obtain ⟨hmask, hcarry⟩ := lane_mask1 hi
  rw [addBytes, lane_xor, lane_and, lane_xor, lane_add_of_masked (by omega) hcarry, hmask,
    lane_mask2 hi, add_eq_xor_topBit (lane 8 i x) (lane 8 i y) (by decide), and_xor_distrib]
  ac_rfl

/-! ## The lanes of a pair -/

/-- The lanes of a pair of which both registers are computed by one sequence. -/
theorem lane_value {w k i : ℕ} (hw : 64 = w * k) (hi : i < k) (r : RegPair) :
    lane w i r.value = lane w i r.reg1 ∧ lane w (k + i) r.value = lane w i r.reg2 := by
  refine ⟨lane_append_low ?_ r.reg2 r.reg1, lane_append_high hw r.reg2 r.reg1⟩
  rw [hw, ← Nat.mul_succ]
  exact Nat.mul_le_mul_left w hi

/-- Each lane of `out` is the result of the operation on the lanes of the operands. -/
def LanesRight (op : AddSub) (w : ℕ) (lhs rhs out : RegPair) : Prop :=
  ∀ i, w * i + w ≤ 128 →
    lane w i out.value = op.value (lane w i lhs.value) (lane w i rhs.value)

/-- The operation is lowered, and its code is right in each lane. -/
def LowersRight (op : AddSub) (type : VectorType) (lhs rhs : RegPair) : Prop :=
  ∃ out, materialiseVectorArith op type lhs rhs ⟨false, false, false, false⟩ = .ok out ∧
    LanesRight op type.elementWidth lhs rhs out

/-- The vectors for which the lowering is right. -/
def lanesAgree (op : AddSub) (type : VectorType) (lhs rhs : RegPair) : Prop :=
  match op, type with
  | .add, ⟨4, 32⟩ => True
  | .sub, ⟨4, 32⟩ => ∀ i ∈ [1, 3], lane 32 i lhs.value = lane 32 i rhs.value ∨
      lane 32 i lhs.value = lane 32 i rhs.value + topBit 32
  | .add, ⟨16, 8⟩ => ∀ i ∈ [0, 8], lane 8 i lhs.value &&& 1 = lane 8 i rhs.value &&& 1
  | _, _ => False

/-- What holds of the lanes of both registers holds of the lanes of the pair. -/
theorem forall_lane_iff {w k : ℕ} (hw : 64 = w * k) {p : ℕ → Prop} :
    (∀ i, w * i + w ≤ 128 → p i) ↔ ∀ i < k, p i ∧ p (k + i) := by
  have hpos : 0 < w := Nat.pos_of_ne_zero (by rintro rfl; omega)
  have hmem : ∀ i, w * i + w ≤ 128 ↔ i < k + k := by
    intro i
    rw [← Nat.mul_succ, show 128 = w * (k + k) by rw [mul_add]; omega,
      Nat.mul_le_mul_left_iff hpos, Nat.succ_le_iff]
  simp only [hmem]
  constructor
  · exact fun h i hi => ⟨h i (by omega), h (k + i) (by omega)⟩
  · intro h i hi
    rcases lt_or_ge i k with hlt | hge
    · exact (h i hlt).1
    · have hhigh := (h (i - k) (by omega)).2
      rwa [Nat.add_sub_cancel' hge] at hhigh

theorem lanesRight_iff {w k : ℕ} (hw : 64 = w * k) (op : AddSub) (lhs rhs out : RegPair) :
    LanesRight op w lhs rhs out ↔ ∀ i < k,
      lane w i out.reg1 = op.value (lane w i lhs.reg1) (lane w i rhs.reg1) ∧
        lane w i out.reg2 = op.value (lane w i lhs.reg2) (lane w i rhs.reg2) := by
  rw [LanesRight, forall_lane_iff hw]
  refine forall₂_congr fun i hi => ?_
  rw [(lane_value hw hi out).1, (lane_value hw hi lhs).1, (lane_value hw hi rhs).1,
    (lane_value hw hi out).2, (lane_value hw hi lhs).2, (lane_value hw hi rhs).2]

/-- An exchanged difference is the same if it is zero or its top bit alone is set. -/
theorem sub_eq_sub_comm_iff (x y : BitVec 32) : y - x = x - y ↔ x = y ∨ x = y + topBit 32 := by
  have htop : topBit 32 = 0x80000000#32 := rfl
  rw [htop]
  bv_omega

/-- Bit 0 of the lowest lane is right when it is the bit that is left there. -/
theorem and_xor_eq_iff {w : ℕ} (x y z v : BitVec w) :
    ((x ^^^ y) &&& z) ^^^ v = v ↔ x &&& z = y &&& z := by
  have hand : (x ^^^ y) &&& z = (x &&& z) ^^^ (y &&& z) := by
    rw [BitVec.and_comm, and_xor_distrib, BitVec.and_comm z, BitVec.and_comm z]
  have hzero := BitVec.xor_left_inj (x := x &&& z ^^^ y &&& z) (y := 0#w) v
  rw [BitVec.zero_xor] at hzero
  rw [hand, hzero, BitVec.xor_eq_zero_iff]

/-- The upper lanes of both registers decide whether an exchanged subtraction is right. -/
theorem lanesRight_subWords_iff (lhs rhs : RegPair) :
    LanesRight .sub 32 lhs rhs ⟨subWords lhs.reg1 rhs.reg1, subWords lhs.reg2 rhs.reg2⟩ ↔
      lanesAgree .sub ⟨4, 32⟩ lhs rhs := by
  have hodd : ∀ r : RegPair, lane 32 1 r.value = lane 32 1 r.reg1 ∧
      lane 32 3 r.value = lane 32 1 r.reg2 := lane_value (k := 2) (by decide) (by decide)
  rw [lanesRight_iff (show 64 = 32 * 2 from rfl)]
  simp only [lanesAgree, List.forall_mem_cons, List.not_mem_nil, false_implies, implies_true,
    and_true, hodd, ← sub_eq_sub_comm_iff]
  constructor
  · intro h
    simpa only [lane_one_subWords, AddSub.value] using h 1 (by decide)
  · intro h i hi
    obtain rfl | rfl : i = 0 ∨ i = 1 := by omega
    · exact ⟨lane_zero_subWords _ _, lane_zero_subWords _ _⟩
    · simpa only [lane_one_subWords, AddSub.value] using h

/-- The lowest lanes of both registers decide whether an addition of bytes is right. -/
theorem lanesRight_addBytes_iff (lhs rhs : RegPair) :
    LanesRight .add 8 lhs rhs ⟨addBytes lhs.reg1 rhs.reg1, addBytes lhs.reg2 rhs.reg2⟩ ↔
      lanesAgree .add ⟨16, 8⟩ lhs rhs := by
  have hlowest : ∀ r : RegPair, lane 8 0 r.value = lane 8 0 r.reg1 ∧
      lane 8 8 r.value = lane 8 0 r.reg2 := lane_value (k := 8) (by decide) (by decide)
  have hbytes : ∀ x y : BitVec 64, ∀ i < 8, lane 8 i (addBytes x y) = lane 8 i x + lane 8 i y ↔
      (lane 8 i x &&& if i = 0 then 1 else 0) = lane 8 i y &&& if i = 0 then 1 else 0 := by
    intro x y i hi
    rw [lane_addBytes x y hi, and_xor_eq_iff]
  rw [lanesRight_iff (show 64 = 8 * 8 from rfl)]
  simp only [lanesAgree, List.forall_mem_cons, List.not_mem_nil, false_implies, implies_true,
    and_true, hlowest]
  constructor
  · intro h
    obtain ⟨h1, h2⟩ := h 0 (by decide)
    exact ⟨(hbytes _ _ 0 (by decide)).1 h1, (hbytes _ _ 0 (by decide)).1 h2⟩
  · rintro ⟨h1, h2⟩ i hi
    refine ⟨(hbytes _ _ i hi).2 ?_, (hbytes _ _ i hi).2 ?_⟩ <;> split
    · next h => subst h; exact h1
    · simp
    · next h => subst h; exact h2
    · simp

theorem lowersRight_iff_of_ok {op : AddSub} {type : VectorType} {lhs rhs out : RegPair}
    (h : materialiseVectorArith op type lhs rhs ⟨false, false, false, false⟩ = .ok out) :
    LowersRight op type lhs rhs ↔ LanesRight op type.elementWidth lhs rhs out := by
  constructor
  · rintro ⟨o, ho, hright⟩
    cases h.symm.trans ho
    exact hright
  · exact fun hright => ⟨out, h, hright⟩

/-- The lowering of a packed addition or subtraction is right in every lane exactly for lanes of
32 bits, a subtraction with odd lanes that agree up to the top bit, and an addition of bytes with
even numbers in lanes 0 and 8, or two odd ones. -/
theorem lowersRight_iff (op : AddSub) (type : VectorType) (lhs rhs : RegPair) :
    LowersRight op type lhs rhs ↔ lanesAgree op type lhs rhs := by
  by_cases h32 : type = ⟨4, 32⟩
  · subst h32
    cases op with
    | add =>
      rw [lowersRight_iff_of_ok rfl, lanesRight_iff (show 64 = 32 * 2 from rfl)]
      exact iff_of_true (fun i hi => ⟨lane_addWords _ _ hi, lane_addWords _ _ hi⟩) trivial
    | sub =>
      rw [lowersRight_iff_of_ok rfl]
      exact lanesRight_subWords_iff lhs rhs
  by_cases h8 : type = ⟨16, 8⟩ ∧ op = .add
  · obtain ⟨rfl, rfl⟩ := h8
    rw [lowersRight_iff_of_ok rfl]
    exact lanesRight_addBytes_iff lhs rhs
  · -- the guard rejects the other types
    have hworks : vectorWorks op type = false := by
      simp only [vectorWorks, h32, decide_false, Bool.false_or, Bool.and_eq_false_imp,
        decide_eq_true_eq, decide_eq_false_iff_not]
      exact fun ht hop => h8 ⟨ht, hop⟩
    refine iff_of_false ?_ fun hagree => ?_
    · rintro ⟨out, hout, -⟩
      rw [materialiseVectorArith, hworks] at hout
      cases hout
    · unfold lanesAgree at hagree
      split at hagree
      · exact h32 rfl
      · exact h32 rfl
      · exact h8 ⟨rfl, rfl⟩
      · exact hagree

/-- `PSUBD` of one from two in lane 1 gives minus one. -/
theorem not_lowersRight_sub :
    ¬∀ (op : AddSub) (type : VectorType) (lhs rhs : RegPair),
      type ∈ [⟨2, 64⟩, ⟨4, 32⟩, ⟨8, 16⟩] → LowersRight op type lhs rhs := by
  intro h
  have hsub := h .sub ⟨4, 32⟩ ⟨0x200000000, 0⟩ ⟨0x100000000, 0⟩ (by decide)
  rw [lowersRight_iff_of_ok rfl] at hsub
  exact absurd (hsub 1 (by decide)) (by decide)

end Arancini.Riscv
