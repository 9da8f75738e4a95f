import Arancini.X86.Operand

/-!
# The bit scans

`BSF` and `BSR` have a chain of selects over a mask of one bit, which moves by one for each. `BSR`
moves it up from bit 0 and keeps the last index that was selected. `BSF` moves it down from the top.

The first mask of `BSF` is `1 << width - 1`, which is an `int`. There is no such shift for a width
of 64, so what the mask is then is left open, but for the 33 top bits being equal.
`bitScan_right_iff` says for which sources the index is right all the same.
-/

namespace Arancini.X86

/-! ## The translator -/

inductive BitScanInst
  | BSF
  | BSR
  deriving DecidableEq

section Nodes

variable {w : ℕ}

/-- `insert_constant_i`. -/
def insertConstantI (w : ℕ) (value : BitVec 64) : BitVec w :=
  value.setWidth w

/-- A comparison has the type of its operands. -/
def cmpeq (lhs rhs : BitVec w) : BitVec w :=
  if lhs = rhs then 1 else 0

def csel (condition trueval falseval : BitVec w) : BitVec w :=
  if condition ≠ 0 then trueval else falseval

/-- The index after the selects, where `n` are to come and the next is for bit `i`. -/
def scanUp (src : BitVec w) : (n i : ℕ) → (mask idx : BitVec w) → BitVec w
  | 0, _, _, idx => idx
  | n + 1, i, mask, idx =>
    let isSet := cmpeq (src &&& mask) mask
    scanUp src n (i + 1) (mask <<< 1) (csel isSet (insertConstantI w (BitVec.ofNat 64 i)) idx)

/-- The index after the selects, where the next is for the bit below `i`. -/
def scanDown (src : BitVec w) : (i : ℕ) → (mask idx : BitVec w) → BitVec w
  | 0, _, idx => idx
  | i + 1, mask, idx =>
    let isSet := cmpeq (src &&& mask) mask
    scanDown src i (mask >>> 1) (csel isSet (insertConstantI w (BitVec.ofNat 64 i)) idx)

/-- `1 << width - 1`. The shift is not defined from 32 on, and `undef` is what it gives there. -/
def topMask (undef : BitVec 32) (w : ℕ) : BitVec 32 :=
  if w - 1 < 32 then 1#32 <<< (w - 1) else undef

/-- The value that is written to operand 0. -/
def BitScanInst.index (inst : BitScanInst) (undef : BitVec 32) (src : BitVec w) : BitVec w :=
  match inst with
  | BSR => scanUp src w 0 (insertConstantI w 1) (insertConstantI w 0)
  | BSF =>
    let mask := insertConstantI w ((topMask undef w).signExtend 64)
    scanDown src w mask (insertConstantI w (BitVec.ofNat 64 (w - 1)))

end Nodes

/-- `do_translate`, and what the nodes do. -/
def BitScanInst.doTranslate (inst : BitScanInst) (undef : BitVec 32) (dst : GprReg)
    (op1 : RegOrMem dst.part.width) (s : CpuState) : Except String CpuState := do
  let src ← op1.read s
  let isZ := cmpeq src (insertConstantI _ 0)
  let s ← writeReg Reg.ZF.offset isZ s
  writeGpr dst .unsignedInteger (inst.index undef src) s

/-! ## The instructions -/

section Intel

variable {w : ℕ}

/-- Bit `i` is the lowest one. -/
def IsLowest (src : BitVec w) (i : ℕ) : Prop :=
  src.getLsbD i ∧ ∀ j < i, src.getLsbD j = false

/-- Bit `i` is the highest one. -/
def IsHighest (src : BitVec w) (i : ℕ) : Prop :=
  src.getLsbD i ∧ ∀ j, i < j → src.getLsbD j = false

def BitScanInst.Finds (inst : BitScanInst) (src : BitVec w) (i : ℕ) : Prop :=
  match inst with
  | BSF => IsLowest src i
  | BSR => IsHighest src i

end Intel

/-- `ZF` says whether the source is zero. If it is not, the index is in the destination. Nothing
else changes. -/
structure BitScanInst.Scanned (inst : BitScanInst) (dst : GprReg) (src : BitVec dst.part.width)
    (s s' : CpuState) : Prop where
  zf : s'.flag .ZF = (src == 0)
  index : src ≠ 0 → ∃ i, inst.Finds src i ∧
    dst.Written (BitVec.ofNat _ i) (s.gpr dst.num) (s'.gpr dst.num)
  frame : ∀ r, r ≠ .ZF → r ≠ gprReg dst.num → s' r = s r

/-- The code does what the instruction does. -/
def BitScanInst.Right (inst : BitScanInst) (undef : BitVec 32) (dst : GprReg)
    (op1 : RegOrMem dst.part.width) (s : CpuState) : Prop :=
  ∃ s', inst.doTranslate undef dst op1 s = .ok s' ∧ inst.Scanned dst (op1.content s) s s'

/-- A scan from below of 64 bits finds bit 0, or the top bit if it is the only one and the mask has
it. -/
def BitScanInst.Fits {w : ℕ} (inst : BitScanInst) (undef : BitVec 32) (src : BitVec w) : Prop :=
  inst = BSF → w = 64 → src = 0 ∨ src.getLsbD 0 ∨ (undef.msb ∧ src = BitVec.twoPow w 63)

/-! ## The chains of selects -/

section Scan

variable {w : ℕ}

theorem csel_cmpeq (hw : 0 < w) (lhs rhs trueval falseval : BitVec w) :
    csel (cmpeq lhs rhs) trueval falseval = if lhs = rhs then trueval else falseval := by
  have hone : (1 : BitVec w) ≠ 0 := by
    intro h
    have hnat := congrArg BitVec.toNat h
    simp [Nat.mod_eq_of_lt (Nat.one_lt_two_pow hw.ne')] at hnat
  by_cases h : lhs = rhs
  · rw [csel, cmpeq, if_pos h, if_pos h, if_pos hone]
  · rw [csel, cmpeq, if_neg h, if_neg h, if_neg fun h => h rfl]

theorem insertConstantI_ofNat (hw : w ≤ 64) (i : ℕ) :
    insertConstantI w (BitVec.ofNat 64 i) = BitVec.ofNat w i :=
  BitVec.setWidth_ofNat_of_le hw i

/-- The source has the bits of the mask. -/
def Selected (src mask : BitVec w) : Prop :=
  src &&& mask = mask

theorem selected_twoPow_iff {src : BitVec w} {i : ℕ} (hi : i < w) :
    Selected src (BitVec.twoPow w i) ↔ src.getLsbD i = true := by
  rw [Selected, BitVec.and_twoPow]
  split_ifs with h
  · exact iff_of_true rfl h
  · refine iff_of_false (fun hzero => ?_) h
    have hbit := congrArg (BitVec.getLsbD · i) hzero
    simp [hi] at hbit

theorem getLsbD_of_selected {src mask : BitVec w} (h : Selected src mask) {i : ℕ}
    (hi : mask.getLsbD i = true) : src.getLsbD i = true := by
  rw [← h, BitVec.getLsbD_and] at hi
  exact (Bool.and_eq_true_iff.1 hi).1

/-- The last mask that selects is the lowest one, going down. -/
theorem scanDown_cases (hw : 0 < w) (hw64 : w ≤ 64) (src : BitVec w) :
    ∀ (i : ℕ) (mask idx : BitVec w),
      (∃ k < i, Selected src (mask >>> (i - 1 - k)) ∧
        (∀ j < k, ¬Selected src (mask >>> (i - 1 - j))) ∧
          scanDown src i mask idx = BitVec.ofNat w k) ∨
      (∀ k < i, ¬Selected src (mask >>> (i - 1 - k))) ∧ scanDown src i mask idx = idx
  | 0, mask, idx => .inr ⟨nofun, rfl⟩
  | i + 1, mask, idx => by
    have hshift : ∀ k < i, mask >>> 1 >>> (i - 1 - k) = mask >>> (i + 1 - 1 - k) := by
      intro k hk
      rw [← BitVec.shiftRight_add]
      congr 1
      omega
    have htop : mask >>> (i + 1 - 1 - i) = mask := by simp
    rw [scanDown, csel_cmpeq hw, insertConstantI_ofNat hw64]
    rcases scanDown_cases hw hw64 src i (mask >>> 1) _ with
      ⟨k, hk, hsel, hlow, hidx⟩ | ⟨hnone, hidx⟩
    · rw [hshift k hk] at hsel
      refine .inl ⟨k, Nat.lt_succ_of_lt hk, hsel, fun j hj => ?_, hidx⟩
      rw [← hshift j (hj.trans hk)]
      exact hlow j hj
    · have hbelow : ∀ j < i, ¬Selected src (mask >>> (i + 1 - 1 - j)) := fun j hj => by
        rw [← hshift j hj]
        exact hnone j hj
      by_cases hsel : Selected src mask
      · refine .inl ⟨i, Nat.lt_succ_self i, htop.symm ▸ hsel, hbelow, ?_⟩
        rw [hidx]
        exact if_pos hsel
      · refine .inr ⟨fun k hk => ?_, ?_⟩
        · rcases Nat.lt_succ_iff_lt_or_eq.1 hk with hk | rfl
          · exact hbelow k hk
          · rwa [htop]
        · rw [hidx]
          exact if_neg hsel

/-- The last mask that selects is the highest one, going up. -/
theorem scanUp_cases (hw : 0 < w) (hw64 : w ≤ 64) (src : BitVec w) :
    ∀ (n i : ℕ) (mask idx : BitVec w),
      (∃ k < n, Selected src (mask <<< k) ∧ (∀ j < n, k < j → ¬Selected src (mask <<< j)) ∧
        scanUp src n i mask idx = BitVec.ofNat w (i + k)) ∨
      (∀ k < n, ¬Selected src (mask <<< k)) ∧ scanUp src n i mask idx = idx
  | 0, i, mask, idx => .inr ⟨nofun, rfl⟩
  | n + 1, i, mask, idx => by
    have hshift : ∀ k, mask <<< 1 <<< k = mask <<< (k + 1) := by
      intro k
      rw [← BitVec.shiftLeft_add, Nat.add_comm]
    rw [scanUp, csel_cmpeq hw, insertConstantI_ofNat hw64]
    rcases scanUp_cases hw hw64 src n (i + 1) (mask <<< 1) _ with
      ⟨k, hk, hsel, hhigh, hidx⟩ | ⟨hnone, hidx⟩
    · rw [hshift] at hsel
      refine .inl ⟨k + 1, Nat.succ_lt_succ hk, hsel, fun j hj hkj => ?_, ?_⟩
      · obtain ⟨j, rfl⟩ := Nat.exists_eq_succ_of_ne_zero (Nat.ne_zero_of_lt hkj)
        rw [← hshift]
        exact hhigh j (Nat.lt_of_succ_lt_succ hj) (Nat.lt_of_succ_lt_succ hkj)
      · rw [hidx, Nat.add_right_comm, Nat.add_assoc]
    · have habove : ∀ j < n + 1, 0 < j → ¬Selected src (mask <<< j) := fun j hj hpos => by
        obtain ⟨j, rfl⟩ := Nat.exists_eq_succ_of_ne_zero hpos.ne'
        rw [← hshift]
        exact hnone j (Nat.lt_of_succ_lt_succ hj)
      by_cases hsel : Selected src mask
      · refine .inl ⟨0, Nat.succ_pos n, by rwa [BitVec.shiftLeft_zero], habove, ?_⟩
        rw [hidx]
        exact if_pos hsel
      · refine .inr ⟨fun k hk => ?_, ?_⟩
        · rcases Nat.eq_zero_or_pos k with rfl | hpos
          · rwa [BitVec.shiftLeft_zero]
          · exact habove k hk hpos
        · rw [hidx]
          exact if_neg hsel

end Scan

/-! ## The index -/

namespace BitScanInst

section Index

variable {w : ℕ}

/-- The value is the index the instruction finds. -/
def IndexRight (inst : BitScanInst) (undef : BitVec 32) (src : BitVec w) : Prop :=
  ∃ i, inst.Finds src i ∧ inst.index undef src = BitVec.ofNat w i

theorem exists_bit_of_ne_zero {src : BitVec w} (h : src ≠ 0) : ∃ i < w, src.getLsbD i = true := by
  by_contra hnone
  push Not at hnone
  refine h (BitVec.eq_of_getLsbD_eq fun i hi => ?_)
  exact (Bool.eq_false_iff.2 (hnone i hi)).trans BitVec.getLsbD_zero.symm

theorem indexRight_bsr (hw : 0 < w) (hw64 : w ≤ 64) (undef : BitVec 32) {src : BitVec w}
    (h : src ≠ 0) : BSR.IndexRight undef src := by
  have hmask : ∀ k, insertConstantI w 1 <<< k = BitVec.twoPow w k := by
    intro k
    have hone : insertConstantI w 1 = BitVec.ofNat w 1 := insertConstantI_ofNat hw64 1
    rw [hone, ← BitVec.twoPow_eq]
  obtain ⟨b, hb, hbit⟩ := exists_bit_of_ne_zero h
  rcases scanUp_cases hw hw64 src w 0 (insertConstantI w 1) (insertConstantI w 0) with
    ⟨k, hk, hsel, hhigh, hidx⟩ | ⟨hnone, -⟩
  · rw [hmask, selected_twoPow_iff hk] at hsel
    refine ⟨k, ⟨hsel, fun j hj => ?_⟩, by rw [index, hidx, Nat.zero_add]⟩
    by_cases hjw : j < w
    · have hnot := hhigh j hjw hj
      rwa [hmask, selected_twoPow_iff hjw, Bool.not_eq_true] at hnot
    · exact BitVec.getLsbD_of_ge src j (Nat.le_of_not_lt hjw)
  · have hnot := hnone b hb
    rw [hmask, selected_twoPow_iff hb] at hnot
    exact absurd hbit hnot

/-- Below 64 bits the first mask is the top bit. -/
theorem topMask_eq (hw : 0 < w) (hw32 : w ≤ 32) (undef : BitVec 32) :
    insertConstantI w ((topMask undef w).signExtend 64) = BitVec.twoPow w (w - 1) := by
  rw [topMask, if_pos (by omega), ← BitVec.twoPow_eq, insertConstantI,
    ← BitVec.setWidth_setWidth_of_le _ hw32, setWidth_signExtend (by decide)]
  refine BitVec.eq_of_getLsbD_eq fun i hi => ?_
  rw [BitVec.getLsbD_setWidth, BitVec.getLsbD_twoPow, BitVec.getLsbD_twoPow, decide_eq_true hi]
  simp only [Bool.true_and]
  rw [decide_eq_true (by omega : w - 1 < 32), decide_eq_true (by omega : w - 1 < w)]

theorem indexRight_bsf (hw : 0 < w) (hw32 : w ≤ 32) (undef : BitVec 32) {src : BitVec w}
    (h : src ≠ 0) : BSF.IndexRight undef src := by
  have hmask : ∀ k < w, insertConstantI w ((topMask undef w).signExtend 64) >>> (w - 1 - k) =
      BitVec.twoPow w k := by
    intro k hk
    rw [topMask_eq hw hw32]
    refine BitVec.eq_of_getLsbD_eq fun i hi => ?_
    simp only [BitVec.getLsbD_ushiftRight, BitVec.getLsbD_twoPow, decide_eq_true hk,
      decide_eq_true (show w - 1 < w by omega), Bool.true_and, decide_eq_decide]
    omega
  obtain ⟨b, hb, hbit⟩ := exists_bit_of_ne_zero h
  rcases scanDown_cases hw (hw32.trans (by decide)) src w
      (insertConstantI w ((topMask undef w).signExtend 64))
      (insertConstantI w (BitVec.ofNat 64 (w - 1))) with ⟨k, hk, hsel, hlow, hidx⟩ | ⟨hnone, -⟩
  · rw [hmask k hk, selected_twoPow_iff hk] at hsel
    refine ⟨k, ⟨hsel, fun j hj => ?_⟩, hidx⟩
    have hnot := hlow j hj
    rwa [hmask j (hj.trans hk), selected_twoPow_iff (hj.trans hk), Bool.not_eq_true] at hnot
  · have hnot := hnone b hb
    rw [hmask b hb, selected_twoPow_iff hb] at hnot
    exact absurd hbit hnot

end Index

/-- The mask of 64 bits has the top bits, and the next one below them, or none at all. -/
theorem getLsbD_topMask (undef : BitVec 32) {i : ℕ} (hi : 31 ≤ i ∧ i < 64) :
    (insertConstantI 64 ((topMask undef 64).signExtend 64)).getLsbD i = undef.msb := by
  rw [topMask, if_neg (by decide), insertConstantI, BitVec.setWidth_eq, BitVec.getLsbD_signExtend,
    decide_eq_true hi.2, Bool.true_and]
  split_ifs with h
  · obtain rfl : i = 31 := by omega
    rw [BitVec.msb_eq_getLsbD_last]
  · rfl

theorem isLowest_unique {w : ℕ} {src : BitVec w} {i j : ℕ} (hi : IsLowest src i)
    (hj : IsLowest src j) : i = j := by
  rcases Nat.lt_trichotomy i j with h | h | h
  · exact absurd (hj.2 i h) (by rw [hi.1]; decide)
  · exact h
  · exact absurd (hi.2 j h) (by rw [hj.1]; decide)

/-- The first mask of a scan of 64 bits from below. -/
def mask64 (undef : BitVec 32) : BitVec 64 :=
  insertConstantI 64 ((topMask undef 64).signExtend 64)

/-- The last mask is bit 0, or there is none left. -/
theorem mask64_shift (undef : BitVec 32) :
    mask64 undef >>> 63 = if undef.msb then BitVec.twoPow 64 0 else 0 := by
  have hbit : ∀ i < 64, (mask64 undef >>> 63).getLsbD i = (decide (i = 0) && undef.msb) := by
    intro i hi
    rw [BitVec.getLsbD_ushiftRight]
    by_cases hzero : i = 0
    · subst hzero
      rw [decide_eq_true rfl, Bool.true_and]
      exact getLsbD_topMask undef (by decide)
    · rw [decide_eq_false hzero, Bool.false_and]
      exact BitVec.getLsbD_of_ge _ _ (by omega)
  refine BitVec.eq_of_getLsbD_eq fun i hi => ?_
  rw [hbit i hi]
  cases undef.msb with
  | true => simp [eq_comm]
  | false => simp

/-- A mask that selects below the top needs two bits next to each other. -/
theorem adjacent_of_selected {undef : BitVec 32} (hmsb : undef.msb = true) {src : BitVec 64} {k : ℕ}
    (hk : k + 1 < 64) (h : Selected src (mask64 undef >>> (63 - (k + 1)))) :
    src.getLsbD (k + 1) = true ∧ src.getLsbD k = true := by
  constructor
  · refine getLsbD_of_selected h ?_
    rw [BitVec.getLsbD_ushiftRight]
    exact (getLsbD_topMask undef (by omega)).trans hmsb
  · refine getLsbD_of_selected h ?_
    rw [BitVec.getLsbD_ushiftRight]
    exact (getLsbD_topMask undef (by omega)).trans hmsb

theorem eq_twoPow_of_isLowest {src : BitVec 64} (h : IsLowest src 63) :
    src = BitVec.twoPow 64 63 := by
  refine BitVec.eq_of_getLsbD_eq fun i hi => ?_
  rw [BitVec.getLsbD_twoPow]
  by_cases htop : i = 63
  · rw [htop, h.1]
    rfl
  · rw [h.2 i (by omega), decide_eq_false (Ne.symm htop), Bool.and_false]

theorem ofNat_inj {i j : ℕ} (hi : i < 64) (hj : j < 64)
    (h : BitVec.ofNat 64 i = BitVec.ofNat 64 j) : i = j := by
  have hnat := congrArg BitVec.toNat h
  rwa [BitVec.toNat_ofNat, BitVec.toNat_ofNat, Nat.mod_eq_of_lt (by omega),
    Nat.mod_eq_of_lt (by omega)] at hnat

/-- The chain of 64 bits ends at bit 0 if that is set, or if the mask has run out. Else an index is
above another bit that is set, or it is the first one. -/
theorem indexRight_bsf64_iff (undef : BitVec 32) (src : BitVec 64) :
    BSF.IndexRight undef src ↔
      src.getLsbD 0 = true ∨ (undef.msb = true ∧ src = BitVec.twoPow 64 63) := by
  have hlt : ∀ {i}, IsLowest src i → i < 64 := fun {i} h =>
    Nat.lt_of_not_le fun hge => absurd h.1 (by rw [BitVec.getLsbD_of_ge src i hge]; decide)
  have hzero : ¬Selected src (mask64 undef >>> 63) → undef.msb = true ∧ src.getLsbD 0 = false := by
    intro hnot
    rw [mask64_shift] at hnot
    cases hmsb : undef.msb with
    | true =>
      rw [hmsb, if_pos rfl, selected_twoPow_iff (by decide)] at hnot
      exact ⟨rfl, Bool.eq_false_iff.2 hnot⟩
    | false =>
      rw [hmsb, if_neg (by decide)] at hnot
      exact absurd BitVec.and_zero hnot
  have hcases := scanDown_cases (by decide) (by decide) src 64 (mask64 undef)
    (insertConstantI 64 (BitVec.ofNat 64 (64 - 1)))
  constructor
  · rintro ⟨i, hlow, hindex⟩
    rcases hcases with ⟨k, hk, hsel, hnone, hidx⟩ | ⟨hnone, hidx⟩
    · obtain rfl := ofNat_inj (hlt hlow) hk (hindex.symm.trans hidx)
      cases i with
      | zero => exact .inl hlow.1
      | succ i =>
        obtain ⟨hmsb, -⟩ := hzero (hnone 0 (Nat.succ_pos i))
        have hbelow := (adjacent_of_selected hmsb hk hsel).2
        rw [hlow.2 i (Nat.lt_succ_self i)] at hbelow
        exact absurd hbelow (by decide)
    · obtain ⟨hmsb, -⟩ := hzero (hnone 0 (by decide))
      have hi : i = 63 := ofNat_inj (hlt hlow) (by decide) (hindex.symm.trans hidx)
      exact .inr ⟨hmsb, eq_twoPow_of_isLowest (hi ▸ hlow)⟩
  · intro h
    rcases hcases with ⟨k, hk, hsel, hnone, hidx⟩ | ⟨hnone, hidx⟩
    · refine ⟨k, ?_, hidx⟩
      rcases h with hbit | ⟨hmsb, rfl⟩
      · cases k with
        | zero => exact ⟨hbit, nofun⟩
        | succ k =>
          have hnot := (hzero (hnone 0 (Nat.succ_pos k))).2
          rw [hbit] at hnot
          exact absurd hnot (by decide)
      · cases k with
        | zero =>
          have hsel0 : Selected (BitVec.twoPow 64 63) (mask64 undef >>> 63) := hsel
          rw [mask64_shift, hmsb, if_pos rfl, selected_twoPow_iff (by decide)] at hsel0
          exact absurd hsel0 (by decide)
        | succ k =>
          obtain ⟨habove, hbelow⟩ := adjacent_of_selected hmsb hk hsel
          rw [BitVec.getLsbD_twoPow, Bool.and_eq_true, decide_eq_true_eq, decide_eq_true_eq]
            at habove hbelow
          omega
    · obtain ⟨-, hnot⟩ := hzero (hnone 0 (by decide))
      rcases h with hbit | ⟨-, rfl⟩
      · rw [hbit] at hnot
        exact absurd hnot (by decide)
      · refine ⟨63, ⟨by decide, fun j hj => ?_⟩, hidx⟩
        rw [BitVec.getLsbD_twoPow, decide_eq_false (show ¬63 = j by omega), Bool.and_false]

/-! ## When the scans are right -/

theorem indexRight_iff {w : ℕ} (hw : w ∈ [16, 32, 64]) (inst : BitScanInst) (undef : BitVec 32)
    {src : BitVec w} (h : src ≠ 0) : inst.IndexRight undef src ↔ inst.Fits undef src := by
  simp only [List.mem_cons, List.not_mem_nil, or_false] at hw
  cases inst with
  | BSR => exact iff_of_true (indexRight_bsr (by omega) (by omega) undef h) nofun
  | BSF =>
    by_cases hw64 : w = 64
    · subst hw64
      rw [indexRight_bsf64_iff]
      exact ⟨fun hbit _ _ => .inr hbit, fun hfits => (hfits rfl rfl).resolve_left h⟩
    · exact iff_of_true (indexRight_bsf (by omega) (by omega) undef h) fun _ hw => absurd hw hw64

/-- What the code leaves. -/
theorem doTranslate_spec {dst : GprReg} (hdst : dst.part.width ≠ 8) (inst : BitScanInst)
    (undef : BitVec 32) (op1 : RegOrMem dst.part.width) (s : CpuState) :
    ∃ s', inst.doTranslate undef dst op1 s = .ok s' ∧ s'.flag .ZF = (op1.content s == 0) ∧
      dst.Written (inst.index undef (op1.content s)) (s.gpr dst.num) (s'.gpr dst.num) ∧
      ∀ r, r ≠ .ZF → r ≠ gprReg dst.num → s' r = s r := by
  have hpos : 0 < dst.part.width := by cases dst.part <;> decide
  rw [doTranslate, op1.read_eq (op1.not_isHigh hdst), ok_bind]
  obtain ⟨s', hs', hzf, hwritten, hframe⟩ := dst.writeReg_writeGpr_spec hpos .unsignedInteger
    (inst.index undef (op1.content s)) (@gprReg_ne .ZF (by decide) dst.num)
    (cmpeq (op1.content s) (insertConstantI _ 0)) s
  refine ⟨s', hs', ?_, hwritten, hframe⟩
  have hzero : insertConstantI dst.part.width 0 = 0 := BitVec.setWidth_zero ..
  rw [hzf, hzero, cmpeq]
  by_cases h : op1.content s = 0
  · rw [if_pos h, beq_iff_eq.2 h]
    exact BitVec.getLsbD_one.trans (by simp [hpos])
  · rw [if_neg h, beq_eq_false_iff_ne.2 h]
    exact BitVec.getLsbD_zero

theorem right_iff_indexRight {dst : GprReg} (hdst : dst.part.width ≠ 8) {inst : BitScanInst}
    {undef : BitVec 32} {op1 : RegOrMem dst.part.width} {s : CpuState} (h : op1.content s ≠ 0) :
    inst.Right undef dst op1 s ↔ inst.IndexRight undef (op1.content s) := by
  have hhigh : dst.part ≠ .high := fun h => hdst (congrArg GprPart.width h)
  obtain ⟨s', hs', hzf, hwritten, hframe⟩ := doTranslate_spec hdst inst undef op1 s
  constructor
  · rintro ⟨t, ht, -, hindex, -⟩
    obtain rfl := Except.ok.inj (hs'.symm.trans ht)
    obtain ⟨i, hfinds, hright⟩ := hindex h
    have hcode := GprReg.setWidth_of_written hwritten
    have hintel := GprReg.setWidth_of_written hright
    rw [if_neg hhigh] at hcode hintel
    exact ⟨i, hfinds, hcode.symm.trans hintel⟩
  · rintro ⟨i, hfinds, hindex⟩
    exact ⟨s', hs', hzf, fun _ => ⟨i, hfinds, hindex ▸ hwritten⟩, hframe⟩

/-- A scan is right exactly if it is not one of 64 bits from below, or if its source is zero, has
bit 0, or is the top bit when the mask is that one. -/
theorem bitScan_right_iff {dst : GprReg} (hdst : dst.part.width ≠ 8) (inst : BitScanInst)
    (undef : BitVec 32) (op1 : RegOrMem dst.part.width) (s : CpuState) :
    inst.Right undef dst op1 s ↔ inst.Fits undef (op1.content s) := by
  have hw : dst.part.width ∈ [16, 32, 64] := by
    revert hdst
    cases dst.part <;> decide
  by_cases hzero : op1.content s = 0
  · obtain ⟨s', hs', hzf, -, hframe⟩ := doTranslate_spec hdst inst undef op1 s
    exact iff_of_true ⟨s', hs', hzf, fun h => absurd hzero h, hframe⟩ fun _ _ => .inl hzero
  · rw [right_iff_indexRight hdst hzero, indexRight_iff hw inst undef hzero]

/-- `BSF EAX, ECX` where `ECX` is 8. -/
theorem bitScan_right_bsf32 :
    BSF.Right 0 ⟨0, .dword, nofun⟩ (.reg ⟨1, .dword, nofun⟩ rfl) fun _ => 8 :=
  (@bitScan_right_iff ⟨0, .dword, nofun⟩ (by decide) BSF 0 (.reg ⟨1, .dword, nofun⟩ rfl)
    fun _ => 8).2 fun _ h => absurd h (by decide)

/-- `BSF RAX, [RCX]` of 2, whatever `1 << 63` is. -/
theorem not_bitScan_right :
    ¬∃ undef, BSF.Right undef ⟨0, .full, nofun⟩ (.mem 2) fun _ => 0 := by
  rintro ⟨undef, h⟩
  have hindex : BSF.IndexRight undef 2#64 :=
    (@right_iff_indexRight ⟨0, .full, nofun⟩ (by decide) BSF undef (.mem 2) (fun _ => 0)
      (by decide)).1 h
  rcases (indexRight_bsf64_iff undef 2).1 hindex with hbit | ⟨-, htop⟩
  · exact absurd hbit (by decide)
  · exact absurd htop (by decide)

end BitScanInst

end Arancini.X86
