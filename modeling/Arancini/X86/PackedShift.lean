import Arancini.Lib.Lanes
import Arancini.X86.Operand

/-!
# The packed shifts

`PSRLW`, `PSRLD` and `PSRLQ` shift the lanes of a vector one after the other, by a count that is an
immediate or a whole vector. `PSLLD` does the same to the left. `PSLLDQ` and `PSRLDQ` shift the
vector by a number of bytes, which is an immediate.

The count of a vector is its low half. The code takes all of it, which shows if the low half is a
small number and the high half is not zero. `PSLLD` computes its result and does not write it.
`packedShift_right_iff` says what follows.
-/

namespace Arancini.X86

/-! ## The translator -/

/-- The operand that has the count. -/
inductive PackedAmount
  | imm (b : BitVec 8)
  | reg (num : Fin 32)
  | mem (m : BitVec 128)

def xmm (num : Fin 32) : VecReg :=
  ⟨num, .XMM⟩

def readXmm (num : Fin 32) (s : CpuState) : Except String (BitVec 128) :=
  readVec (xmm num) s

/-- `read_operand` of the count, as the number it is to a shift. -/
def PackedAmount.read (amount : PackedAmount) (s : CpuState) : Except String ℕ :=
  match amount with
  | imm b => .ok b.toNat
  | reg num => do
    let v ← readXmm num s
    return v.toNat
  | mem m => .ok m.toNat

/-- The shifts of lanes to the right. -/
inductive ShiftRightInst
  | PSRLW
  | PSRLD
  | PSRLQ
  deriving DecidableEq

/-- The width of `typ`. -/
def ShiftRightInst.laneWidth : ShiftRightInst → ℕ
  | PSRLW => 16
  | PSRLD => 32
  | PSRLQ => 64

/-- `nr_splits`. -/
def ShiftRightInst.nrSplits (inst : ShiftRightInst) (width : ℕ) : ℕ :=
  if width = 64 then
    match inst with
    | PSRLW => 4
    | PSRLD => 2
    | PSRLQ => 1
  else
    match inst with
    | PSRLW => 8
    | PSRLD => 4
    | PSRLQ => 2

/-- The shifts of `shifts_translator` that have vectors as operands. -/
inductive PackedShift
  | right (inst : ShiftRightInst) (amount : PackedAmount)
  | PSLLD (amount : PackedAmount)
  | PSLLDQ (b : BitVec 8)
  | PSRLDQ (b : BitVec 8)

namespace PackedShift

/-- `do_translate`, and what the nodes do. -/
def doTranslate (dst : Fin 32) (s : CpuState) : PackedShift → Except String CpuState
  | right inst amount => do
    let src ← readXmm dst s
    let amt ← amount.read s
    let srcVec := mapLanes (fun x : BitVec inst.laneWidth => x >>> amt) (inst.nrSplits 128) src
    writeVec true (xmm dst) srcVec s
  | PSLLD amount => do
    let value ← readXmm dst s
    let amt ← amount.read s
    let _ := mapLanes (fun x : BitVec 32 => x <<< amt) 4 value -- the result is not written
    return s
  | PSLLDQ b => do
    let src ← readXmm dst s
    if b.toNat > 15 then writeVec true (xmm dst) 0#128 s
    else writeVec true (xmm dst) (src <<< (b.toNat * 8)) s
  | PSRLDQ b => do
    let src ← readXmm dst s
    if b.toNat > 15 then writeVec true (xmm dst) 0#128 s
    else writeVec true (xmm dst) (src >>> (b.toNat * 8)) s

end PackedShift

/-! ## The instructions -/

def CpuState.xmm (s : CpuState) (num : Fin 32) : BitVec 128 :=
  (s.zmm num).setWidth 128

/-- The count is in the low half of a vector. -/
def PackedAmount.count (amount : PackedAmount) (s : CpuState) : ℕ :=
  match amount with
  | imm b => b.toNat
  | reg num => (s.xmm num).toNat % 2 ^ 64
  | mem m => m.toNat % 2 ^ 64

namespace PackedShift

/-- The lanes, as many as there are of their width, are shifted by the count. A count of the width
or above leaves zero. -/
def Lanes (w count : ℕ) (f : BitVec w → BitVec w) (x y : BitVec 128) : Prop :=
  ∀ i < 128 / w, lane w i y = if w ≤ count then 0 else f (lane w i x)

/-- What becomes of the destination. -/
def Shifted (s : CpuState) (x y : BitVec 128) : PackedShift → Prop
  | right inst amount => Lanes inst.laneWidth (amount.count s) (· >>> amount.count s) x y
  | PSLLD amount => Lanes 32 (amount.count s) (· <<< amount.count s) x y
  | PSLLDQ b => y = if 16 ≤ b.toNat then 0 else x <<< (8 * b.toNat)
  | PSRLDQ b => y = if 16 ≤ b.toNat then 0 else x >>> (8 * b.toNat)

/-- The vector is shifted, and nothing else changes. -/
def Right (p : PackedShift) (dst : Fin 32) (s : CpuState) : Prop :=
  ∃ s', p.doTranslate dst s = .ok s' ∧ p.Shifted s (s.xmm dst) (s'.xmm dst) ∧
    (∀ i < 512, 128 ≤ i → (s'.zmm dst).getLsbD i = (s.zmm dst).getLsbD i) ∧
    ∀ r ≠ .ZMM dst, s' r = s r

/-- The high half of a count to the right is zero, or its low half leaves zeros only. A count to the
left is zero, or the lanes are. -/
def fits (p : PackedShift) (dst : Fin 32) (s : CpuState) : Prop :=
  match p with
  | right inst (.reg num) => (s.xmm num).toNat < 2 ^ 64 ∨ ∀ i < 128 / inst.laneWidth,
      lane inst.laneWidth i (s.xmm dst) >>> ((s.xmm num).toNat % 2 ^ 64) = 0
  | right inst (.mem m) => m.toNat < 2 ^ 64 ∨ ∀ i < 128 / inst.laneWidth,
      lane inst.laneWidth i (s.xmm dst) >>> (m.toNat % 2 ^ 64) = 0
  | PSLLD amount => amount.count s = 0 ∨ s.xmm dst = 0
  | right _ (.imm _) | PSLLDQ _ | PSRLDQ _ => True

end PackedShift

/-! ## When the packed shifts are right -/

theorem readXmm_eq (num : Fin 32) (s : CpuState) : readXmm num s = .ok (s.xmm num) :=
  readReg_zmm ..

/-- The number that a count is to a shift. -/
def PackedAmount.val (amount : PackedAmount) (s : CpuState) : ℕ :=
  match amount with
  | imm b => b.toNat
  | reg num => (s.xmm num).toNat
  | mem m => m.toNat

theorem PackedAmount.read_eq (amount : PackedAmount) (s : CpuState) :
    amount.read s = .ok (amount.val s) := by
  cases amount with
  | imm b => rfl
  | reg num =>
    rw [read, readXmm_eq]
    rfl
  | mem m => rfl

theorem PackedAmount.count_eq (amount : PackedAmount) (s : CpuState) :
    amount.count s = amount.val s % 2 ^ 64 := by
  cases amount with
  | imm b => exact (Nat.mod_eq_of_lt (b.isLt.trans (by decide))).symm
  | reg num => rfl
  | mem m => rfl

/-- A write to an XMM register is judged by the value. -/
theorem exists_writeVec_xmm_iff (sse : Bool) (dst : Fin 32) (x : BitVec 128) (s : CpuState)
    (P : BitVec 128 → Prop) :
    (∃ s', writeVec sse (xmm dst) x s = .ok s' ∧ P (s'.xmm dst) ∧
      (∀ i < 512, 128 ≤ i → (s'.zmm dst).getLsbD i = (sse && (s.zmm dst).getLsbD i)) ∧
      ∀ r ≠ .ZMM dst, s' r = s r) ↔ P x := by
  obtain ⟨t, ht, ⟨hlow, hhigh⟩, hframe⟩ := writeVec_spec (by decide) sse (xmm dst) x s
  have hxmm : t.xmm dst = x := hlow
  constructor
  · rintro ⟨s', hs', hp, -⟩
    obtain rfl := Except.ok.inj (ht.symm.trans hs')
    rwa [hxmm] at hp
  · intro hp
    refine ⟨t, ht, ?_, hhigh, hframe⟩
    rwa [hxmm]

namespace PackedShift

/-- What is written to the destination. -/
theorem right_iff_of_write {p : PackedShift} {dst : Fin 32} {s : CpuState} {y : BitVec 128}
    (h : p.doTranslate dst s = writeVec true (xmm dst) y s) :
    p.Right dst s ↔ p.Shifted s (s.xmm dst) y := by
  rw [Right, h]
  exact exists_writeVec_xmm_iff true dst y s fun z => p.Shifted s (s.xmm dst) z

/-- A shift to the right by the whole number, and by its low half. -/
theorem ushiftRight_eq_mod_iff {w k val : ℕ} (hw : w ≤ 2 ^ 64) (lanes : ℕ → BitVec w) :
    (∀ i < k, lanes i >>> val =
        if w ≤ val % 2 ^ 64 then 0#w else lanes i >>> (val % 2 ^ 64)) ↔
      val < 2 ^ 64 ∨ ∀ i < k, lanes i >>> (val % 2 ^ 64) = 0 := by
  have hlong : ∀ i, (if w ≤ val % 2 ^ 64 then 0#w else lanes i >>> (val % 2 ^ 64)) =
      lanes i >>> (val % 2 ^ 64) := by
    intro i
    split_ifs with hle
    · exact (BitVec.ushiftRight_eq_zero hle).symm
    · rfl
  simp only [hlong]
  by_cases hval : val < 2 ^ 64
  · rw [Nat.mod_eq_of_lt hval]
    exact iff_of_true (fun i _ => rfl) (.inl hval)
  · have hzero : ∀ i, lanes i >>> val = 0 := fun i => BitVec.ushiftRight_eq_zero (by omega)
    simp only [hzero, hval, false_or]
    exact forall₂_congr fun i _ => eq_comm

theorem right_right_iff (inst : ShiftRightInst) (amount : PackedAmount) (dst : Fin 32)
    (s : CpuState) :
    (right inst amount).Right dst s ↔ amount.val s < 2 ^ 64 ∨ ∀ i < 128 / inst.laneWidth,
      lane inst.laneWidth i (s.xmm dst) >>> (amount.val s % 2 ^ 64) = 0 := by
  have hcode : (right inst amount).doTranslate dst s = writeVec true (xmm dst)
      (mapLanes (fun x : BitVec inst.laneWidth => x >>> amount.val s) (inst.nrSplits 128)
        (s.xmm dst)) s := by
    rw [doTranslate, readXmm_eq, amount.read_eq]
    rfl
  have hsplits : inst.nrSplits 128 = 128 / inst.laneWidth := by cases inst <;> rfl
  have hall : inst.laneWidth * (128 / inst.laneWidth) = 128 := by cases inst <;> rfl
  have hbound : inst.laneWidth ≤ 2 ^ 64 := by cases inst <;> decide
  rw [right_iff_of_write hcode, Shifted, Lanes, ← ushiftRight_eq_mod_iff hbound, amount.count_eq,
    hsplits]
  refine forall₂_congr fun i hi => ?_
  have hlane : inst.laneWidth * i + inst.laneWidth ≤ 128 := by
    rw [← Nat.mul_succ, ← hall]
    exact Nat.mul_le_mul_left _ hi
  rw [lane_mapLanes hlane _ hall.le, if_pos hi]
  rfl

/-- A number that is its own shift to the left is zero. -/
theorem eq_zero_of_shiftLeft_eq {w count : ℕ} {x : BitVec w} (hcount : count ≠ 0)
    (h : x <<< count = x) : x = 0 := by
  have hbit : ∀ i, x.getLsbD i = false := by
    intro i
    -- A bit is the one `count` places below it, and below the first `count` there is none.
    induction i using Nat.strong_induction_on with
    | _ i ih =>
      rw [← h, BitVec.getLsbD_shiftLeft]
      by_cases hlt : i < count
      · simp [hlt]
      · rw [ih _ (by omega), Bool.and_false]
  exact BitVec.eq_of_getLsbD_eq fun i _ => by
    rw [hbit]
    exact BitVec.getLsbD_zero.symm

theorem pslld_right_iff (amount : PackedAmount) (dst : Fin 32) (s : CpuState) :
    (PSLLD amount).Right dst s ↔ amount.count s = 0 ∨ s.xmm dst = 0 := by
  have hcode : (PSLLD amount).doTranslate dst s = .ok s := by
    rw [doTranslate, readXmm_eq, amount.read_eq]
    rfl
  have hright : (PSLLD amount).Right dst s ↔
      Lanes 32 (amount.count s) (· <<< amount.count s) (s.xmm dst) (s.xmm dst) := by
    rw [Right, hcode]
    simp only [Except.ok.injEq, exists_eq_left', Shifted]
    exact ⟨And.left, fun h => ⟨h, fun i _ _ => trivial, fun r _ => trivial⟩⟩
  rw [hright, Lanes]
  generalize amount.count s = count
  by_cases h0 : count = 0
  · subst h0
    refine iff_of_true (fun i _ => ?_) (.inl rfl)
    rw [if_neg (by decide), BitVec.shiftLeft_zero]
  constructor
  · intro hlanes
    refine .inr (eq_of_lane_eq (w := 32) (k := 4) rfl fun i hi => ?_)
    have hlane := hlanes i hi
    have hzero : lane 32 i (0 : BitVec 128) = 0 := BitVec.extractLsb'_zero
    rw [hzero]
    by_cases hle : 32 ≤ count
    · rwa [if_pos hle] at hlane
    · rw [if_neg hle] at hlane
      exact eq_zero_of_shiftLeft_eq h0 hlane.symm
  · rintro (hcount | hzero) i hi
    · exact absurd hcount h0
    · have hlane : lane 32 i (0 : BitVec 128) = 0 := BitVec.extractLsb'_zero
      rw [hzero, hlane]
      split_ifs
      · rfl
      · exact (BitVec.zero_shiftLeft _).symm

/-- The packed shifts are right exactly if the high half of a count to the right does not matter,
and if there is nothing to do to the left. -/
theorem packedShift_right_iff (p : PackedShift) (dst : Fin 32) (s : CpuState) :
    p.Right dst s ↔ p.fits dst s := by
  cases p with
  | right inst amount =>
    rw [right_right_iff]
    cases amount with
    | imm b => exact iff_of_true (.inl (b.isLt.trans (by decide))) trivial
    | reg num => rfl
    | mem m => rfl
  | PSLLD amount => exact pslld_right_iff amount dst s
  | PSLLDQ b =>
    have hcode : (PSLLDQ b).doTranslate dst s = writeVec true (xmm dst)
        (if b.toNat > 15 then 0#128 else s.xmm dst <<< (b.toNat * 8)) s := by
      rw [doTranslate, readXmm_eq, ok_bind]
      split_ifs <;> rfl
    rw [right_iff_of_write hcode, Shifted, Nat.mul_comm]
    exact iff_of_true rfl trivial
  | PSRLDQ b =>
    have hcode : (PSRLDQ b).doTranslate dst s = writeVec true (xmm dst)
        (if b.toNat > 15 then 0#128 else s.xmm dst >>> (b.toNat * 8)) s := by
      rw [doTranslate, readXmm_eq, ok_bind]
      split_ifs <;> rfl
    rw [right_iff_of_write hcode, Shifted, Nat.mul_comm]
    exact iff_of_true rfl trivial

/-- `pslld` by one of a vector whose lowest lane is one. -/
theorem not_packedShift_right : ¬(PSLLD (.imm 1)).Right 0 fun _ => 1 := by
  rw [pslld_right_iff]
  rintro (hcount | hzero)
  · exact absurd hcount (by decide)
  · exact absurd hzero (by decide +kernel)

end PackedShift

end Arancini.X86
