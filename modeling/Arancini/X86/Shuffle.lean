import Arancini.X86.Punpck

/-!
# The shuffles

`shuffle_translator` takes the elements of a vector from those of its operands, by the fields of an
immediate. The part that `PSHUFLW` and `PSHUFHW` do not shuffle is copied from the source.

`SHUFPS` and `SHUFPD` have a source for each half of the result. The code looks at the field to
decide between them, where it should look at the position. `shuffle_right_iff` says when that is the
same.
-/

namespace Arancini.X86

/-! ## The translator -/

inductive ShuffleInst
  | PSHUFD
  | PSHUFLW
  | PSHUFHW
  | SHUFPS
  | SHUFPD
  deriving DecidableEq

/-- The field at position `i`, where a field has so many bits. -/
def selectField (slct : BitVec 64) (bits : ℕ) (mask : BitVec 64) (i : ℕ) : ℕ :=
  ((slct >>> (bits * i)) &&& mask).toNat

/-- The loop of `SHUFPS` and `SHUFPD`. -/
def shufp (w bits : ℕ) (mask slct : BitVec 64) (src1 src2 dst : BitVec 128) : BitVec 128 :=
  let nrElements := 128 / w
  setLanes 0 (fun i =>
    let idx := selectField slct bits mask i
    let source := if idx < nrElements / 2 then src1 else src2
    lane w idx source) nrElements dst

namespace ShuffleInst

/-- The value that is written to operand 0. -/
def value (inst : ShuffleInst) (op0 op1 : BitVec 128) (slct : BitVec 64) : BitVec 128 :=
  match inst with
  | PSHUFHW =>
    let dst := setLanes 4 (fun i => lane 16 (selectField slct 2 3 i + 4) op1) 4 op0
    setLanes 0 (fun i => lane 16 i op1) 4 dst
  | PSHUFLW =>
    let dst := setLanes 0 (fun i => lane 16 (selectField slct 2 3 i) op1) 4 op0
    setLanes 4 (fun i => lane 16 (4 + i) op1) 4 dst
  | PSHUFD => setLanes 0 (fun i => lane 32 (selectField slct 2 3 i) op1) 4 op0
  | SHUFPS => shufp 32 2 3 slct op0 op1 op0
  | SHUFPD => shufp 64 1 1 slct op0 op1 op0

/-- `do_translate`, and what the nodes do. -/
def doTranslate (inst : ShuffleInst) (dst : Fin 32) (src : VecOperand) (imm : BitVec 8)
    (s : CpuState) : Except String CpuState := do
  let op0 ← readXmm dst s
  let op1 ← src.read s
  writeVec true (xmm dst) (inst.value op0 op1 (imm.setWidth 64)) s

/-! ## The instructions -/

/-- The width of an element. -/
def width : ShuffleInst → ℕ
  | PSHUFLW | PSHUFHW => 16
  | PSHUFD | SHUFPS => 32
  | SHUFPD => 64

/-- The field of the immediate that position `i` has. -/
def field (inst : ShuffleInst) (imm : BitVec 8) (i : ℕ) : ℕ :=
  match inst with
  | SHUFPD => (imm.extractLsb' i 1).toNat
  | _ => (imm.extractLsb' (2 * i) 2).toNat

/-- The elements of the result. -/
def result (inst : ShuffleInst) (op0 op1 : BitVec 128) (imm : BitVec 8) (i : ℕ) :
    BitVec inst.width :=
  match inst with
  | PSHUFD => lane 32 (PSHUFD.field imm i) op1
  | PSHUFLW => if i < 4 then lane 16 (PSHUFLW.field imm i) op1 else lane 16 i op1
  | PSHUFHW => if i < 4 then lane 16 i op1 else lane 16 (PSHUFHW.field imm (i - 4) + 4) op1
  | SHUFPS => lane 32 (SHUFPS.field imm i) (if i < 2 then op0 else op1)
  | SHUFPD => lane 64 (SHUFPD.field imm i) (if i < 1 then op0 else op1)

/-- The code does what the instruction does. -/
def Right (inst : ShuffleInst) (dst : Fin 32) (src : VecOperand) (imm : BitVec 8) (s : CpuState) :
    Prop :=
  ∃ s', inst.doTranslate dst src imm s = .ok s' ∧
    LanesWritten dst (inst.result (s.xmm dst) (src.content s) imm) s s'

/-- A field selects from its half of the elements if its position is in that half, or the elements
it selects from the two sources are the same. -/
def Fits (inst : ShuffleInst) (op0 op1 : BitVec 128) (imm : BitVec 8) : Prop :=
  inst ∈ [SHUFPS, SHUFPD] → ∀ i < 128 / inst.width,
    (inst.field imm i < 128 / inst.width / 2 ↔ i < 128 / inst.width / 2) ∨
      lane inst.width (inst.field imm i) op0 = lane inst.width (inst.field imm i) op1

/-! ## When the shuffles are right -/

/-- The fields of the immediate. -/
theorem selectField_eq {bits i : ℕ} {mask : BitVec 64} (hmask : mask.toNat = 2 ^ bits - 1)
    (imm : BitVec 8) :
    selectField (imm.setWidth 64) bits mask i = (imm.extractLsb' (bits * i) bits).toNat := by
  rw [selectField, BitVec.toNat_and, hmask, Nat.and_two_pow_sub_one_eq_mod,
    BitVec.toNat_ushiftRight, toNat_setWidth_of_le (by decide), BitVec.extractLsb'_toNat]

theorem right_iff (inst : ShuffleInst) (dst : Fin 32) (src : VecOperand) (imm : BitVec 8)
    (s : CpuState) :
    inst.Right dst src imm s ↔ ∀ i < 128 / inst.width,
      lane inst.width i (inst.value (s.xmm dst) (src.content s) (imm.setWidth 64)) =
        inst.result (s.xmm dst) (src.content s) imm i := by
  rw [Right, doTranslate, readXmm_eq, ok_bind, src.read_eq, ok_bind]
  exact exists_lanesWritten_iff _

/-- The element is right if it is taken from the right source, or is the same in both. -/
theorem lane_ite_eq_iff {w idx : ℕ} {p q : Prop} [Decidable p] [Decidable q] (x y : BitVec 128) :
    lane w idx (if p then x else y) = lane w idx (if q then x else y) ↔
      (p ↔ q) ∨ lane w idx x = lane w idx y := by
  by_cases hp : p <;> by_cases hq : q <;> simp [hp, hq, eq_comm]

theorem lane_shufp {w bits : ℕ} {mask : BitVec 64} (hmask : mask.toNat = 2 ^ bits - 1)
    (hall : w * (128 / w) = 128) (op0 op1 : BitVec 128) (imm : BitVec 8) {i : ℕ}
    (hi : i < 128 / w) :
    lane w i (shufp w bits mask (imm.setWidth 64) op0 op1 op0) =
      lane w (imm.extractLsb' (bits * i) bits).toNat
        (if (imm.extractLsb' (bits * i) bits).toNat < 128 / w / 2 then op0 else op1) := by
  have hlane : w * i + w ≤ 128 := by
    rw [← Nat.mul_succ]
    exact (Nat.mul_le_mul_left _ hi).trans hall.le
  rw [shufp, lane_setLanes hlane _ (by rw [Nat.zero_add, hall]), if_pos (by omega), Nat.sub_zero,
    selectField_eq hmask]

/-- A shuffle of four elements of one vector. -/
theorem lane_shuffled {w off : ℕ} {f : ℕ → BitVec w} {i : ℕ} (hw : w * (off + 4) ≤ 128)
    (hi : i < off + 4) (v : BitVec 128) :
    lane w i (setLanes off f 4 v) = if off ≤ i then f (i - off) else lane w i v := by
  have hlane : w * i + w ≤ 128 := by
    rw [← Nat.mul_succ]
    exact (Nat.mul_le_mul_left _ hi).trans hw
  rw [lane_setLanes hlane _ hw]
  by_cases hle : off ≤ i
  · rw [if_pos ⟨hle, hi⟩, if_pos hle]
  · rw [if_neg fun h => hle h.1, if_neg hle]

theorem lane_pshufd (op0 op1 : BitVec 128) (imm : BitVec 8) {i : ℕ} (hi : i < 4) :
    lane 32 i (PSHUFD.value op0 op1 (imm.setWidth 64)) = lane 32 (PSHUFD.field imm i) op1 := by
  rw [value, lane_shuffled (by decide) (by omega), if_pos i.zero_le, Nat.sub_zero,
    selectField_eq (by decide)]
  rfl

theorem lane_pshuflw (op0 op1 : BitVec 128) (imm : BitVec 8) {i : ℕ} (hi : i < 8) :
    lane 16 i (PSHUFLW.value op0 op1 (imm.setWidth 64)) =
      if i < 4 then lane 16 (PSHUFLW.field imm i) op1 else lane 16 i op1 := by
  rw [value, lane_shuffled (by decide) (by omega)]
  by_cases hlow : i < 4
  · rw [if_neg (by omega), if_pos hlow, lane_shuffled (by decide) (by omega), if_pos i.zero_le,
      Nat.sub_zero, selectField_eq (by decide)]
    rfl
  · rw [if_pos (by omega), if_neg hlow, Nat.add_sub_cancel' (by omega)]

theorem lane_pshufhw (op0 op1 : BitVec 128) (imm : BitVec 8) {i : ℕ} (hi : i < 8) :
    lane 16 i (PSHUFHW.value op0 op1 (imm.setWidth 64)) =
      if i < 4 then lane 16 i op1 else lane 16 (PSHUFHW.field imm (i - 4) + 4) op1 := by
  have hlane : 16 * i + 16 ≤ 128 := by omega
  rw [value, lane_setLanes hlane _ (by decide)]
  by_cases hlow : i < 4
  · rw [if_pos (by omega), if_pos hlow, Nat.sub_zero]
  · rw [if_neg (by omega), if_neg hlow, lane_shuffled (by decide) (by omega), if_pos (by omega),
      selectField_eq (by decide)]
    rfl

/-- A shuffle is right exactly if it is one of a single vector, or if each field selects from the
source of its position or the sources have the same element there. -/
theorem shuffle_right_iff (inst : ShuffleInst) (dst : Fin 32) (src : VecOperand) (imm : BitVec 8)
    (s : CpuState) :
    inst.Right dst src imm s ↔ inst.Fits (s.xmm dst) (src.content s) imm := by
  rw [right_iff]
  generalize s.xmm dst = op0
  generalize src.content s = op1
  cases inst with
  | PSHUFD =>
    refine iff_of_true (fun i hi => lane_pshufd op0 op1 imm hi) fun h => ?_
    exact absurd h (by decide)
  | PSHUFLW =>
    refine iff_of_true (fun i hi => lane_pshuflw op0 op1 imm hi) fun h => ?_
    exact absurd h (by decide)
  | PSHUFHW =>
    refine iff_of_true (fun i hi => lane_pshufhw op0 op1 imm hi) fun h => ?_
    exact absurd h (by decide)
  | SHUFPS =>
    rw [Fits, forall_prop_of_true (by decide)]
    refine forall₂_congr fun i hi => ?_
    have hcode : lane 32 i (SHUFPS.value op0 op1 (imm.setWidth 64)) =
        lane 32 (SHUFPS.field imm i) (if SHUFPS.field imm i < 2 then op0 else op1) :=
      lane_shufp (by decide) (by decide) op0 op1 imm hi
    exact (Eq.congr_left hcode).trans (lane_ite_eq_iff op0 op1)
  | SHUFPD =>
    rw [Fits, forall_prop_of_true (by decide)]
    refine forall₂_congr fun i hi => ?_
    have hcode : lane 64 i (SHUFPD.value op0 op1 (imm.setWidth 64)) =
        lane 64 (SHUFPD.field imm i) (if SHUFPD.field imm i < 1 then op0 else op1) := by
      have hlane := @lane_shufp 64 1 1 (by decide) (by decide) op0 op1 imm i hi
      rwa [Nat.one_mul] at hlane
    exact (Eq.congr_left hcode).trans (lane_ite_eq_iff op0 op1)

/-- `SHUFPS XMM0, [RCX], 0` of zeros, where `XMM0` has a one in each element. The high elements are
those of the destination. -/
theorem not_shuffle_right :
    ¬SHUFPS.Right 0 (.mem 0) 0 fun _ => 0x00000001000000010000000100000001 := by
  rw [right_iff]
  exact fun h => absurd (h 2 (by decide)) (by decide +kernel)

end ShuffleInst

end Arancini.X86
