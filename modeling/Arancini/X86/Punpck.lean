import Mathlib.Tactic.Ring
import Arancini.X86.PackedShift

/-!
# Unpacking and packing

`punpck_translator` interleaves the low or the high halves of two vectors, and narrows the elements
of two vectors with saturation. The operands are read before anything is written.

The case of `UNPCKHPD` has no `break` and runs into the one for the low halves, which writes again.
There is no translator for `UNPCKLPS` and `UNPCKLPD`. `PACKUSWB` has branches around the three
insertions of an element, but the insertions are values and make one chain, of which the last is
left. `unpck_right_iff` and `pack_right_iff` say when the instructions are right all the same.
-/

namespace Arancini.X86

/-! ## Vectors -/

/-- The second operand, a register or what is in memory. -/
inductive VecOperand
  | xmm (num : Fin 32)
  | mem (m : BitVec 128)

/-- `read_operand`. -/
def VecOperand.read (s : CpuState) : VecOperand → Except String (BitVec 128)
  | xmm num => readXmm num s
  | mem m => .ok m

def VecOperand.content (s : CpuState) : VecOperand → BitVec 128
  | xmm num => s.xmm num
  | mem m => m

theorem VecOperand.read_eq (op : VecOperand) (s : CpuState) : op.read s = .ok (op.content s) := by
  cases op with
  | xmm num => exact readXmm_eq num s
  | mem m => rfl

/-- A register has these elements, and nothing else changes. -/
structure LanesWritten (dst : Fin 32) {w : ℕ} (lanes : ℕ → BitVec w) (s s' : CpuState) : Prop where
  lanes : ∀ i < 128 / w, lane w i (s'.xmm dst) = lanes i
  high : ∀ i < 512, 128 ≤ i → (s'.zmm dst).getLsbD i = (s.zmm dst).getLsbD i
  frame : ∀ r ≠ .ZMM dst, s' r = s r

/-- A write leaves these elements if the value has them. -/
theorem exists_lanesWritten_iff {dst : Fin 32} {w : ℕ} {lanes : ℕ → BitVec w} {s : CpuState}
    (x : BitVec 128) :
    (∃ s', writeVec true (xmm dst) x s = .ok s' ∧ LanesWritten dst lanes s s') ↔
      ∀ i < 128 / w, lane w i x = lanes i := by
  have hiff := exists_writeVec_xmm_iff true dst x s fun z => ∀ i < 128 / w, lane w i z = lanes i
  constructor
  · rintro ⟨s', hs', hlanes, hhigh, hframe⟩
    exact hiff.1 ⟨s', hs', hlanes, hhigh, hframe⟩
  · intro hlanes
    obtain ⟨s', hs', hlanes, hhigh, hframe⟩ := hiff.2 hlanes
    exact ⟨s', hs', hlanes, hhigh, hframe⟩

/-- A second write leaves nothing of the first. -/
theorem writeVec_writeVec (dst : Fin 32) (x y : BitVec 128) (s : CpuState) :
    (writeVec true (xmm dst) x s >>= writeVec true (xmm dst) y) = writeVec true (xmm dst) y s := by
  have hfield : insertField (insertField (s.zmm dst) 0 128 x) 0 128 y =
      insertField (s.zmm dst) 0 128 y := by
    refine BitVec.eq_of_getLsbD_eq fun i hi => ?_
    simp only [getLsbD_insertField hi]
    split_ifs <;> rfl
  rw [writeVec_eq (by decide), ok_bind, writeVec_eq (by decide), writeVec_eq (by decide),
    if_pos rfl, if_pos rfl, if_pos rfl]
  have hzmm : CpuState.zmm (Function.update s (.ZMM (xmm dst).num)
      (insertField (s.zmm (xmm dst).num) 0 128 x)) (xmm dst).num =
      insertField (s.zmm (xmm dst).num) 0 128 x := Function.update_self ..
  rw [hzmm, Function.update_idem]
  exact congrArg (fun z => Except.ok (Function.update s (.ZMM dst) z)) hfield

/-! ## Unpacking -/

inductive UnpckInst
  | PUNPCKLBW
  | PUNPCKLWD
  | PUNPCKLDQ
  | PUNPCKLQDQ
  | PUNPCKHBW
  | PUNPCKHWD
  | PUNPCKHDQ
  | PUNPCKHQDQ
  | UNPCKLPS
  | UNPCKLPD
  | UNPCKHPD
  deriving DecidableEq

/-- The loop of both cases, where the elements of the half start at `off`. Turn `i` inserts two. -/
def interleave (w : ℕ) (v0 v1 : BitVec 128) (off : ℕ) : ℕ → BitVec 128 → BitVec 128
  | 0, dst => dst
  | i + 1, dst =>
    let dst := setLane (2 * i) (interleave w v0 v1 off i dst) (lane w (i + off) v0)
    setLane (2 * i + 1) dst (lane w (i + off) v1)

namespace UnpckInst

/-- `elt_size` in the case for the low halves. -/
def eltSizeLow (inst : UnpckInst) : ℕ :=
  if inst = PUNPCKLBW then 8
  else if inst = PUNPCKLWD then 16
  else if inst = PUNPCKLDQ then 32
  else 64

/-- `elt_size` in the case for the high halves. -/
def eltSizeHigh (inst : UnpckInst) : ℕ :=
  if inst = PUNPCKHBW then 8
  else if inst = PUNPCKHWD then 16
  else if inst = PUNPCKHDQ then 32
  else 64

/-- The case for the low halves. -/
def unpackLow (inst : UnpckInst) (dst : Fin 32) (op0 op1 : BitVec 128) (s : CpuState) :
    Except String CpuState :=
  let w := inst.eltSizeLow
  writeVec true (xmm dst) (interleave w op0 op1 0 (128 / w / 2) op0) s

/-- The case for the high halves. -/
def unpackHigh (inst : UnpckInst) (dst : Fin 32) (op0 op1 : BitVec 128) (s : CpuState) :
    Except String CpuState :=
  let w := inst.eltSizeHigh
  writeVec true (xmm dst) (interleave w op0 op1 (128 / w / 2) (128 / w / 2) op0) s

/-- `do_translate`, and what the nodes do. -/
def doTranslate (inst : UnpckInst) (dst : Fin 32) (src : VecOperand) (s : CpuState) :
    Except String CpuState := do
  let op0 ← readXmm dst s
  let op1 ← src.read s
  match inst with
  | UNPCKHPD => do
    let v := setLane 1 (setLane 0 op0 (lane 64 1 op0)) (lane 64 1 op1)
    let s ← writeVec true (xmm dst) v s
    inst.unpackLow dst op0 op1 s -- there is no `break`
  | PUNPCKLBW | PUNPCKLWD | PUNPCKLDQ | PUNPCKLQDQ => inst.unpackLow dst op0 op1 s
  | PUNPCKHBW | PUNPCKHWD | PUNPCKHDQ | PUNPCKHQDQ => inst.unpackHigh dst op0 op1 s
  | UNPCKLPS | UNPCKLPD => .error "unsupported punpck operation"

/-- `get_translator`, and the translation. The call that `unimplemented_translator` emits ends the
program. -/
def translate (inst : UnpckInst) (dst : Fin 32) (src : VecOperand) (s : CpuState) :
    Except String CpuState :=
  match inst with
  | UNPCKLPS | UNPCKLPD => .error "Unimplemened Instr"
  | _ => inst.doTranslate dst src s

/-! ### The instructions -/

/-- The width of an element. -/
def width : UnpckInst → ℕ
  | PUNPCKLBW | PUNPCKHBW => 8
  | PUNPCKLWD | PUNPCKHWD => 16
  | PUNPCKLDQ | PUNPCKHDQ | UNPCKLPS => 32
  | PUNPCKLQDQ | PUNPCKHQDQ | UNPCKLPD | UNPCKHPD => 64

/-- The half the elements are of, as its first element. -/
def start : UnpckInst → ℕ
  | PUNPCKHBW => 8
  | PUNPCKHWD => 4
  | PUNPCKHDQ => 2
  | PUNPCKHQDQ | UNPCKHPD => 1
  | _ => 0

/-- The elements of the half, of both operands in turn. -/
def result (inst : UnpckInst) (op0 op1 : BitVec 128) (i : ℕ) : BitVec inst.width :=
  if i % 2 = 0 then lane inst.width (i / 2 + inst.start) op0
  else lane inst.width (i / 2 + inst.start) op1

/-- The code does what the instruction does. -/
def Right (inst : UnpckInst) (dst : Fin 32) (src : VecOperand) (s : CpuState) : Prop :=
  ∃ s', inst.translate dst src s = .ok s' ∧
    LanesWritten dst (inst.result (s.xmm dst) (src.content s)) s s'

/-- There is a translator, and the halves of each operand of `UNPCKHPD` are the same. -/
def Fits (inst : UnpckInst) (op0 op1 : BitVec 128) : Prop :=
  match inst with
  | UNPCKLPS | UNPCKLPD => False
  | UNPCKHPD => lane 64 0 op0 = lane 64 1 op0 ∧ lane 64 0 op1 = lane 64 1 op1
  | _ => True

end UnpckInst

/-! ### When unpacking is right -/

theorem lane_interleave {w : ℕ} (v0 v1 : BitVec 128) (off : ℕ) {j : ℕ} (hj : w * j + w ≤ 128)
    (dst : BitVec 128) : ∀ {k : ℕ}, w * (2 * k) ≤ 128 → j < 2 * k →
      lane w j (interleave w v0 v1 off k dst) =
        if j % 2 = 0 then lane w (j / 2 + off) v0 else lane w (j / 2 + off) v1
  | k + 1, hk, hjk => by
    have hturn : w * (2 * (k + 1)) = w * (2 * k) + w + w := by ring
    have hnext : w * (2 * k + 1) = w * (2 * k) + w := by ring
    rw [interleave, lane_setLane (by omega) hj, lane_setLane (by omega) hj]
    by_cases hodd : j = 2 * k + 1
    · rw [if_pos hodd, if_neg (by omega), show j / 2 = k by omega]
    by_cases heven : j = 2 * k
    · rw [if_neg hodd, if_pos heven, if_pos (by omega), show j / 2 = k by omega]
    · rw [if_neg hodd, if_neg heven, lane_interleave v0 v1 off hj dst (by omega) (by omega)]

namespace UnpckInst

variable (dst : Fin 32) (src : VecOperand) (s : CpuState)

/-- A loop over the right half leaves the result. -/
theorem interleave_right_iff {inst : UnpckInst} {w off : ℕ} (hw : w = inst.width)
    (hoff : off = inst.start) (hall : w * (2 * (128 / w / 2)) = 128) (op0 op1 : BitVec 128) :
    ∃ s', writeVec true (xmm dst) (interleave w op0 op1 off (128 / w / 2) op0) s = .ok s' ∧
      LanesWritten dst (inst.result op0 op1) s s' := by
  subst hw hoff
  refine (exists_lanesWritten_iff _).2 fun i hi => ?_
  have hlane : inst.width * i + inst.width ≤ 128 := by
    rw [← Nat.mul_succ]
    exact (Nat.mul_le_mul_left _ hi).trans (Nat.mul_div_le _ _)
  have hlt : i < 2 * (128 / inst.width / 2) := by
    refine lt_of_mul_lt_mul_left ?_ inst.width.zero_le
    rw [hall]
    have hpos : 0 < inst.width := by cases inst <;> decide
    omega
  rw [lane_interleave op0 op1 inst.start hlane op0 hall.le hlt, result]

theorem translate_unpckhpd : UNPCKHPD.translate dst src s =
    writeVec true (xmm dst) (interleave 64 (s.xmm dst) (src.content s) 0 1 (s.xmm dst)) s := by
  rw [translate, doTranslate, readXmm_eq, ok_bind, src.read_eq, ok_bind]
  exact writeVec_writeVec dst _ _ s
  all_goals exact nofun

theorem unpckhpd_right_iff : UNPCKHPD.Right dst src s ↔
    lane 64 0 (s.xmm dst) = lane 64 1 (s.xmm dst) ∧
      lane 64 0 (src.content s) = lane 64 1 (src.content s) := by
  rw [Right, translate_unpckhpd]
  generalize s.xmm dst = op0
  generalize src.content s = op1
  have hcode (i : ℕ) (hi : i < 2) : lane 64 i (interleave 64 op0 op1 0 1 op0) =
      if i % 2 = 0 then lane 64 (i / 2 + 0) op0 else lane 64 (i / 2 + 0) op1 :=
    lane_interleave op0 op1 0 (by omega) op0 (by decide) (by omega)
  refine (exists_lanesWritten_iff _).trans ?_
  constructor
  · intro h
    have h0 := h 0 (by decide)
    have h1 := h 1 (by decide)
    exact ⟨(hcode 0 (by decide)).symm.trans h0, (hcode 1 (by decide)).symm.trans h1⟩
  · rintro ⟨h0, h1⟩ i hi
    have hi : i < 2 := hi
    refine (hcode i hi).trans ?_
    obtain rfl | rfl : i = 0 ∨ i = 1 := by omega
    · exact h0
    · exact h1

/-- Unpacking is right exactly if the instruction has a translator and is not `UNPCKHPD`, or if it
is and the halves of each operand are the same. -/
theorem unpck_right_iff (inst : UnpckInst) :
    inst.Right dst src s ↔ inst.Fits (s.xmm dst) (src.content s) := by
  have hlow : ∀ {inst : UnpckInst}, inst.translate dst src s =
      inst.unpackLow dst (s.xmm dst) (src.content s) s → inst.eltSizeLow = inst.width →
      inst.start = 0 → inst.width * (2 * (128 / inst.width / 2)) = 128 → inst.Right dst src s := by
    intro inst hcode hw hoff hall
    rw [Right, hcode, unpackLow]
    exact interleave_right_iff dst s hw hoff.symm (by rwa [hw]) _ _
  have hhigh : ∀ {inst : UnpckInst}, inst.translate dst src s =
      inst.unpackHigh dst (s.xmm dst) (src.content s) s → inst.eltSizeHigh = inst.width →
      inst.start = 128 / inst.width / 2 → inst.width * (2 * (128 / inst.width / 2)) = 128 →
      inst.Right dst src s := by
    intro inst hcode hw hoff hall
    rw [Right, hcode, unpackHigh]
    exact interleave_right_iff dst s hw (by rw [hw, hoff]) (by rwa [hw]) _ _
  cases inst with
  | UNPCKHPD => exact unpckhpd_right_iff dst src s
  | UNPCKLPS | UNPCKLPD => exact iff_of_false (fun ⟨_, h, _⟩ => nomatch h) id
  | PUNPCKLBW | PUNPCKLWD | PUNPCKLDQ | PUNPCKLQDQ =>
    refine iff_of_true (hlow ?_ rfl rfl rfl) trivial
    rw [translate, doTranslate, readXmm_eq, ok_bind, src.read_eq, ok_bind]
    all_goals exact nofun
  | PUNPCKHBW | PUNPCKHWD | PUNPCKHDQ | PUNPCKHQDQ =>
    refine iff_of_true (hhigh ?_ rfl rfl rfl) trivial
    rw [translate, doTranslate, readXmm_eq, ok_bind, src.read_eq, ok_bind]
    all_goals exact nofun

/-- `UNPCKHPD XMM0, [RCX]`, of a vector that has 1 in its low half only. -/
theorem not_unpck_right : ¬UNPCKHPD.Right 0 (.mem 0) fun _ => 1 := by
  rw [unpckhpd_right_iff]
  exact fun h => absurd h.1 (by decide +kernel)

end UnpckInst

/-! ## Packing -/

inductive PackInst
  | PACKUSWB
  | PACKSSWB
  | PACKSSDW
  deriving DecidableEq

/-- The labels of a turn of `PACKUSWB`. -/
inductive PackLabel
  | negative
  | overflow
  | finish
  | finish1
  deriving DecidableEq

/-- The actions of `PACKUSWB`, with the values of their operands. A label is one of a turn. -/
inductive PackAction
  | condBr (cond : Bool) (target : ℕ × PackLabel)
  | br (target : ℕ × PackLabel)
  | label (name : ℕ × PackLabel)
  | writeOperand (value : BitVec 128)

/-- The value that is written, where control looks for the label `target`, if there is one. All
branches go forward. -/
def runPack : Option (ℕ × PackLabel) → List PackAction → Option (BitVec 128)
  | _, [] => none
  | some target, .label name :: l => runPack (if name = target then none else some target) l
  | some target, _ :: l => runPack (some target) l
  | none, .condBr cond target :: l => runPack (if cond then some target else none) l
  | none, .br target :: l => runPack (some target) l
  | none, .label _ :: l => runPack none l
  | none, .writeOperand value :: _ => some value

namespace PackInst

/-- `pre_ty`. -/
def preWidth : PackInst → ℕ
  | PACKUSWB | PACKSSWB => 16
  | PACKSSDW => 32

/-- `pst_ty`. -/
def pstWidth : PackInst → ℕ
  | PACKUSWB | PACKSSWB => 8
  | PACKSSDW => 16

/-- Element `i` of the destination and the source. -/
def element (w : ℕ) (dst src : BitVec 128) (i : ℕ) : BitVec w :=
  if i < 128 / w then lane w i dst else lane w (i - 128 / w) src

/-- A turn of the loop of `PACKUSWB`, with the actions and the value of `dst_bytes` after it. -/
def packusTurn (dst src : BitVec 128) (i : ℕ) (dstBytes : BitVec 128) :
    List PackAction × BitVec 128 :=
  let word := element 16 dst src i
  let negTest := word.slt 0
  let overflowTest := word &&& 0xFF00 != 0
  -- the word fits
  let dstBytes := setLane i dstBytes (word.setWidth 8)
  -- the word is negative
  let dstBytes := setLane i dstBytes 0#8
  -- the word overflows
  let dstBytes := setLane i dstBytes 0xFF#8
  ([.condBr negTest (i, .negative), .condBr overflowTest (i, .overflow), .br (i, .finish),
    .label (i, .negative), .br (i, .finish1), .label (i, .overflow), .label (i, .finish),
    .label (i, .finish1)], dstBytes)

def packusLoop (dst src : BitVec 128) : ℕ → List PackAction × BitVec 128
  | 0 => ([], dst)
  | i + 1 =>
    let (actions, dstBytes) := packusLoop dst src i
    let (turn, dstBytes) := packusTurn dst src i dstBytes
    (actions ++ turn, dstBytes)

/-- The constants of the signed forms. -/
structure PackConstants (m n : ℕ) where
  cmpMax : BitVec m
  cmpMin : BitVec m
  insMax : BitVec n
  insMin : BitVec n

/-- An element of the result of a signed form. -/
def packss {m n : ℕ} (c : PackConstants m n) (tmp : BitVec m) : BitVec n :=
  let gtMax := c.cmpMax.slt tmp
  let ltMin := tmp.slt c.cmpMin
  let tmp := tmp.setWidth n
  let tmp := if ltMin then c.insMin else tmp
  if gtMax then c.insMax else tmp

/-- The value that is written to operand 0. -/
def value (dst src : BitVec 128) : PackInst → Option (BitVec 128)
  | PACKUSWB =>
    let turns := packusLoop dst src 16
    runPack none (turns.1 ++ [.writeOperand turns.2])
  | PACKSSDW =>
    let c : PackConstants 32 16 := ⟨0x00007FFF, 0xFFFF8000, 0x7FFF, 0x8000⟩
    some (setLanes 0 (fun i => packss c (element 32 dst src i)) (128 / 16) dst)
  | PACKSSWB =>
    let c : PackConstants 16 8 := ⟨0x007F, 0xFF80, 0x7F, 0x80⟩
    some (setLanes 0 (fun i => packss c (element 16 dst src i)) (128 / 8) dst)

/-- `do_translate`, and what the nodes do. -/
def doTranslate (inst : PackInst) (dst : Fin 32) (src : VecOperand) (s : CpuState) :
    Except String CpuState := do
  let op0 ← readXmm dst s
  let op1 ← src.read s
  match inst.value op0 op1 with
  | some result => writeVec true (xmm dst) result s
  | none => return s

/-! ### The instructions -/

/-- The nearest number that is in range. -/
def saturate (inst : PackInst) (z : ℤ) : ℤ :=
  match inst with
  | PACKUSWB => max 0 (min 255 z)
  | PACKSSWB => max (-128) (min 127 z)
  | PACKSSDW => max (-32768) (min 32767 z)

/-- The elements, saturated. -/
def result (inst : PackInst) (op0 op1 : BitVec 128) (i : ℕ) : BitVec inst.pstWidth :=
  BitVec.ofInt _ (inst.saturate (element inst.preWidth op0 op1 i).toInt)

/-- The code does what the instruction does. -/
def Right (inst : PackInst) (dst : Fin 32) (src : VecOperand) (s : CpuState) : Prop :=
  ∃ s', inst.doTranslate dst src s = .ok s' ∧
    LanesWritten dst (inst.result (s.xmm dst) (src.content s)) s s'

/-- No element of `PACKUSWB` is below the greatest byte. -/
def Fits (inst : PackInst) (op0 op1 : BitVec 128) : Prop :=
  inst = PACKUSWB → ∀ i < 16, 255 ≤ (element 16 op0 op1 i).toInt

/-! ### When packing is right -/

/-- All ways through a turn come to its end. -/
theorem runPack_packusTurn (dst src : BitVec 128) (i : ℕ) (dstBytes : BitVec 128)
    (l : List PackAction) :
    runPack none ((packusTurn dst src i dstBytes).1 ++ l) = runPack none l := by
  rw [packusTurn]
  cases (element 16 dst src i).slt 0 <;>
    cases element 16 dst src i &&& 0xFF00 != 0 <;> simp [runPack]

theorem runPack_packusLoop (dst src : BitVec 128) : ∀ (k : ℕ) (l : List PackAction),
    runPack none ((packusLoop dst src k).1 ++ l) = runPack none l
  | 0, l => rfl
  | k + 1, l => by
    rw [packusLoop, List.append_assoc, runPack_packusLoop dst src k, runPack_packusTurn]

/-- The last insertion is left. -/
theorem lane_packusLoop (dst src : BitVec 128) {j : ℕ} (hj : 8 * j + 8 ≤ 128) :
    ∀ {k : ℕ}, 8 * k ≤ 128 →
      lane 8 j (packusLoop dst src k).2 = if j < k then 0xFF#8 else lane 8 j dst
  | 0, _ => rfl
  | k + 1, hk => by
    have hturn : (packusLoop dst src (k + 1)).2 = setLane k (setLane k (setLane k
        (packusLoop dst src k).2 ((element 16 dst src k).setWidth 8)) 0#8) 0xFF#8 := rfl
    rw [hturn, lane_setLane (by omega) hj]
    by_cases hjk : j = k
    · rw [if_pos hjk, if_pos (by omega)]
    · rw [if_neg hjk, lane_setLane (by omega) hj, if_neg hjk, lane_setLane (by omega) hj,
        if_neg hjk, lane_packusLoop dst src hj (by omega)]
      by_cases hlt : j < k
      · rw [if_pos hlt, if_pos (by omega)]
      · rw [if_neg hlt, if_neg (by omega)]

theorem setWidth_eq_ofInt {m n : ℕ} (hnm : n ≤ m) (x : BitVec m) :
    x.setWidth n = BitVec.ofInt n x.toInt :=
  BitVec.eq_of_toInt_eq ((toInt_setWidth_eq_bmod hnm x).trans (BitVec.toInt_ofInt ..).symm)

/-- The two selects saturate. -/
theorem packss_eq {m n : ℕ} (hnm : n ≤ m) {c : PackConstants m n} {lo hi : ℤ} (hle : lo ≤ hi)
    (hmax : c.cmpMax.toInt = hi ∧ c.insMax = BitVec.ofInt n hi)
    (hmin : c.cmpMin.toInt = lo ∧ c.insMin = BitVec.ofInt n lo) (x : BitVec m) :
    packss c x = BitVec.ofInt n (max lo (min hi x.toInt)) := by
  rw [packss, BitVec.slt, BitVec.slt, hmax.1, hmin.1, hmax.2, hmin.2, setWidth_eq_ofInt hnm]
  simp only [decide_eq_true_eq]
  by_cases hgt : hi < x.toInt
  · rw [if_pos hgt, min_eq_left hgt.le, max_eq_right hle]
  · rw [if_neg hgt, min_eq_right (Int.not_lt.1 hgt)]
    by_cases hlt : x.toInt < lo
    · rw [if_pos hlt, max_eq_left hlt.le]
    · rw [if_neg hlt, max_eq_right (Int.not_lt.1 hlt)]

theorem value_packuswb (dst src : BitVec 128) :
    PACKUSWB.value dst src = some (packusLoop dst src 16).2 := by
  rw [value, runPack_packusLoop, runPack]

section Instructions

variable (dst : Fin 32) (src : VecOperand) (s : CpuState)

/-- An instruction is right if the value that is written has the elements. -/
theorem right_iff_of_value {inst : PackInst} {x : BitVec 128}
    (h : inst.value (s.xmm dst) (src.content s) = some x) :
    inst.Right dst src s ↔ ∀ i < 128 / inst.pstWidth,
      lane inst.pstWidth i x = inst.result (s.xmm dst) (src.content s) i := by
  rw [Right, doTranslate, readXmm_eq, ok_bind, src.read_eq, ok_bind, h]
  exact exists_lanesWritten_iff x

/-- The saturated element is the greatest byte only for these. -/
theorem ofInt_saturate_eq_iff (x : BitVec 16) :
    BitVec.ofInt 8 (PACKUSWB.saturate x.toInt) = 0xFF#8 ↔ 255 ≤ x.toInt := by
  rw [saturate]
  constructor
  · intro h
    have hnat := congrArg BitVec.toInt h
    rw [BitVec.toInt_ofInt, Int.bmod_def] at hnat
    have hff : (0xFF#8).toInt = -1 := by decide
    rw [hff] at hnat
    omega
  · intro h
    rw [min_eq_left h]
    rfl

theorem packuswb_right_iff : PACKUSWB.Right dst src s ↔
    ∀ i < 16, 255 ≤ (element 16 (s.xmm dst) (src.content s) i).toInt := by
  rw [right_iff_of_value dst src s (value_packuswb ..)]
  refine forall₂_congr fun i hi => ?_
  have hi : i < 16 := hi
  have hlane : lane 8 i (packusLoop (s.xmm dst) (src.content s) 16).2 = 0xFF#8 := by
    rw [lane_packusLoop _ _ (by omega) (by decide), if_pos hi]
  rw [← ofInt_saturate_eq_iff]
  exact ⟨fun h => h.symm.trans hlane, fun h => hlane.trans h.symm⟩

/-- The elements of a signed form. -/
theorem lane_packss {m n : ℕ} (c : PackConstants m n) (op0 op1 : BitVec 128)
    (hn : n * (128 / n) = 128) {i : ℕ} (hi : i < 128 / n) :
    lane n i (setLanes 0 (fun i => packss c (element m op0 op1 i)) (128 / n) op0) =
      packss c (element m op0 op1 i) := by
  have hlane : n * i + n ≤ 128 := by
    rw [← Nat.mul_succ]
    exact (Nat.mul_le_mul_left _ hi).trans hn.le
  rw [lane_setLanes hlane _ (by rw [Nat.zero_add, hn]), if_pos (by omega), Nat.sub_zero]

/-- Packing is right exactly if it is signed, or if every element is the greatest byte or above. -/
theorem pack_right_iff (inst : PackInst) :
    inst.Right dst src s ↔ inst.Fits (s.xmm dst) (src.content s) := by
  cases inst with
  | PACKUSWB => exact (packuswb_right_iff dst src s).trans ⟨fun h _ => h, fun h => h rfl⟩
  | PACKSSDW =>
    refine iff_of_true ((right_iff_of_value dst src s rfl).2 fun i hi => ?_) nofun
    refine (lane_packss _ _ _ rfl hi).trans ?_
    exact packss_eq (by decide) (by decide) (by decide) (by decide) _
  | PACKSSWB =>
    refine iff_of_true ((right_iff_of_value dst src s rfl).2 fun i hi => ?_) nofun
    refine (lane_packss _ _ _ rfl hi).trans ?_
    exact packss_eq (by decide) (by decide) (by decide) (by decide) _

/-- `PACKUSWB XMM0, [RCX]`, of zeros. -/
theorem not_pack_right : ¬PACKUSWB.Right 0 (.mem 0) fun _ => 0 := by
  rw [packuswb_right_iff]
  exact fun h => absurd (h 0 (by decide)) (by decide +kernel)

end Instructions

end PackInst

end Arancini.X86
