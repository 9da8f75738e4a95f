import Arancini.Lib.Field
import Arancini.X86.Shifts

/-!
# The rotate instructions

`ROL` and `ROR` take the bits that leave the operand at one end with an extraction, shift the
operand, and put the bits in at the other end. The length of the extraction is the constant of the
count operand, which is not masked. When the count is in `CL` that operand is a read of a register,
and what the code takes for its constant is left open.

`rotates_right_iff` says for which counts an instruction rotates, and for which counts rotating left
and then right gives the operand back.
-/

namespace Arancini.X86

variable {w n m : ℕ}

/-- The position and the length are `int`s, and the node keeps them as unsigned numbers of 64
bits. -/
def insertBitInsert (value : Val w n) (bits : Val w m) (start length : BitVec 32) :
    Except String (Val w n) :=
  let pos := start.signExtend 64
  let len := length.signExtend 64
  if m > n then
    .error "width of type of incoming bits cannot be greater than type of value"
  else if len.toNat > n then
    .error "width of type of incoming bits cannot be smaller than requested length"
  else if (pos + len - 1).toNat > n - 1 then
    .error "bit insert range is out of bounds in target value"
  else .ok fun s => insertField (value s) pos.toNat len.toNat (bits s)

/-- `const_val_i` of the count operand. A read of a register has something else in its place. -/
def CountOperand.rotVal (field : BitVec 64) : CountOperand → BitVec 64
  | imm b => b.setWidth 64
  | cl => field

/-- A number the operand can have. -/
def CountOperand.Has (b : BitVec 8) : CountOperand → Prop
  | imm b' => b' = b
  | cl => True

/-- `xed_iclass_enum_t`. -/
inductive RotateInst
  | ROR
  | ROL
  deriving DecidableEq

namespace RotateInst

/-- `res`. -/
def res (inst : RotateInst) (value : Val w w) (rot : Val w 8) (rotVal : BitVec 64) :
    Except String (Val w w) :=
  let length := rotVal.setWidth 32
  match inst with
  | ROR => do
    let lowBits ← insertBitExtract value 0 (length.signExtend 64).toNat
    insertBitInsert (insertLsr value rot) lowBits ((widthOf w - rotVal).setWidth 32) length
  | ROL => do
    let highBits ← insertBitExtract value ((widthOf w - rotVal).setWidth 32)
      (length.signExtend 64).toNat
    insertBitInsert (insertLsl value rot) highBits 0 length

/-- The bit of the result that `CF` receives. -/
def lastBit (inst : RotateInst) (res : Val w w) : Except String (Val w 1) :=
  match inst with
  | ROR => insertBitExtract res ((widthOf w - 1).setWidth 32) 1
  | ROL => insertBitExtract res 0 1

/-- The other bit that `OF` depends on. -/
def topBit (inst : RotateInst) (res : Val w w) : Except String (Val w 1) :=
  match inst with
  | ROR => insertBitExtract res ((widthOf w - 2).setWidth 32) 1
  | ROL => insertBitExtract res ((widthOf w - 1).setWidth 32) 1

/-- The write of `OF`. -/
def writeOverflow (inst : RotateInst) (res : Val w w) (last : Val w 1) (rotVal : BitVec 64) :
    Except String (List (ShiftAction w)) :=
  if rotVal = 1 then do
    let top ← inst.topBit res
    return [.writeReg .OF (insertXor last top)]
  else return []

/-- `do_translate`, where `field` is what is read for the constant of a count in `CL`. -/
def doTranslate (inst : RotateInst) (field : BitVec 64) (count : CountOperand) :
    Except String (List (ShiftAction w)) :=
  let value : Val w w := ShiftState.op0
  let rotVal := count.rotVal field
  if rotVal = 0 then return []
  else do
    let res ← inst.res value count.read rotVal
    let last ← inst.lastBit res
    let writeOf ← inst.writeOverflow res last rotVal
    return [.writeOperand res, .writeReg .CF last] ++ writeOf

/-! ## The instructions -/

def result (inst : RotateInst) (v : BitVec w) (count : ℕ) : BitVec w :=
  match inst with
  | ROR => v.rotateRight count
  | ROL => v.rotateLeft count

/-- The bit that went from one end to the other last. -/
def carry (inst : RotateInst) (out : BitVec w) : Bool :=
  match inst with
  | ROR => out.msb
  | ROL => out.getLsbD 0

/-- The destination and `CF` after a rotation. The count is masked, and `CF` stays as it is if that
gives zero. -/
def Executes (inst : RotateInst) (count : ℕ) (s s' : ShiftState w) : Prop :=
  s'.op0 = inst.result s.op0 count ∧
    s'.cf = if count = 0 then s.cf else inst.carry (inst.result s.op0 count)

/-- The instruction does what it should in every state in which its count operand has `b`. -/
def Right (inst : RotateInst) (field : BitVec 64) (count : CountOperand) (w : ℕ) (b : BitVec 8) :
    Prop :=
  ∃ code, inst.doTranslate field count = .ok code ∧ ∀ s : ShiftState w, count.read s = b →
    inst.Executes (maskedCount w b) s (runActions s code s)

/-- Rotating left and then right gives the operand back. -/
def Restores (field : BitVec 64) (count : CountOperand) (w : ℕ) (b : BitVec 8) : Prop :=
  ∃ left right, ROL.doTranslate field count = .ok left ∧ ROR.doTranslate field count = .ok right ∧
    ∀ s : ShiftState w, count.read s = b →
      (runActions (runActions s left s) right (runActions s left s)).op0 = s.op0

/-- The number taken for the count is a count up to the width. It is the number the operand is
shifted by, or the width. -/
def rotateFits (rotVal : BitVec 64) (w : ℕ) (b : BitVec 8) : Prop :=
  if rotVal = 0 then maskedCount w b = 0
  else maskedCount w b ≠ 0 ∧ (1 ≤ rotVal.toNat % 2 ^ 32 ∧ rotVal.toNat % 2 ^ 32 ≤ w) ∧
    if rotVal.toNat % 2 ^ 32 = w then w ∣ maskedCount w b else b.toNat = rotVal.toNat % 2 ^ 32

/-- The same without the mask. -/
def restoreFits (rotVal : BitVec 64) (w : ℕ) (b : BitVec 8) : Prop :=
  rotVal = 0 ∨ (1 ≤ rotVal.toNat % 2 ^ 32 ∧ rotVal.toNat % 2 ^ 32 ≤ w) ∧
    (rotVal.toNat % 2 ^ 32 = w ∨ b.toNat = rotVal.toNat % 2 ^ 32)

end RotateInst

/-! ## What the nodes compute -/

/-- A length as a number of 64 bits. -/
theorem toNat_signExtend_of_le {length : BitVec 32} (h : length.toNat ≤ 64) :
    (length.signExtend 64).toNat = length.toNat := by
  have hlen := toNat_signExtend_lt (show 65 ≤ 2 ^ 31 by decide) length
  rwa [if_pos (by omega)] at hlen

/-- Some bits are extracted where they are in the value. -/
theorem insertBitExtract_of_mem (hn : n ≤ 64) (value : Val w n) {start length : BitVec 32}
    (h : 1 ≤ length.toNat ∧ start.toNat + length.toNat ≤ n) :
    insertBitExtract value start (length.signExtend 64).toNat =
      .ok fun s => (value s >>> start.toNat).setWidth (length.signExtend 64).toNat := by
  have hlen := @toNat_signExtend_of_le length (by omega)
  have hstart := @toNat_signExtend_of_le start (by omega)
  have hlast : (start.signExtend 64 + ((length.signExtend 64).toNat : BitVec 64) - 1).toNat =
      start.toNat + length.toNat - 1 := by
    rw [BitVec.natCast_eq_ofNat, BitVec.ofNat_toNat, BitVec.setWidth_eq, BitVec.toNat_sub,
      BitVec.toNat_add, hstart, hlen]
    simp only [BitVec.ofNat_eq_ofNat, BitVec.toNat_ofNat]
    omega
  rw [insertBitExtract, hlast, if_neg (by omega), hstart]

theorem insertBitInsert_of_mem (hn : n ≤ 64) (value : Val w n) (bits : Val w m) (hm : m ≤ n)
    {start length : BitVec 32} (h : 1 ≤ length.toNat ∧ start.toNat + length.toNat ≤ n) :
    insertBitInsert value bits start length =
      .ok fun s => insertField (value s) start.toNat length.toNat (bits s) := by
  have hlen := @toNat_signExtend_of_le length (by omega)
  have hstart := @toNat_signExtend_of_le start (by omega)
  have hlast : (start.signExtend 64 + length.signExtend 64 - 1).toNat =
      start.toNat + length.toNat - 1 := by
    rw [BitVec.toNat_sub, BitVec.toNat_add, hstart, hlen]
    simp only [BitVec.ofNat_eq_ofNat, BitVec.toNat_ofNat]
    omega
  rw [insertBitInsert, if_neg (by omega), hlen, if_neg (by omega), hlast, if_neg (by omega),
    hstart]

/-- Nothing, and more than there is, is not extracted from the first position on. -/
theorem insertBitExtract_zero_of_not_mem (hn : 0 < n ∧ n ≤ 64) (value : Val w n)
    {length : BitVec 32} (h : ¬(1 ≤ length.toNat ∧ length.toNat ≤ n)) :
    ∃ e, insertBitExtract value 0 (length.signExtend 64).toNat = .error e := by
  have hlen := toNat_signExtend_lt (show n + 1 ≤ 2 ^ 31 by omega) length
  have hlt := (length.signExtend 64).isLt
  have hlast : n - 1 < ((0#32).signExtend 64 +
      ((length.signExtend 64).toNat : BitVec 64) - 1).toNat := by
    rw [BitVec.natCast_eq_ofNat, BitVec.ofNat_toNat, BitVec.setWidth_eq, BitVec.toNat_sub,
      BitVec.toNat_add]
    have hzero : ((0#32).signExtend 64).toNat = 0 := by decide
    simp only [BitVec.ofNat_eq_ofNat, BitVec.toNat_ofNat, hzero]
    split_ifs at hlen <;> omega
  exact ⟨_, if_pos hlast⟩

/-- Nor is it inserted there. -/
theorem insertBitInsert_zero_of_not_mem (hn : 0 < n ∧ n ≤ 64) (value : Val w n) (bits : Val w m)
    {length : BitVec 32} (h : ¬(1 ≤ length.toNat ∧ length.toNat ≤ n)) :
    ∃ e, insertBitInsert value bits 0 length = .error e := by
  have hlen := toNat_signExtend_lt (show n + 1 ≤ 2 ^ 31 by omega) length
  have hlt := (length.signExtend 64).isLt
  rw [insertBitInsert]
  by_cases hm : m > n
  · exact ⟨_, if_pos hm⟩
  rw [if_neg hm]
  by_cases hwide : (length.signExtend 64).toNat > n
  · exact ⟨_, if_pos hwide⟩
  have hlast : n - 1 < ((0#32).signExtend 64 + length.signExtend 64 - 1).toNat := by
    rw [BitVec.toNat_sub, BitVec.toNat_add]
    have hzero : ((0#32).signExtend 64).toNat = 0 := by decide
    simp only [BitVec.ofNat_eq_ofNat, BitVec.toNat_ofNat, hzero]
    split_ifs at hlen <;> omega
  rw [if_neg hwide]
  exact ⟨_, if_pos hlast⟩

namespace RotateInst

/-- The operand shifted by `count`, with `len` of its bits put in at the end they come to. -/
def mixed (inst : RotateInst) (v : BitVec w) (len count : ℕ) : BitVec w :=
  match inst with
  | ROR => insertField (v >>> count) (w - len) len v
  | ROL => insertField (v <<< count) 0 len (v >>> (w - len))

theorem getLsbD_mixed_ror {v : BitVec w} {len count i : ℕ} (hlen : len ≤ w) (hi : i < w) :
    (ROR.mixed v len count).getLsbD i =
      if w - len ≤ i then v.getLsbD (i - (w - len)) else v.getLsbD (count + i) := by
  rw [mixed, getLsbD_insertField hi, BitVec.getLsbD_ushiftRight]
  congr 1
  exact propext ⟨And.left, fun h => ⟨h, by omega⟩⟩

theorem getLsbD_mixed_rol {v : BitVec w} {len count i : ℕ} (hi : i < w) :
    (ROL.mixed v len count).getLsbD i =
      if i < len then v.getLsbD (w - len + i)
      else !decide (i < count) && v.getLsbD (i - count) := by
  rw [mixed, getLsbD_insertField hi, BitVec.getLsbD_ushiftRight, BitVec.getLsbD_shiftLeft,
    decide_eq_true hi, Bool.true_and, Nat.sub_zero, Nat.zero_add]
  congr 1
  exact propext ⟨And.right, fun h => ⟨i.zero_le, h⟩⟩

/-- What is written to the operand. -/
theorem res_of_mem (inst : RotateInst) (hw : 0 < w ∧ w ≤ 64) (value : Val w w) (rot : Val w 8)
    {rotVal : BitVec 64} (h : 1 ≤ rotVal.toNat % 2 ^ 32 ∧ rotVal.toNat % 2 ^ 32 ≤ w) :
    inst.res value rot rotVal =
      .ok fun s => inst.mixed (value s) (rotVal.toNat % 2 ^ 32) (rot s).toNat := by
  have hlength : (rotVal.setWidth 32).toNat = rotVal.toNat % 2 ^ 32 := BitVec.toNat_setWidth ..
  have hleft : ((widthOf w - rotVal).setWidth 32).toNat = w - rotVal.toNat % 2 ^ 32 := by
    rw [setWidth_sub (by decide), BitVec.toNat_sub, widthOf, BitVec.toNat_setWidth,
      BitVec.toNat_setWidth, BitVec.toNat_ofNat]
    omega
  have hbits : ((rotVal.setWidth 32).signExtend 64).toNat = rotVal.toNat % 2 ^ 32 :=
    (toNat_signExtend_of_le (by omega)).trans hlength
  cases inst with
  | ROR =>
    rw [res, insertBitExtract_of_mem hw.2 value (by rw [hlength]; simpa using h), ok_bind,
      insertBitInsert_of_mem hw.2 _ _ (by omega) (by rw [hlength, hleft]; omega), hleft, hlength]
    congr 1
    funext s
    rw [insertField_setWidth (by omega)]
    rfl
  | ROL =>
    rw [res, insertBitExtract_of_mem hw.2 value (by rw [hlength, hleft]; omega), ok_bind,
      insertBitInsert_of_mem hw.2 _ _ (by omega) (by rw [hlength]; simpa using h), hleft, hlength]
    congr 1
    funext s
    rw [insertField_setWidth (by omega)]
    rfl

theorem res_of_not_mem (inst : RotateInst) (hw : 0 < w ∧ w ≤ 64) (value : Val w w) (rot : Val w 8)
    {rotVal : BitVec 64} (h : ¬(1 ≤ rotVal.toNat % 2 ^ 32 ∧ rotVal.toNat % 2 ^ 32 ≤ w)) :
    ∃ e, inst.res value rot rotVal = .error e := by
  have hlength : ¬(1 ≤ (rotVal.setWidth 32).toNat ∧ (rotVal.setWidth 32).toNat ≤ w) := by
    rwa [BitVec.toNat_setWidth]
  cases inst with
  | ROR =>
    obtain ⟨e, he⟩ := insertBitExtract_zero_of_not_mem hw value hlength
    exact ⟨e, by rw [res, he]; rfl⟩
  | ROL =>
    rw [res]
    cases hbits : insertBitExtract value ((widthOf w - rotVal).setWidth 32)
        ((rotVal.setWidth 32).signExtend 64).toNat with
    | error e => exact ⟨e, rfl⟩
    | ok bits => exact insertBitInsert_zero_of_not_mem hw _ bits hlength

theorem lastBit_eq (inst : RotateInst) (hw : 0 < w ∧ w ≤ 64) (res : Val w w) :
    inst.lastBit res = .ok fun s => BitVec.ofBool (inst.carry (res s)) := by
  cases inst with
  | ROR =>
    rw [lastBit, insertBitExtract_one hw, toNat_topPos hw, if_pos (by omega)]
    simp only [carry, BitVec.msb_eq_getLsbD_last]
  | ROL =>
    rw [lastBit, insertBitExtract_one hw, if_pos (by simpa using hw.1)]
    rfl

theorem writeOverflow_eq (inst : RotateInst) (hw : 2 ≤ w ∧ w ≤ 64) (res : Val w w)
    (last : Val w 1) (rotVal : BitVec 64) :
    ∃ l, inst.writeOverflow res last rotVal = .ok l ∧
      (l = [] ∨ ∃ of, l = [.writeReg .OF of]) := by
  have hwidth : 0 < w ∧ w ≤ 64 := by omega
  have hnext : ((widthOf w - 2).setWidth 32).toNat = w - 2 := by
    rw [widthOf, BitVec.toNat_setWidth, BitVec.toNat_sub, BitVec.toNat_ofNat]
    simp only [BitVec.ofNat_eq_ofNat, BitVec.toNat_ofNat]
    omega
  have htop : ∃ top, inst.topBit res = .ok top := by
    cases inst with
    | ROR =>
      rw [topBit, insertBitExtract_one hwidth, hnext, if_pos (by omega)]
      exact ⟨_, rfl⟩
    | ROL =>
      rw [topBit, insertBitExtract_one hwidth, toNat_topPos hwidth, if_pos (by omega)]
      exact ⟨_, rfl⟩
  rw [writeOverflow]
  split_ifs
  · obtain ⟨top, htop⟩ := htop
    rw [htop]
    exact ⟨_, rfl, .inr ⟨_, rfl⟩⟩
  · exact ⟨_, rfl, .inl rfl⟩

/-- What the sequence does. -/
theorem doTranslate_spec (inst : RotateInst) (hw : 2 ≤ w ∧ w ≤ 64) (field : BitVec 64)
    (count : CountOperand) :
    if count.rotVal field = 0 then inst.doTranslate field count = .ok ([] : List (ShiftAction w))
    else if 1 ≤ (count.rotVal field).toNat % 2 ^ 32 ∧
        (count.rotVal field).toNat % 2 ^ 32 ≤ w then
      ∃ code, inst.doTranslate field count = .ok code ∧ ∀ s : ShiftState w, ∃ of,
        runActions s code s = { s with
          op0 := inst.mixed s.op0 ((count.rotVal field).toNat % 2 ^ 32) (count.read s).toNat
          cf := inst.carry
            (inst.mixed s.op0 ((count.rotVal field).toNat % 2 ^ 32) (count.read s).toNat)
          of := of }
    else ∃ e, inst.doTranslate (w := w) field count = .error e := by
  have hwidth : 0 < w ∧ w ≤ 64 := by omega
  generalize hrot : count.rotVal field = rotVal
  rw [doTranslate, hrot]
  by_cases hzero : rotVal = 0
  · rw [if_pos hzero, if_pos hzero]
    rfl
  rw [if_neg hzero, if_neg hzero]
  by_cases hmem : 1 ≤ rotVal.toNat % 2 ^ 32 ∧ rotVal.toNat % 2 ^ 32 ≤ w
  · rw [if_pos hmem, inst.res_of_mem hwidth _ _ hmem, ok_bind, inst.lastBit_eq hwidth, ok_bind]
    obtain ⟨l, hl, hcases⟩ := inst.writeOverflow_eq hw _ _ rotVal
    rw [hl]
    refine ⟨_, rfl, fun s => ?_⟩
    obtain rfl | ⟨of, rfl⟩ := hcases
    · refine ⟨s.of, ?_⟩
      simp [runActions, ShiftState.setFlag, ofBool_beq_one]
    · refine ⟨of s == 1#1, ?_⟩
      simp [runActions, ShiftState.setFlag, ofBool_beq_one]
  · rw [if_neg hmem]
    obtain ⟨e, he⟩ := inst.res_of_not_mem hwidth ShiftState.op0 count.read hmem
    exact ⟨e, by rw [he]; rfl⟩

/-! ## When the rotations are right -/

/-- The masked count and the whole of it are the same number of places. -/
theorem maskedCount_mod (hw : w ∈ gprWidths) (b : BitVec 8) :
    maskedCount w b % w = b.toNat % w := by
  rw [maskedCount]
  simp only [gprWidths, List.mem_cons, List.not_mem_nil, or_false] at hw
  rcases hw with rfl | rfl | rfl | rfl
  · exact Nat.mod_mod_of_dvd _ (by decide)
  · exact Nat.mod_mod_of_dvd _ (by decide)
  · exact Nat.mod_mod _ _
  · exact Nat.mod_mod _ _

theorem result_mod (inst : RotateInst) (v : BitVec w) {i j : ℕ} (h : i % w = j % w) :
    inst.result v i = inst.result v j := by
  cases inst with
  | ROR => rw [result, result, ← BitVec.rotateRight_mod_eq_rotateRight, h,
      BitVec.rotateRight_mod_eq_rotateRight]
  | ROL => rw [result, result, ← BitVec.rotateLeft_mod_eq_rotateLeft, h,
      BitVec.rotateLeft_mod_eq_rotateLeft]

theorem mixed_width (inst : RotateInst) (v : BitVec w) (count : ℕ) :
    inst.mixed v w count = v := by
  cases inst with
  | ROR => rw [mixed, Nat.sub_self, insertField_all]
  | ROL => rw [mixed, Nat.sub_self, BitVec.ushiftRight_zero, insertField_all]

/-- With as many bits put in as the operand is shifted by, it is rotated. -/
theorem mixed_self (inst : RotateInst) {count : ℕ} (h : count < w) (v : BitVec w) :
    inst.mixed v count count = inst.result v count := by
  refine BitVec.eq_of_getLsbD_eq fun i hi => ?_
  cases inst with
  | ROR =>
    rw [getLsbD_mixed_ror h.le hi, result, BitVec.getLsbD_rotateRight_of_lt h, decide_eq_true hi,
      Bool.true_and]
    by_cases hle : w - count ≤ i
    · rw [if_pos hle, decide_eq_false (by omega), cond_false]
    · rw [if_neg hle, decide_eq_true (by omega), cond_true]
  | ROL =>
    rw [getLsbD_mixed_rol hi, result, BitVec.getLsbD_rotateLeft_of_le h, decide_eq_true hi,
      Bool.true_and]
    by_cases hlt : i < count
    · rw [if_pos hlt, decide_eq_true hlt, cond_true]
    · rw [if_neg hlt, decide_eq_false hlt, cond_false, Bool.not_false, Bool.true_and]

/-- The operand is rotated by `count` exactly if it comes back or as many bits are put in. -/
theorem mixed_eq_result_iff (inst : RotateInst) {len count : ℕ} (h : 1 ≤ len ∧ len ≤ w) :
    (∀ v : BitVec w, inst.mixed v len count = inst.result v count) ↔
      if len = w then w ∣ count else count = len := by
  have hlt : count % w < w := Nat.mod_lt _ (by omega)
  have hmod : ∀ v : BitVec w, inst.result v count = inst.result v (count % w) := fun v =>
    inst.result_mod v (Nat.mod_mod _ _).symm
  by_cases hall : len = w
  · subst hall
    rw [if_pos rfl, Nat.dvd_iff_mod_eq_zero]
    constructor
    · -- The bit that comes to the lowest place is the lowest one.
      intro hrot
      have hbit : ∀ v : BitVec len, v.getLsbD 0 = (inst.result v (count % len)).getLsbD 0 := by
        intro v
        rw [← hmod, ← hrot, mixed_width]
      by_contra hne
      cases inst with
      | ROR =>
        refine hne (ShiftInst.eq_of_getLsbD (w := len) (i := 0) (by omega) fun v => ?_).symm
        rw [hbit, result, BitVec.getLsbD_rotateRight_of_lt hlt, decide_eq_true (by omega),
          cond_true, Nat.add_zero]
      | ROL =>
        have hpos : len - count % len = 0 := by
          refine (ShiftInst.eq_of_getLsbD (w := len) (i := 0) (by omega) fun v => ?_).symm
          rw [hbit, result, BitVec.getLsbD_rotateLeft_of_le hlt, decide_eq_true (by omega),
            cond_true, Nat.add_zero]
        omega
    · intro hzero v
      rw [hmod, hzero, mixed_width]
      cases inst with
      | ROR => simp [result, BitVec.rotateRight, BitVec.rotateRightAux]
      | ROL => simp [result, BitVec.rotateLeft, BitVec.rotateLeftAux, BitVec.ushiftRight_eq_zero]
  rw [if_neg hall]
  constructor
  · intro hrot
    cases inst with
    | ROR =>
      -- The top bit says how many places the bits went, the one below those put in how far.
      have htop : len - 1 = if count % w = 0 then w - 1 else count % w - 1 := by
        refine ShiftInst.eq_of_getLsbD (w := w) (by omega) fun v => ?_
        have hbit := congrArg (BitVec.getLsbD · (w - 1)) ((hrot v).trans (hmod v))
        simp only [result] at hbit
        rw [getLsbD_mixed_ror h.2 (by omega), if_pos (by omega),
          BitVec.getLsbD_rotateRight_of_lt hlt, show w - 1 - (w - len) = len - 1 by omega,
          decide_eq_true (show w - 1 < w by omega), Bool.true_and] at hbit
        rw [hbit]
        split_ifs with hzero
        · rw [hzero, decide_eq_true (by omega), cond_true, Nat.zero_add]
        · rw [decide_eq_false (by omega), cond_false]
          congr 1
          omega
      have hlen : count % w = len := by
        split_ifs at htop <;> omega
      have hnext : w - 1 = count + (w - len - 1) := by
        refine ShiftInst.eq_of_getLsbD (w := w) (by omega) fun v => ?_
        have hbit := congrArg (BitVec.getLsbD · (w - len - 1)) ((hrot v).trans (hmod v))
        simp only [result] at hbit
        rw [getLsbD_mixed_ror h.2 (by omega), if_neg (by omega),
          BitVec.getLsbD_rotateRight_of_lt hlt, decide_eq_true (by omega), cond_true, hlen,
          show len + (w - len - 1) = w - 1 by omega] at hbit
        exact hbit.symm
      omega
    | ROL =>
      have hlow : w - len = if count % w = 0 then 0 else w - count % w := by
        refine ShiftInst.eq_of_getLsbD (w := w) (by omega) fun v => ?_
        have hbit := congrArg (BitVec.getLsbD · 0) ((hrot v).trans (hmod v))
        simp only [result] at hbit
        rw [getLsbD_mixed_rol (by omega), if_pos (by omega), Nat.add_zero,
          BitVec.getLsbD_rotateLeft_of_le hlt, decide_eq_true (show 0 < w by omega),
          Bool.true_and] at hbit
        rw [hbit]
        split_ifs with hzero
        · rw [hzero, decide_eq_false (by omega), cond_false]
        · rw [decide_eq_true (by omega), cond_true, Nat.add_zero]
      have hlen : count % w = len := by
        split_ifs at hlow <;> omega
      have hle : len ≤ count := hlen ▸ Nat.mod_le _ _
      by_contra hne
      have hbit := congrArg (BitVec.getLsbD · len)
        ((hrot (BitVec.twoPow w 0)).trans (hmod _))
      simp only [result] at hbit
      rw [getLsbD_mixed_rol (by omega), if_neg (by omega), decide_eq_true (by omega), Bool.not_true,
        Bool.false_and, BitVec.getLsbD_rotateLeft_of_le hlt, decide_eq_false (by omega), cond_false,
        decide_eq_true (by omega), Bool.true_and, hlen, Nat.sub_self, BitVec.getLsbD_twoPow] at hbit
      simp at hbit
      omega
  · rintro rfl v
    exact inst.mixed_self (by omega) v

/-- Put in at one end and then at the other, the operand comes back exactly if all of its bits are
put in or as many as it is shifted by. -/
theorem mixed_mixed_iff {len count : ℕ} (h : 1 ≤ len ∧ len ≤ w) :
    (∀ v : BitVec w, ROR.mixed (ROL.mixed v len count) len count = v) ↔
      len = w ∨ count = len := by
  by_cases hall : len = w
  · subst hall
    refine iff_of_true (fun v => ?_) (.inl rfl)
    rw [mixed_width, mixed_width]
  constructor
  · intro hback
    refine .inr ?_
    by_contra hne
    rcases Nat.lt_or_gt_of_ne hne with hlt | hgt
    · have hlow : w - len + count = 0 := by
        refine ShiftInst.eq_of_getLsbD (w := w) (by omega) fun v => ?_
        have hbit := congrArg (BitVec.getLsbD · 0) (hback v)
        rw [getLsbD_mixed_ror h.2 (by omega), if_neg (by omega), Nat.add_zero,
          getLsbD_mixed_rol (by omega), if_pos hlt] at hbit
        exact hbit
      omega
    · have hbit := congrArg (BitVec.getLsbD · (w - len - 1))
        (hback (BitVec.twoPow w (w - len - 1)))
      rw [getLsbD_mixed_ror h.2 (by omega), if_neg (by omega), BitVec.getLsbD_of_ge _ _ (by omega),
        BitVec.getLsbD_twoPow] at hbit
      simp at hbit
      omega
  · rintro (rfl | rfl) v
    · exact absurd rfl hall
    have hlt : count < w := by omega
    refine BitVec.eq_of_getLsbD_eq fun i hi => ?_
    rw [getLsbD_mixed_ror h.2 hi]
    by_cases hle : w - count ≤ i
    · rw [if_pos hle, getLsbD_mixed_rol (by omega), if_pos (by omega)]
      congr 1
      omega
    · rw [if_neg hle, getLsbD_mixed_rol (by omega), if_neg (by omega), decide_eq_false (by omega)]
      simp

/-- A state with this operand and flag, and `b` in `CL`. -/
def countState (v : BitVec w) (b : BitVec 8) (cf : Bool) : ShiftState w :=
  ⟨v, 0, b, false, false, cf, false⟩

theorem read_countState {count : CountOperand} {b : BitVec 8} (hb : count.Has b) (v : BitVec w)
    (cf : Bool) : count.read (countState v b cf) = b := by
  cases count with
  | imm b' => exact hb
  | cl => rfl

theorem right_iff (inst : RotateInst) (hw : w ∈ gprWidths) (field : BitVec 64)
    {count : CountOperand} {b : BitVec 8} (hb : count.Has b) :
    inst.Right field count w b ↔ rotateFits (count.rotVal field) w b := by
  have hbound := le_of_mem_gprWidths hw
  have hcode := inst.doTranslate_spec (w := w) (by omega) field count
  rw [Right, rotateFits]
  generalize count.rotVal field = rotVal at hcode ⊢
  by_cases hzero : rotVal = 0
  · rw [if_pos hzero] at hcode ⊢
    simp only [hcode, Except.ok.injEq, exists_eq_left', runActions, Executes]
    constructor
    · intro hright
      by_contra hne
      -- The lowest or the top bit of zero is not what `CF` is here.
      have hcf := (hright (countState 0 b true) (read_countState hb _ _)).2
      rw [if_neg hne] at hcf
      cases inst <;> simp [countState, carry, result, BitVec.msb_eq_getLsbD_last] at hcf
    · intro hcount s _
      rw [hcount, if_pos rfl]
      refine ⟨?_, rfl⟩
      cases inst with
      | ROR => simp [result, BitVec.rotateRight, BitVec.rotateRightAux]
      | ROL => simp [result, BitVec.rotateLeft, BitVec.rotateLeftAux, BitVec.ushiftRight_eq_zero]
  rw [if_neg hzero] at hcode ⊢
  by_cases hmem : 1 ≤ rotVal.toNat % 2 ^ 32 ∧ rotVal.toNat % 2 ^ 32 ≤ w
  · rw [if_pos hmem] at hcode
    obtain ⟨code, hcode, hrun⟩ := hcode
    simp only [hcode, Except.ok.injEq, exists_eq_left', Executes]
    have hresult : ∀ v : BitVec w, inst.result v (maskedCount w b) = inst.result v b.toNat :=
      fun v => inst.result_mod v (maskedCount_mod hw b)
    have hdvd : w ∣ maskedCount w b ↔ w ∣ b.toNat := by
      rw [Nat.dvd_iff_mod_eq_zero, Nat.dvd_iff_mod_eq_zero, maskedCount_mod hw]
    rw [hdvd, ← inst.mixed_eq_result_iff hmem]
    constructor
    · intro hright
      have hmixed : ∀ v : BitVec w,
          inst.mixed v (rotVal.toNat % 2 ^ 32) b.toNat = inst.result v b.toNat := by
        intro v
        have hread := read_countState hb v false
        obtain ⟨of, hof⟩ := hrun (countState v b false)
        have hop0 := (hright _ hread).1
        rw [hof, hread, hresult] at hop0
        exact hop0
      refine ⟨fun hcount => ?_, hmem, hmixed⟩
      have hread := read_countState (w := w) hb 0 true
      obtain ⟨of, hof⟩ := hrun (countState 0 b true)
      have hcf := (hright _ hread).2
      rw [hof, hread, if_pos hcount, hmixed, ← hresult, hcount] at hcf
      cases inst <;> simp [countState, carry, result, BitVec.msb_eq_getLsbD_last] at hcf
    · rintro ⟨hcount, -, hmixed⟩ s hs
      obtain ⟨of, hof⟩ := hrun s
      rw [hof, hs, if_neg hcount, hmixed, hresult]
      exact ⟨rfl, rfl⟩
  · rw [if_neg hmem] at hcode
    obtain ⟨e, hcode⟩ := hcode
    refine iff_of_false ?_ fun h => hmem h.2.1
    rintro ⟨code, hok, -⟩
    rw [hcode] at hok
    cases hok

theorem restores_iff (hw : w ∈ gprWidths) (field : BitVec 64) {count : CountOperand}
    {b : BitVec 8} (hb : count.Has b) :
    Restores field count w b ↔ restoreFits (count.rotVal field) w b := by
  have hbound := le_of_mem_gprWidths hw
  have hleft := ROL.doTranslate_spec (w := w) (by omega) field count
  have hright := ROR.doTranslate_spec (w := w) (by omega) field count
  rw [Restores, restoreFits]
  generalize count.rotVal field = rotVal at hleft hright ⊢
  by_cases hzero : rotVal = 0
  · rw [if_pos hzero] at hleft hright
    exact iff_of_true ⟨_, _, hleft, hright, fun s _ => rfl⟩ (.inl hzero)
  rw [if_neg hzero] at hleft hright
  by_cases hmem : 1 ≤ rotVal.toNat % 2 ^ 32 ∧ rotVal.toNat % 2 ^ 32 ≤ w
  · rw [if_pos hmem] at hleft hright
    obtain ⟨left, hleft, hrunLeft⟩ := hleft
    obtain ⟨right, hright, hrunRight⟩ := hright
    have hback : ∀ s : ShiftState w, count.read s = b →
        (runActions (runActions s left s) right (runActions s left s)).op0 =
          ROR.mixed (ROL.mixed s.op0 (rotVal.toNat % 2 ^ 32) b.toNat) (rotVal.toNat % 2 ^ 32)
            b.toNat := by
      intro s hs
      obtain ⟨of, hof⟩ := hrunLeft s
      -- A rotation leaves the count as it is.
      have hread : count.read (runActions s left s) = b := by
        rw [hof]
        cases count with
        | imm b' => exact hs
        | cl => exact hs
      obtain ⟨of', hof'⟩ := hrunRight (runActions s left s)
      rw [hof', hread, hof, hs]
    simp only [hleft, hright, Except.ok.injEq, exists_and_left, exists_eq_left']
    have hor : rotVal = 0 ∨ (1 ≤ rotVal.toNat % 2 ^ 32 ∧ rotVal.toNat % 2 ^ 32 ≤ w) ∧
        (rotVal.toNat % 2 ^ 32 = w ∨ b.toNat = rotVal.toNat % 2 ^ 32) ↔
          rotVal.toNat % 2 ^ 32 = w ∨ b.toNat = rotVal.toNat % 2 ^ 32 :=
      (or_iff_right hzero).trans (and_iff_right hmem)
    rw [hor, ← mixed_mixed_iff hmem]
    constructor
    · intro hall v
      have hread := read_countState hb v false
      exact (hback _ hread).symm.trans (hall _ hread)
    · intro hall s hs
      rw [hback s hs, hall]
  · rw [if_neg hmem] at hleft
    obtain ⟨e, hleft⟩ := hleft
    refine iff_of_false ?_ fun h => hmem (h.resolve_left hzero).1
    rintro ⟨left, right, hok, -⟩
    rw [hleft] at hok
    cases hok

/-- A rotation is right exactly if what is taken for its count fits. -/
theorem rotates_right_iff (hw : w ∈ gprWidths) (field : BitVec 64) {count : CountOperand}
    {b : BitVec 8} (hb : count.Has b) :
    (∀ inst : RotateInst, inst.Right field count w b ↔ rotateFits (count.rotVal field) w b) ∧
      (Restores field count w b ↔ restoreFits (count.rotVal field) w b) :=
  ⟨fun inst => inst.right_iff hw field hb, restores_iff hw field hb⟩

/-- Operands of 32 bits, and the immediate 5. -/
theorem rotates_right_five :
    (∀ inst : RotateInst, inst.Right 0 (.imm 5) 32 5) ∧ Restores 0 (.imm 5) 32 5 := by
  obtain ⟨hright, hrestores⟩ :=
    @rotates_right_iff 32 (by decide) 0 (.imm 5) 5 rfl
  refine ⟨fun inst => (hright inst).2 ?_, hrestores.2 ?_⟩
  · rw [rotateFits]
    decide
  · rw [restoreFits]
    decide

/-- `rol` of a byte by nine, which is a rotation by one. -/
theorem not_rotates_right : ¬ROL.Right 0 (.imm 9) 8 9 := by
  rintro ⟨code, hcode, -⟩
  cases hcode

end RotateInst

end Arancini.X86
