import Arancini.Lib.Field
import Arancini.Riscv.Shift
import Arancini.Riscv.WriteReg

/-!
# Bit fields on RISC-V

`materialise_bit_extract` and `materialise_bit_insert` read and write a field of a value of up to
128 bits, and the vector operations use the same sequences for elements of 32 bits. A field has to
lie in one of the two registers.

The mask of an insertion is computed when the code is generated, from the position the field has in
the whole value. For a field of 64 bits and for a field of the upper register this shifts a number
of 64 bits by 64 or more, and C++ does not say what comes out of that. An extraction of 64 bits that
is not a matter of names shifts right by zero, which the assembler rejects.
-/

namespace Arancini.Riscv

/-- The host registers of a value : one, or two for 128 bits, which may be a vector. -/
inductive Regs
  | one (r : TypedRegister)
  | two (elementWidth : ℕ) (r : RegPair)

/-- The registers hold the value. A flag is extended with zeros. -/
def Regs.Holds {w : ℕ} (v : BitVec w) : Regs → Prop
  | one r =>
    w ∈ widths ∧ r.Carries v ∨ w = 1 ∧ r.val = v.setWidth 64 ∧ (r.width = 1 ∨ r.width ∈ widths)
  | two _ r => w = 128 ∧ r.value.setWidth w = v

/-- The value of the width in the registers. -/
def Regs.value (w : ℕ) : Regs → BitVec w
  | one r => r.val.setWidth w
  | two _ r => r.value.setWidth w

theorem Regs.Holds.value_eq {w : ℕ} {v : BitVec w} {src : Regs} (h : src.Holds v) :
    src.value w = v := by
  cases src with
  | one r =>
    rcases h with ⟨-, h⟩ | ⟨rfl, h, -⟩
    · exact h.setWidth_eq
    · simp [value, h]
  | two e r => exact h.2

/-- A shift by an immediate. -/
def withShamt (shift : BitVec 64 → ℕ → BitVec 64) (x : BitVec 64) (amt : ℤ) :
    Except String (BitVec 64) := do
  let n ← shamt 64 amt
  return shift x n

theorem withShamt_of_mem (shift : BitVec 64 → ℕ → BitVec 64) (x : BitVec 64) {n : ℕ} {amt : ℤ}
    (h : amt = n) (hpos : 0 < n) (hlt : n < 64) : withShamt shift x amt = .ok (shift x n) := by
  rw [withShamt, h, shamt_of_mem (by omega), ok_bind, Int.toNat_natCast]
  rfl

/-- A value of less than 128 bits is in one register. -/
theorem Regs.Holds.eq_one {w : ℕ} {v : BitVec w} {src : Regs} (h : src.Holds v) (hw : w ≠ 128) :
    ∃ r, src = .one r := by
  cases src with
  | one r => exact ⟨r, rfl⟩
  | two e r => exact absurd h.1 hw

/-! ## Extraction -/

/-- `allocate_register` has registers for these widths. -/
def allocatable (width : ℕ) : Bool :=
  width ∈ [1, 8, 16, 32, 64, 128]

/-- The sequence for a field of a register. -/
def extractReg (src1 : BitVec 64) (start length : ℕ) : Except String TypedRegister :=
  if start = 0 ∧ length = 32 then .ok ⟨sextw src1, 64, 32⟩
  else do
    let temp ← if length + start < 64 then withShamt slli src1 (64 - (start + length))
      else pure src1
    let out ← withShamt srai temp (64 - length)
    return ⟨out, 64, length⟩

/-- `bit_extract` of `bitwise.h`, into a register of the width `length`. -/
def Regs.bitExtract (src : Regs) (start length : ℕ) : Except String TypedRegister :=
  match src with
  | .one r =>
    if length = 1 ∧ r.width ∈ widths then
      if start = 0 then .ok ⟨r.val &&& 1, 64, 0⟩
      else if start = 63 then .ok ⟨srli r.val 63, 64, 0⟩
      else if start = 31 then .ok ⟨srliw r.val 31, 64, 0⟩
      else do
        let out ← withShamt srli r.val start
        return ⟨out &&& 1, 64, 0⟩
    else if length ∉ widths then throw "Unsupported bit extract width."
    else if start < 64 ∧ start + length > 64 then
      throw "Register crossing bit extract unsupported."
    else extractReg r.val (if start ≥ 64 then start - 64 else start) length
  | .two _ r =>
    if length ∉ widths then throw "Unsupported bit extract width."
    else if start < 64 ∧ start + length > 64 then
      throw "Register crossing bit extract unsupported."
    else extractReg (if start < 64 then r.reg1 else r.reg2)
      (if start ≥ 64 then start - 64 else start) length

/-- `materialise_bit_extract`. Half of a scalar of 128 bits is one of its registers. -/
def materialiseBitExtract (src : Regs) (start length : ℕ) : Except String TypedRegister :=
  let emit : Except String TypedRegister :=
    if allocatable length then Regs.bitExtract src start length
    else throw "Invalid type for register allocation"
  match src with
  | .one _ => emit
  | .two elementWidth r =>
    if elementWidth = 128 ∧ length = 64 ∧ start = 0 then .ok ⟨r.reg1, 64, 0⟩
    else if elementWidth = 128 ∧ length = 64 ∧ start = 64 then .ok ⟨r.reg2, 64, 0⟩
    else emit

/-! ## Insertion -/

/-- `<<` of 64 bits when the code is generated. From 64 on C++ leaves it undefined, and `wild` is
what the compiled code does. -/
def shiftedBy (wild : BitVec 64 → ℕ → BitVec 64) (x : BitVec 64) (n : ℕ) : BitVec 64 :=
  if n < 64 then x <<< n else wild x n

/-- The mask `bit_insert` keeps of the source. It uses the position `to` in the whole value. -/
def insertMask (wild : BitVec 64 → ℕ → BitVec 64) (pos length : ℕ) : BitVec 64 :=
  ~~~shiftedBy wild (shiftedBy wild 1 length - 1) pos

/-- A field at the upper end of a register is moved to its place, if that is not there. -/
def moveDown (temp : BitVec 64) (pos length : ℕ) : Except String (BitVec 64) :=
  if length + pos ≠ 64 then withShamt srli temp (64 - (length + pos)) else .ok temp

/-- The sequence for a field of a register. -/
def insertReg (mask src1 bits : BitVec 64) (pos length : ℕ) : Except String (BitVec 64) :=
  if pos = 0 ∧ isITypeImm mask.toInt then
    let temp := bits &&& ~~~mask
    let out := src1 &&& mask
    .ok (out ||| temp)
  else do
    let out := src1 &&& mask
    let temp ← withShamt slli bits (64 - length)
    let temp ← moveDown temp pos length
    return out ||| temp

/-- `bit_insert` of `bitwise.h`. In a pair the other register stays as it is. -/
def Regs.bitInsert (wild : BitVec 64 → ℕ → BitVec 64) (w : ℕ) (src : Regs) (bits : BitVec 64)
    (pos length : ℕ) : Except String Regs :=
  if pos < 64 ∧ pos + length > 64 then throw "Register crossing bit insert unsupported."
  else
    let mask := insertMask wild pos length
    match src with
    | .one r => do
      let out ← insertReg mask r.val bits (if pos ≥ 64 then pos - 64 else pos) length
      return .one { TypedRegister.fresh w with val := out }
    | .two e r =>
      if pos < 64 then do
        let out ← insertReg mask r.reg1 bits pos length
        return .two e ⟨out, r.reg2⟩
      else do
        let out ← insertReg mask r.reg2 bits (pos - 64) length
        return .two e ⟨r.reg1, out⟩

/-- `materialise_bit_insert` of bits of the width `wb` into a value of the width `w`. -/
def materialiseBitInsert (wild : BitVec 64 → ℕ → BitVec 64) (w wb : ℕ) (src bits : Regs)
    (pos length : ℕ) : Except String Regs :=
  match src, bits with
  | .two e r, .one bits =>
    if e = 128 ∧ wb ∈ widths then
      if pos = 0 ∧ length = 64 then .ok (.two e ⟨bits.val, r.reg2⟩)
      else if pos = 64 ∧ length = 64 then .ok (.two e ⟨r.reg1, bits.val⟩)
      else if pos + length ≤ 64 then Regs.bitInsert wild w src bits.val pos length
      else if pos ≥ 64 then Regs.bitInsert wild w src bits.val pos length
      else throw "Unsupported bit insert arguments for 128 bit width."
    else throw "Unsupported bit insert width."
  | .one _, .one bits =>
    if w ∈ widths ∧ wb ∈ widths then Regs.bitInsert wild w src bits.val pos length
    else throw "Unsupported bit insert width."
  | _, _ => throw "Unsupported bit insert width."

/-! ## Elements of vectors -/

/-- `materialise_vector_extract` of a vector in a pair. -/
def materialiseVectorExtract (type : VectorType) (src : RegPair) (index : ℕ) :
    Except String TypedRegister :=
  if type.nrElements * type.elementWidth ≠ 128 then throw "Unsupported vector extract width"
  else match type.elementWidth with
    | 64 =>
      if index = 0 then .ok ⟨src.reg1, 64, 0⟩
      else if index = 1 then .ok ⟨src.reg2, 64, 0⟩
      else throw "Unsupported vector extract index"
    | 32 => Regs.bitExtract (.two 32 src) (32 * index) 32
    | _ => throw "Unsupported vector extract element width"

/-- `materialise_vector_insert` of an element into a vector in a pair. -/
def materialiseVectorInsert (wild : BitVec 64 → ℕ → BitVec 64) (type : VectorType) (src : RegPair)
    (index : ℕ) (insert : Regs) : Except String Regs :=
  if type.nrElements * type.elementWidth ≠ 128 then throw "Unsupported vector insert width"
  else match type.elementWidth, insert with
    | 128, _ =>
      if index = 0 then .ok insert else throw "Unsupported index for 512bit insert"
    | 64, .one r =>
      if index = 0 then .ok (.two 64 ⟨r.val, src.reg2⟩)
      else if index = 1 then .ok (.two 64 ⟨src.reg1, r.val⟩)
      else throw "Unsupported vector insert index"
    | 32, .one r =>
      if index < 4 then Regs.bitInsert wild 128 (.two 32 src) r.val (32 * index) 32
      else throw "Unsupported vector insert index"
    | _, _ => throw "Unsupported vector insert element width"

/-! ## When an extraction is right -/

section Extract

variable {start length : ℕ}

/-- A field that is less than a register. -/
theorem extractReg_eq (src1 : BitVec 64) (hpos : 0 < length) (hlt : length < 64)
    (h : start + length ≤ 64) :
    extractReg src1 start length =
      .ok ⟨(src1.extractLsb' start length).signExtend 64, 64, length⟩ := by
  unfold extractReg
  split
  · rename_i hword
    obtain ⟨rfl, rfl⟩ := hword
    rw [sextw, sext, BitVec.setWidth_eq_extractLsb' (by decide)]
  · have hshift := sshiftRight_shiftLeft_eq hpos h src1
    have hright : ∀ temp, withShamt srai temp (64 - length) = .ok (srai temp (64 - length)) :=
      fun temp => withShamt_of_mem srai temp (by omega) (by omega) (by omega)
    simp only [hright]
    by_cases htop : length + start < 64
    · have hleft : withShamt slli src1 (64 - (start + length)) =
          .ok (slli src1 (64 - (start + length))) :=
        withShamt_of_mem slli src1 (by omega) (by omega) (by omega)
      rw [if_pos htop, hleft, ← hshift]
      rfl
    · rw [show 64 - (start + length) = 0 by omega, BitVec.shiftLeft_zero] at hshift
      rw [if_neg htop, ← hshift]
      rfl

/-- The extraction in the code for the accumulator, which is of a field inside the register. -/
theorem extractReg_eq_bitExtract (r : TypedRegister) (hpos : 0 < length) (hlt : length < 64)
    (h : start + length ≤ 64) :
    extractReg r.val start length = .ok (bitExtract length start length r) := by
  rw [extractReg_eq r.val hpos hlt h, bitExtract]
  split
  · rename_i hword
    obtain ⟨rfl, rfl⟩ := hword
    rw [sextw, sext, BitVec.setWidth_eq_extractLsb' (by decide)]
    rfl
  · rw [← sshiftRight_shiftLeft_eq hpos h]
    by_cases htop : length + start < 64
    · rw [if_pos htop]
      rfl
    · rw [if_neg htop, show 64 - (start + length) = 0 by omega, BitVec.shiftLeft_zero]
      rfl

/-- A field that is a whole register is shifted by zero. -/
theorem extractReg_64 (src1 : BitVec 64) : ∃ e, extractReg src1 0 64 = .error e :=
  ⟨_, rfl⟩

/-- One bit of a register, extended with zeros. -/
theorem bitExtract_flag {r : TypedRegister} (hr : r.width ∈ widths) (hstart : start < 64) :
    ∃ out, Regs.bitExtract (.one r) start 1 = .ok out ∧
      out.val = (r.val.extractLsb' start 1).setWidth 64 := by
  have hone : ∀ x : BitVec 64, x &&& 1 = (x.setWidth 1).setWidth 64 := by
    intro x
    refine BitVec.eq_of_getLsbD_eq fun i _ => ?_
    by_cases hi : i = 0
    · simp [hi]
    · simp [hi, show ¬i < 1 by omega]
  have hbit : ∀ n : ℕ, (r.val >>> n).setWidth 1 = r.val.extractLsb' n 1 := by
    intro n
    ext i hi
    simp
  simp only [Regs.bitExtract, hr, and_self, if_true]
  split_ifs with h0 h63 h31
  · subst h0
    exact ⟨_, rfl, by rw [← hbit 0, BitVec.ushiftRight_zero]; exact hone r.val⟩
  · subst h63
    refine ⟨_, rfl, ?_⟩
    refine BitVec.eq_of_getLsbD_eq fun i _ => ?_
    by_cases hi : i = 0
    · simp [hi, srli]
    · simp [srli, show ¬i < 1 by omega, BitVec.getLsbD_of_ge r.val (63 + i) (by omega)]
  · subst h31
    refine ⟨_, rfl, ?_⟩
    have hmsb : (r.val.setWidth 32 >>> 31).msb = false := by
      rw [BitVec.msb_eq_getLsbD_last]
      simp
    rw [srliw, BitVec.signExtend_eq_setWidth_of_msb_false hmsb]
    refine BitVec.eq_of_getLsbD_eq fun i _ => ?_
    by_cases hi : i = 0
    · simp [hi]
    · simp [show ¬i < 1 by omega, show ¬31 + i < 32 by omega]
  · rw [withShamt_of_mem srli r.val rfl (by omega) hstart]
    exact ⟨_, rfl, by rw [hone, srli, hbit]⟩

/-- The result of an extraction is the field. -/
def ExtractRight {w : ℕ} (v : BitVec w) (start length : ℕ) (res : Except String TypedRegister) :
    Prop :=
  ∃ out, res = .ok out ∧ out.val.setWidth length = v.extractLsb' start length

theorem not_extractRight_of_error {w : ℕ} {v : BitVec w} {res : Except String TypedRegister}
    (h : ∃ e, res = .error e) : ¬ExtractRight v start length res := by
  rintro ⟨out, hres, -⟩
  obtain ⟨e, rfl⟩ := h
  cases hres

/-- The fields there is code for : a bit or a field of less than 64 bits of one register, and a
field of one register of a pair, which may be the whole register of a scalar. -/
def extractFits (src : Regs) (start length : ℕ) : Prop :=
  match src with
  | .one r => if length = 1 then r.width ∈ widths else length ∈ widths ∧ length < 64
  | .two e _ => length ∈ widths ∧ (start < 64 → start + length ≤ 64) ∧ (length = 64 → e = 128)

theorem extractRight_reg {w : ℕ} {v : BitVec w} {src1 : BitVec 64} {start' : ℕ}
    (hlen : length ∈ widths) (hlt : length < 64) (h : start' + length ≤ 64)
    (hfield : src1.extractLsb' start' length = v.extractLsb' start length) :
    ExtractRight v start length (extractReg src1 start' length) := by
  have hpos := (le_of_mem_widths hlen).1
  refine ⟨_, extractReg_eq src1 hpos hlt h, ?_⟩
  rw [setWidth_signExtend hlt.le, hfield]

theorem allocatable_of_mem_widths (h : length ∈ widths) : allocatable length = true := by
  simp only [widths, List.mem_cons, List.not_mem_nil, or_false] at h
  simp only [allocatable, List.mem_cons, decide_eq_true_eq]
  omega

/-- A width without registers, and a width `bit_extract` does not know, are rejected. -/
theorem emit_error {res : Except String TypedRegister} (h : ∃ e, res = .error e) :
    ∃ e, (if allocatable length then res
      else throw "Invalid type for register allocation") = .error e := by
  split
  · exact h
  · exact ⟨_, rfl⟩

theorem extractRight_one_iff {w : ℕ} {v : BitVec w} {r : TypedRegister}
    (hsrc : (Regs.one r).Holds v) (hrange : start + length ≤ w) :
    ExtractRight v start length (materialiseBitExtract (.one r) start length) ↔
      extractFits (.one r) start length := by
  have hw : w ≤ 64 := by
    rcases hsrc with ⟨hw, -⟩ | ⟨rfl, -⟩
    · exact (le_of_mem_widths hw).2
    · decide
  have hfield : r.val.extractLsb' start length = v.extractLsb' start length := by
    rw [← hsrc.value_eq, Regs.value, BitVec.extractLsb'_setWidth_of_le hrange]
  simp only [materialiseBitExtract, extractFits]
  by_cases hone : length = 1
  · subst hone
    rw [if_pos rfl]
    by_cases hr : r.width ∈ widths
    · obtain ⟨out, hout, hval⟩ := bitExtract_flag hr (show start < 64 by omega)
      refine iff_of_true ⟨out, hout, ?_⟩ hr
      rw [hval, hfield, BitVec.setWidth_setWidth_of_le _ (by decide), BitVec.setWidth_eq]
    · have herr : ∃ e, Regs.bitExtract (.one r) start 1 = .error e := by
        simp only [Regs.bitExtract, hr, and_false, if_false]
        exact ⟨_, rfl⟩
      exact iff_of_false (not_extractRight_of_error (emit_error herr)) hr
  · rw [if_neg hone]
    by_cases hlen : length ∈ widths
    · have hpos := (le_of_mem_widths hlen).1
      have hcode : Regs.bitExtract (.one r) start length = extractReg r.val start length := by
        simp only [Regs.bitExtract, hone, false_and, if_false, hlen, not_true_eq_false]
        rw [if_neg (by omega), if_neg (by omega)]
      rw [if_pos (allocatable_of_mem_widths hlen), hcode]
      by_cases hlt : length < 64
      · exact iff_of_true (extractRight_reg hlen hlt (by omega) hfield) ⟨hlen, hlt⟩
      · obtain rfl : length = 64 := by
          have := (le_of_mem_widths hlen).2
          omega
        obtain rfl : start = 0 := by omega
        exact iff_of_false (not_extractRight_of_error (extractReg_64 r.val)) fun h => hlt h.2
    · have herr : ∃ e, Regs.bitExtract (.one r) start length = .error e := by
        simp only [Regs.bitExtract, hone, hlen, false_and, if_false, not_false_eq_true, if_true]
        exact ⟨_, rfl⟩
      exact iff_of_false (not_extractRight_of_error (emit_error herr)) fun h => hlen h.1

/-- `bit_extract` of a field of one register of a pair. -/
theorem bitExtract_two {e : ℕ} {r : RegPair} (hlen : length ∈ widths)
    (hcross : start < 64 → start + length ≤ 64) :
    Regs.bitExtract (.two e r) start length =
      if start < 64 then extractReg r.reg1 start length
      else extractReg r.reg2 (start - 64) length := by
  simp only [Regs.bitExtract, hlen, not_true_eq_false, if_false]
  rw [if_neg (by omega)]
  split
  · rw [if_neg (by omega)]
  · rw [if_pos (by omega)]

theorem extract_two_low {r : RegPair} (h : start + length ≤ 64) :
    r.value.extractLsb' start length = r.reg1.extractLsb' start length :=
  extract_append_low h

theorem extract_two_high {r : RegPair} (h : 64 ≤ start) :
    r.value.extractLsb' start length = r.reg2.extractLsb' (start - 64) length :=
  extract_append_high h

theorem extractRight_two_iff {e : ℕ} {r : RegPair} (hrange : start + length ≤ 128) :
    ExtractRight r.value start length (materialiseBitExtract (.two e r) start length) ↔
      extractFits (.two e r) start length := by
  simp only [materialiseBitExtract, extractFits]
  by_cases hlen : length ∈ widths
  · obtain ⟨hpos, hle⟩ := le_of_mem_widths hlen
    rw [if_pos (allocatable_of_mem_widths hlen)]
    by_cases hcross : start < 64 → start + length ≤ 64
    · rw [bitExtract_two hlen hcross]
      by_cases h64 : length = 64
      · subst h64
        have hhalf : start = 0 ∨ start = 64 := by omega
        rcases hhalf with rfl | rfl
        · by_cases he : e = 128
          · rw [if_pos ⟨he, rfl, rfl⟩]
            refine iff_of_true ⟨_, rfl, ?_⟩ ⟨hlen, hcross, fun _ => he⟩
            rw [extract_two_low (by decide)]
            simp
          · rw [if_neg (by tauto), if_neg (by omega), if_pos (by decide)]
            exact iff_of_false (not_extractRight_of_error (extractReg_64 r.reg1))
              fun h => he (h.2.2 rfl)
        · by_cases he : e = 128
          · rw [if_neg (by omega), if_pos ⟨he, rfl, rfl⟩]
            refine iff_of_true ⟨_, rfl, ?_⟩ ⟨hlen, hcross, fun _ => he⟩
            rw [extract_two_high (by decide)]
            simp
          · rw [if_neg (by omega), if_neg (by tauto), if_neg (by decide)]
            exact iff_of_false (not_extractRight_of_error (extractReg_64 r.reg2))
              fun h => he (h.2.2 rfl)
      · have hlt : length < 64 := by omega
        rw [if_neg (by omega), if_neg (by omega)]
        refine iff_of_true ?_ ⟨hlen, hcross, fun h => absurd h h64⟩
        split
        · exact extractRight_reg hlen hlt (by omega) (extract_two_low (by omega)).symm
        · exact extractRight_reg hlen hlt (by omega) (extract_two_high (by omega)).symm
    · have herr : ∃ e', Regs.bitExtract (.two e r) start length = .error e' := by
        simp only [Regs.bitExtract, hlen, not_true_eq_false, if_false]
        rw [if_pos (by omega)]
        exact ⟨_, rfl⟩
      rw [if_neg (by omega), if_neg (by omega)]
      exact iff_of_false (not_extractRight_of_error herr) fun h => hcross h.2.1
  · have herr : ∃ e', Regs.bitExtract (.two e r) start length = .error e' := by
      simp only [Regs.bitExtract, hlen, not_false_eq_true, if_true]
      exact ⟨_, rfl⟩
    have h64 : length ≠ 64 := by
      rintro rfl
      exact hlen (by decide)
    rw [if_neg (by omega), if_neg (by omega)]
    exact iff_of_false (not_extractRight_of_error (emit_error herr)) fun h => hlen h.1

end Extract

/-! ## When an insertion is right -/

section Insert

variable {mask : BitVec 64} {pos length : ℕ}

/-- A mask of a field that ends at a register is an immediate if the field is empty or all of the
register. -/
theorem isITypeImm_of_field (h : length = 0 ∨ length = 64) :
    isITypeImm (~~~fieldMask 64 0 length).toInt = true := by
  rcases h with rfl | rfl <;> decide

/-- The bits of the field, moved to its place by two shifts. -/
theorem shifts_eq_field (hpos : 0 < length) (h : pos + length ≤ 64) (bits : BitVec 64) :
    bits <<< (64 - length) >>> (64 - (length + pos)) =
      (bits.setWidth length).setWidth 64 <<< pos := by
  refine BitVec.eq_of_getLsbD_eq fun i hi => ?_
  simp only [BitVec.getLsbD_ushiftRight, BitVec.getLsbD_shiftLeft, BitVec.getLsbD_setWidth, hi,
    decide_true, Bool.true_and]
  by_cases hlow : i < pos
  · simp [hlow, show 64 - (length + pos) + i < 64 - length by omega]
  · by_cases hin : i < pos + length
    · simp [hlow, show 64 - (length + pos) + i < 64 by omega,
        show ¬64 - (length + pos) + i < 64 - length by omega, show i - pos < 64 by omega,
        show i - pos < length by omega,
        show 64 - (length + pos) + i - (64 - length) = i - pos by omega]
    · simp [show ¬64 - (length + pos) + i < 64 by omega, show ¬i - pos < length by omega]

/-- With the mask of the field the sequence inserts it. -/
theorem insertReg_eq (hmask : mask = ~~~fieldMask 64 pos length) (h : pos + length ≤ 64)
    (hlen : 0 < length ∧ length < 64 ∨ pos = 0) (src1 bits : BitVec 64) :
    insertReg mask src1 bits pos length = .ok (insertField src1 pos length bits) := by
  by_cases himm : pos = 0 ∧ isITypeImm mask.toInt
  · rw [insertReg, if_pos himm]
    have hpos := himm.1
    subst hpos hmask
    refine congrArg Except.ok (BitVec.eq_of_getLsbD_eq fun i hi => ?_)
    simp only [insertField, BitVec.not_not, BitVec.getLsbD_or, BitVec.getLsbD_and,
      BitVec.shiftLeft_zero, BitVec.getLsbD_setWidth, getLsbD_fieldMask hi, hi]
    simp [Bool.and_comm]
  · have hlen : 0 < length ∧ length < 64 := by
      by_contra hnot
      obtain rfl : pos = 0 := by tauto
      have hends : length = 0 ∨ length = 64 := by omega
      exact himm ⟨rfl, hmask ▸ isITypeImm_of_field hends⟩
    have hleft : withShamt slli bits (64 - length) = .ok (slli bits (64 - length)) :=
      withShamt_of_mem slli bits (by omega) (by omega) (by omega)
    have hmove : moveDown (slli bits (64 - length)) pos length =
        .ok ((bits.setWidth length).setWidth 64 <<< pos) := by
      rw [← shifts_eq_field hlen.1 h, moveDown]
      by_cases htop : length + pos = 64
      · rw [if_neg (not_not.2 htop), htop, Nat.sub_self, BitVec.ushiftRight_zero]
        rfl
      · rw [if_pos htop]
        exact withShamt_of_mem srli _ (by omega) (by omega) (by omega)
    rw [insertReg, if_neg himm, hleft, ok_bind, hmove, insertField, hmask]
    rfl

/-- What the sequence leaves of a source of ones, with no bits to insert. -/
theorem insertReg_ones (h : pos + length ≤ 64) {out : BitVec 64}
    (hout : insertReg mask (BitVec.allOnes 64) 0 pos length = .ok out) :
    out = mask ∧ (0 < length ∧ length < 64 ∨ pos = 0) := by
  by_cases himm : pos = 0 ∧ isITypeImm mask.toInt
  · rw [insertReg, if_pos himm] at hout
    refine ⟨?_, .inr himm.1⟩
    rw [← Except.ok.inj hout, BitVec.allOnes_and]
    simp
  · rw [insertReg, if_neg himm] at hout
    obtain ⟨temp, hleft, hrest⟩ := bind_eq_ok.1 hout
    obtain ⟨temp', hmove, hor⟩ := bind_eq_ok.1 hrest
    have hlen : 0 < length ∧ length < 64 := by
      by_contra hnot
      rw [withShamt, shamt_of_not_mem (by omega)] at hleft
      cases hleft
    rw [withShamt_of_mem slli 0 (show (64 - (length : ℤ)) = (64 - length : ℕ) by omega)
      (by omega) (by omega)] at hleft
    obtain rfl := Except.ok.inj hleft
    have hzero : temp' = 0 := by
      unfold moveDown at hmove
      split at hmove
      · obtain ⟨n, -, hmove⟩ := bind_eq_ok.1 hmove
        simpa [slli, srli] using (Except.ok.inj hmove).symm
      · simpa [slli] using (Except.ok.inj hmove).symm
    refine ⟨?_, .inl hlen⟩
    rw [← Except.ok.inj hor, BitVec.allOnes_and, hzero]
    simp

variable {wild : BitVec 64 → ℕ → BitVec 64}

/-- The mask is the one of the field where no shift is undefined. -/
theorem insertMask_eq (hpos : pos < 64) (hlen : length < 64) :
    insertMask wild pos length = ~~~fieldMask 64 pos length := by
  have hones : (1 : BitVec 64) <<< length - 1 = (BitVec.allOnes length).setWidth 64 := by
    have hlt : 2 ^ length < 2 ^ 64 := Nat.pow_lt_pow_right (by decide) hlen
    have hmod : 2 ^ length % 18446744073709551616 = 2 ^ length := Nat.mod_eq_of_lt hlt
    have hone : 1 ≤ 2 ^ length := Nat.one_le_two_pow
    refine BitVec.eq_of_toNat_eq ?_
    rw [BitVec.toNat_sub_of_le, toNat_setWidth_of_le hlen.le, BitVec.toNat_allOnes,
      BitVec.toNat_shiftLeft]
    · simp [Nat.shiftLeft_eq, hmod]
    · rw [BitVec.le_def, BitVec.toNat_shiftLeft]
      simp [Nat.shiftLeft_eq, hmod, hone]
  rw [insertMask, shiftedBy, if_pos hpos, shiftedBy, if_pos hlen, hones, fieldMask]

/-- A position in the register where it lies. -/
def inReg (pos : ℕ) : ℕ :=
  if pos < 64 then pos else pos - 64

/-- The sequence has the mask of the field, and instructions for its length. -/
def maskFits (wild : BitVec 64 → ℕ → BitVec 64) (pos length : ℕ) : Prop :=
  insertMask wild pos length = ~~~fieldMask 64 (inReg pos) length ∧
    (0 < length ∧ length < 64 ∨ inReg pos = 0)

/-- The width of an element. A scalar has one. -/
def Regs.elementWidth (w : ℕ) : Regs → ℕ
  | one _ => w
  | two e _ => e

/-- An insertion into values of the type gives the value with the field replaced, whatever is in
the registers. -/
def InsertRight (wild : BitVec 64 → ℕ → BitVec 64) (w e wb pos length : ℕ) : Prop :=
  ∀ (src bits : Regs) (v : BitVec w) (b : BitVec wb), src.Holds v → src.elementWidth w = e →
    bits.Holds b → ∃ out, materialiseBitInsert wild w wb src bits pos length = .ok out ∧
      out.value w = insertField v pos length b

/-- The fields there is code for : the bits are in a register and fill the field, a half of 128 bits
is a matter of names, and any other field lies in one register and has its mask. -/
def insertFits (wild : BitVec 64 → ℕ → BitVec 64) (w e wb pos length : ℕ) : Prop :=
  w ∈ 128 :: widths ∧ e = w ∧ wb ∈ widths ∧ length ≤ wb ∧
    (w = 128 ∧ length = 64 ∧ (pos = 0 ∨ pos = 64) ∨
      (pos < 64 → pos + length ≤ 64) ∧ maskFits wild pos length)

/-- Registers for every value of a width. -/
theorem exists_holds {w : ℕ} (hw : w ∈ 1 :: widths) (v : BitVec w) :
    ∃ r, (Regs.one r).Holds v := by
  refine ⟨⟨v.setWidth 64, w, 0⟩, ?_⟩
  rcases List.mem_cons.1 hw with rfl | hw
  · exact .inr ⟨rfl, rfl, .inl rfl⟩
  · refine .inl ⟨hw, carries_of_setWidth hw rfl ?_⟩
    rw [BitVec.setWidth_setWidth_of_le _ (le_of_mem_widths hw).2, BitVec.setWidth_eq]

/-- A register of ones holds the largest value of a width. -/
theorem holds_ones {w : ℕ} (hw : w ∈ widths) :
    (Regs.one ⟨BitVec.allOnes 64, w, 0⟩).Holds (BitVec.allOnes w) := by
  refine .inl ⟨hw, carries_of_setWidth hw rfl ?_⟩
  refine BitVec.eq_of_getLsbD_eq fun i hi => ?_
  have hle := (le_of_mem_widths hw).2
  rw [BitVec.getLsbD_setWidth, BitVec.getLsbD_allOnes, BitVec.getLsbD_allOnes]
  simp [hi, show i < 64 by omega]

theorem holds_zero {w : ℕ} (hw : w ∈ widths) : (Regs.one ⟨0, w, 0⟩).Holds (0 : BitVec w) :=
  .inl ⟨hw, carries_of_setWidth hw rfl (by simp)⟩

/-- Bits that are fewer than the field leave their extension in it. -/
theorem insertField_ones_ne {w wb : ℕ} (hwb : wb < length) (h : pos + length ≤ w) {v : BitVec w} :
    length ≤ 64 → insertField v pos length (BitVec.allOnes 64) ≠
      insertField v pos length (BitVec.allOnes wb) := by
  intro hlen heq
  have hbit := congrArg (fun x => x.getLsbD (pos + wb)) heq
  simp only [getLsbD_insertField (show pos + wb < w by omega)] at hbit
  rw [if_pos (by omega), if_pos (by omega), Nat.add_sub_cancel_left, BitVec.getLsbD_allOnes,
    BitVec.getLsbD_allOnes] at hbit
  simp [show wb < 64 by omega] at hbit

theorem insertField_ones_zero {w n : ℕ} :
    insertField (BitVec.allOnes w) pos length (0 : BitVec n) = ~~~fieldMask w pos length := by
  rw [insertField, BitVec.allOnes_and]
  simp

/-- The low bits of a register that holds a value. -/
theorem insertField_of_holds {w wb : ℕ} {v : BitVec w} {b : BitVec wb} {bits : TypedRegister}
    (hbits : (Regs.one bits).Holds b) (hlen : length ≤ wb) :
    insertField v pos length bits.val = insertField v pos length b := by
  rw [← hbits.value_eq, Regs.value, insertField_setWidth hlen]

theorem not_insertRight_of_error {w e wb : ℕ} {src bits : Regs} {v : BitVec w} {b : BitVec wb}
    (hsrc : src.Holds v) (he : src.elementWidth w = e) (hbits : bits.Holds b)
    (herr : ∃ e', materialiseBitInsert wild w wb src bits pos length = .error e') :
    ¬InsertRight wild w e wb pos length := by
  intro hright
  obtain ⟨out, hout, -⟩ := hright src bits v b hsrc he hbits
  obtain ⟨e', herr⟩ := herr
  rw [herr] at hout
  cases hout

section One

variable {w wb : ℕ}

theorem materialiseBitInsert_one (hw : w ∈ widths) (hwb : wb ∈ widths) (h : pos + length ≤ w)
    (r bits : TypedRegister) :
    materialiseBitInsert wild w wb (.one r) (.one bits) pos length = do
      let out ← insertReg (insertMask wild pos length) r.val bits.val (inReg pos) length
      return .one { TypedRegister.fresh w with val := out } := by
  have hle := (le_of_mem_widths hw).2
  have hreg : (if pos ≥ 64 then pos - 64 else pos) = inReg pos := by
    unfold inReg
    split_ifs <;> omega
  simp only [materialiseBitInsert, hw, hwb, and_self, if_true, Regs.bitInsert, hreg]
  rw [if_neg (by omega)]

/-- In a register the position is where it is in the value. -/
theorem insertField_inReg (hw : w ≤ 64) (h : pos + length ≤ w) {v : BitVec w} {b : BitVec 64} :
    insertField v (inReg pos) length b = insertField v pos length b := by
  by_cases hpos : pos < 64
  · rw [inReg, if_pos hpos]
  · obtain rfl : length = 0 := by omega
    rw [insertField_zero, insertField_zero]

/-- Only the low bits of the register count, and for them the mask is defined unless they are all of
it. -/
theorem maskFits_of_ones (hw : w ∈ widths) (h : pos + length ≤ w) {out : BitVec 64}
    (hout : insertReg (insertMask wild pos length) (BitVec.allOnes 64) 0 (inReg pos) length =
      .ok out)
    (hval : out.setWidth w = insertField (BitVec.allOnes w) pos length (0 : BitVec 64)) :
    maskFits wild pos length := by
  have hle := (le_of_mem_widths hw).2
  have hin : inReg pos + length ≤ 64 := by
    unfold inReg
    split <;> omega
  obtain ⟨rfl, hlen⟩ := insertReg_ones hin hout
  refine ⟨?_, hlen⟩
  by_cases hlt : pos < 64 ∧ length < 64
  · rw [insertMask_eq hlt.1 hlt.2, inReg, if_pos hlt.1]
  · obtain rfl : w = 64 := by omega
    rw [BitVec.setWidth_eq, ← insertField_inReg hle h] at hval
    rw [hval, insertField_ones_zero]

theorem insertRight_one_iff (hw : w ∈ 1 :: widths) (hwb : wb ∈ 1 :: widths)
    (h : pos + length ≤ w) :
    InsertRight wild w w wb pos length ↔ insertFits wild w w wb pos length := by
  by_cases hgpr : w ∈ widths ∧ wb ∈ widths
  · obtain ⟨hw, hwb⟩ := hgpr
    have hle := (le_of_mem_widths hw).2
    have hne : w ≠ 128 := by omega
    constructor
    · intro hright
      have hmask : maskFits wild pos length := by
        obtain ⟨out, hout, hval⟩ := hright _ _ _ _ (holds_ones hw) rfl (holds_zero hwb)
        rw [materialiseBitInsert_one hw hwb h] at hout
        obtain ⟨out, hreg, hout⟩ := bind_eq_ok.1 hout
        obtain rfl := Except.ok.inj hout
        refine maskFits_of_ones hw h hreg (hval.trans ?_)
        simp [insertField]
      refine ⟨.tail _ hw, rfl, hwb, ?_, .inr ⟨by omega, hmask⟩⟩
      by_contra hlen
      obtain ⟨out, hout, hval⟩ := hright _ _ _ _ (holds_zero hw) rfl (holds_ones hwb)
      have hin : inReg pos + length ≤ 64 := by
        unfold inReg
        split <;> omega
      rw [materialiseBitInsert_one hw hwb h, insertReg_eq hmask.1 hin hmask.2] at hout
      obtain rfl := Except.ok.inj hout
      refine insertField_ones_ne (v := (0 : BitVec w)) (by omega) h (by omega) (.trans ?_ hval)
      simp only [Regs.value]
      rw [setWidth_insertField hle, insertField_inReg hle h]
      simp
    · rintro ⟨-, -, -, hlen, hhalf | ⟨-, hmask⟩⟩ src bits v b hsrc he hbits
      · exact absurd hhalf.1 hne
      · obtain ⟨r, rfl⟩ := hsrc.eq_one (by omega)
        obtain ⟨bits, rfl⟩ := hbits.eq_one (by have := (le_of_mem_widths hwb).2; omega)
        have hin : inReg pos + length ≤ 64 := by
          unfold inReg
          split <;> omega
        refine ⟨.one { TypedRegister.fresh w with
          val := insertField r.val (inReg pos) length bits.val }, ?_, ?_⟩
        · rw [materialiseBitInsert_one hw hwb h, insertReg_eq hmask.1 hin hmask.2]
          rfl
        · simp only [Regs.value]
          rw [setWidth_insertField hle, insertField_inReg hle h, insertField_of_holds hbits hlen,
            ← hsrc.value_eq, Regs.value]
  · obtain ⟨r, hr⟩ := exists_holds hw (0 : BitVec w)
    obtain ⟨bits, hbits⟩ := exists_holds hwb (0 : BitVec wb)
    refine iff_of_false (not_insertRight_of_error hr rfl hbits ?_) ?_
    · simp only [materialiseBitInsert, hgpr, if_false]
      exact ⟨_, rfl⟩
    · rintro ⟨hw', -, hwb', -⟩
      have hne : w ≠ 128 := by
        rintro rfl
        simp [widths] at hw
      exact hgpr ⟨(List.mem_cons.1 hw').resolve_left hne, hwb'⟩

end One

section Two

variable {e wb : ℕ}

/-- A pair of zeros or of ones holds the value. -/
theorem holds_pair (e : ℕ) (r : RegPair) : (Regs.two e r).Holds r.value :=
  ⟨rfl, BitVec.setWidth_eq _⟩

/-- A field of a pair of scalars that is not a half. -/
theorem materialiseBitInsert_two (hwb : wb ∈ widths)
    (hhalf : ¬(length = 64 ∧ (pos = 0 ∨ pos = 64))) (hcross : pos < 64 → pos + length ≤ 64)
    (r : RegPair) (bits : TypedRegister) :
    materialiseBitInsert wild 128 wb (.two 128 r) (.one bits) pos length =
      Regs.bitInsert wild 128 (.two 128 r) bits.val pos length := by
  simp only [materialiseBitInsert, hwb, and_self, if_true]
  rw [if_neg (by tauto), if_neg (by tauto)]
  split_ifs with hlow hhigh
  · rfl
  · rfl
  · omega

theorem value_injective : Function.Injective RegPair.value := by
  intro r r' h
  have hlow := congrArg (BitVec.extractLsb' 0 64) h
  have hhigh := congrArg (BitVec.extractLsb' 64 64) h
  rw [extract_two_low (by decide), extract_two_low (by decide)] at hlow
  rw [extract_two_high (by decide), extract_two_high (by decide)] at hhigh
  cases r
  cases r'
  simp_all

theorem insertField_two_low {r : RegPair} {n : ℕ} {b : BitVec n} (h : pos + length ≤ 64) :
    insertField r.value pos length b = RegPair.value ⟨insertField r.reg1 pos length b, r.reg2⟩ :=
  insertField_append_low h

theorem insertField_two_high {r : RegPair} {n : ℕ} {b : BitVec n} (h : 64 ≤ pos) :
    insertField r.value pos length b =
      RegPair.value ⟨r.reg1, insertField r.reg2 (pos - 64) length b⟩ :=
  insertField_append_high h

/-- `bit_insert` into one register of a pair. -/
theorem bitInsert_two (hmask : maskFits wild pos length) (h : pos + length ≤ 128)
    (hcross : pos < 64 → pos + length ≤ 64) (e : ℕ) (r : RegPair) (bits : BitVec 64) :
    ∃ out, Regs.bitInsert wild 128 (.two e r) bits pos length = .ok (.two e out) ∧
      out.value = insertField r.value pos length bits := by
  obtain ⟨hmask, hlen⟩ := hmask
  rw [Regs.bitInsert, if_neg (by omega)]
  dsimp only
  by_cases hlow : pos < 64
  · rw [inReg, if_pos hlow] at hmask hlen
    rw [if_pos hlow, insertReg_eq hmask (hcross hlow) hlen]
    exact ⟨_, rfl, (insertField_two_low (hcross hlow)).symm⟩
  · rw [inReg, if_neg hlow] at hmask hlen
    rw [if_neg hlow, insertReg_eq hmask (by omega) hlen]
    exact ⟨_, rfl, (insertField_two_high (by omega)).symm⟩

/-- An insertion of zeros into ones shows the mask. -/
theorem maskFits_of_bitInsert (h : pos + length ≤ 128) (hcross : pos < 64 → pos + length ≤ 64)
    {e : ℕ} {out : Regs}
    (hout : Regs.bitInsert wild 128 (.two e ⟨BitVec.allOnes 64, BitVec.allOnes 64⟩) 0 pos length =
      .ok out)
    (hval : out.value 128 = insertField (RegPair.value ⟨BitVec.allOnes 64, BitVec.allOnes 64⟩) pos
      length (0 : BitVec 64)) : maskFits wild pos length := by
  rw [Regs.bitInsert, if_neg (by omega)] at hout
  dsimp only at hout
  unfold maskFits inReg
  by_cases hlow : pos < 64
  · rw [if_pos hlow] at hout ⊢
    obtain ⟨reg, hreg, hout⟩ := bind_eq_ok.1 hout
    obtain rfl := Except.ok.inj hout
    obtain ⟨rfl, hlen⟩ := insertReg_ones (hcross hlow) hreg
    rw [insertField_two_low (hcross hlow)] at hval
    refine ⟨?_, hlen⟩
    rw [(RegPair.mk.inj (value_injective ((BitVec.setWidth_eq _).symm.trans hval))).1,
      insertField_ones_zero]
  · rw [if_neg hlow] at hout ⊢
    obtain ⟨reg, hreg, hout⟩ := bind_eq_ok.1 hout
    obtain rfl := Except.ok.inj hout
    obtain ⟨rfl, hlen⟩ := insertReg_ones (by omega) hreg
    rw [insertField_two_high (by omega)] at hval
    refine ⟨?_, hlen⟩
    rw [(RegPair.mk.inj (value_injective ((BitVec.setWidth_eq _).symm.trans hval))).2,
      insertField_ones_zero]

/-- A half of 128 bits is replaced by naming the register of the bits. -/
theorem insertRight_half (hwb : wb ∈ widths) (hhalf : length = 64 ∧ (pos = 0 ∨ pos = 64))
    (r : RegPair) (bits : TypedRegister) :
    ∃ out, materialiseBitInsert wild 128 wb (.two 128 r) (.one bits) pos length =
      .ok (.two 128 out) ∧ out.value = insertField r.value pos length bits.val := by
  obtain ⟨rfl, rfl | rfl⟩ := hhalf
  · refine ⟨⟨bits.val, r.reg2⟩, ?_, ?_⟩
    · simp [materialiseBitInsert, hwb]
    · rw [insertField_two_low (by decide), insertField_all]
  · refine ⟨⟨r.reg1, bits.val⟩, ?_, ?_⟩
    · simp [materialiseBitInsert, hwb]
    · rw [insertField_two_high (by decide), Nat.sub_self, insertField_all]

/-- An insertion into a pair that there is code for takes the low bits of the register. -/
theorem materialiseBitInsert_two_eq (hwb : wb ∈ widths) (h : pos + length ≤ 128)
    (hcase : length = 64 ∧ (pos = 0 ∨ pos = 64) ∨
      (pos < 64 → pos + length ≤ 64) ∧ maskFits wild pos length)
    (r : RegPair) (bits : TypedRegister) :
    ∃ out, materialiseBitInsert wild 128 wb (.two 128 r) (.one bits) pos length =
      .ok (.two 128 out) ∧ out.value = insertField r.value pos length bits.val := by
  by_cases hhalf : length = 64 ∧ (pos = 0 ∨ pos = 64)
  · exact insertRight_half hwb hhalf r bits
  · obtain hhalf' | ⟨hcross, hmask⟩ := hcase
    · exact absurd hhalf' hhalf
    · rw [materialiseBitInsert_two hwb hhalf hcross]
      exact bitInsert_two hmask h hcross 128 r bits.val

theorem insertRight_two_iff (hwb : wb ∈ 1 :: 128 :: widths) (h : pos + length ≤ 128) :
    InsertRight wild 128 e wb pos length ↔ insertFits wild 128 e wb pos length := by
  by_cases hcode : e = 128 ∧ wb ∈ widths
  · obtain ⟨rfl, hwb⟩ := hcode
    have hle := (le_of_mem_widths hwb).2
    constructor
    · intro hright
      have hcase : length = 64 ∧ (pos = 0 ∨ pos = 64) ∨
          (pos < 64 → pos + length ≤ 64) ∧ maskFits wild pos length := by
        refine or_iff_not_imp_left.2 fun hhalf => ?_
        obtain ⟨out, hout, hval⟩ := hright _ _ _ _
          (holds_pair 128 ⟨BitVec.allOnes 64, BitVec.allOnes 64⟩) rfl (holds_zero hwb)
        have hcross : pos < 64 → pos + length ≤ 64 := by
          by_contra hcross
          simp only [materialiseBitInsert, hwb, and_self, if_true] at hout
          rw [if_neg (by tauto), if_neg (by tauto), if_neg (by omega), if_neg (by omega)] at hout
          cases hout
        rw [materialiseBitInsert_two hwb hhalf hcross] at hout
        refine ⟨hcross, maskFits_of_bitInsert h hcross hout (hval.trans ?_)⟩
        simp [insertField]
      refine ⟨.head _, rfl, hwb, ?_, hcase.imp_left fun hhalf => ⟨rfl, hhalf⟩⟩
      by_contra hlen
      obtain ⟨out, hout, hval⟩ := hright _ _ _ _ (holds_pair 128 ⟨0, 0⟩) rfl (holds_ones hwb)
      obtain ⟨out', hout', hval'⟩ := materialiseBitInsert_two_eq hwb h hcase ⟨0, 0⟩
        ⟨BitVec.allOnes 64, wb, 0⟩
      obtain rfl := Except.ok.inj (hout.symm.trans hout')
      have hlen64 : length ≤ 64 := by
        rcases hcase with ⟨rfl, -⟩ | ⟨hcross, -, hshort | hzero⟩
        · exact le_rfl
        · exact hshort.2.le
        · unfold inReg at hzero
          split at hzero <;> omega
      refine insertField_ones_ne (not_le.1 hlen) h hlen64 (hval'.symm.trans ?_)
      rw [← hval, Regs.value, BitVec.setWidth_eq]
    · rintro ⟨-, -, -, hlen, hcase⟩ src bits v b hsrc he hbits
      obtain ⟨bits, rfl⟩ := hbits.eq_one (by omega)
      cases src with
      | one r =>
        rcases hsrc with ⟨hw, -⟩ | ⟨hw, -⟩
        · simp [widths] at hw
        · simp at hw
      | two e r =>
        obtain rfl : e = 128 := he
        obtain ⟨out, hout, hval⟩ := materialiseBitInsert_two_eq hwb h
          (hcase.imp_left fun hhalf => hhalf.2) r bits
        refine ⟨_, hout, ?_⟩
        rw [Regs.value, BitVec.setWidth_eq, hval, insertField_of_holds hbits hlen, ← hsrc.2,
          BitVec.setWidth_eq]
  · have herr : ∀ (r : RegPair) (bits : Regs) (b : BitVec wb), bits.Holds b →
        ∃ e', materialiseBitInsert wild 128 wb (.two e r) bits pos length = .error e' := by
      intro r bits b hbits
      cases bits with
      | one bits =>
        simp only [materialiseBitInsert, hcode, if_false]
        exact ⟨_, rfl⟩
      | two e' bits => exact ⟨_, rfl⟩
    have hbits : ∃ (bits : Regs) (b : BitVec wb), bits.Holds b := by
      by_cases hwb128 : wb = 128
      · subst hwb128
        exact ⟨_, _, holds_pair 128 ⟨0, 0⟩⟩
      · have hwb' : wb ∈ 1 :: widths := by
          simp only [List.mem_cons] at hwb ⊢
          tauto
        obtain ⟨r, hr⟩ := exists_holds hwb' (0 : BitVec wb)
        exact ⟨_, _, hr⟩
    obtain ⟨bits, b, hbits⟩ := hbits
    refine iff_of_false ?_ fun hfits => hcode ⟨hfits.2.1, hfits.2.2.1⟩
    exact not_insertRight_of_error (holds_pair e ⟨0, 0⟩) rfl hbits (herr _ _ b hbits)

end Two

end Insert

/-! ## Elements of vectors -/

section Vector

variable {type : VectorType} {index : ℕ} {wild : BitVec 64 → ℕ → BitVec 64}

/-- The value of a vector in a pair. -/
def VectorType.value (type : VectorType) (src : RegPair) :
    BitVec (type.nrElements * type.elementWidth) :=
  src.value.setWidth _

theorem extractRight_element_iff (hindex : index < type.nrElements) (src : RegPair) :
    ExtractRight (type.value src) (type.elementWidth * index) type.elementWidth
        (materialiseVectorExtract type src index) ↔
      type.nrElements * type.elementWidth = 128 ∧
        (type.elementWidth = 64 ∨ type.elementWidth = 32) := by
  obtain ⟨n, e⟩ := type
  dsimp only at hindex ⊢
  by_cases hwidth : n * e = 128
  · have hfield : (VectorType.value ⟨n, e⟩ src).extractLsb' (e * index) e =
        src.value.extractLsb' (e * index) e := by
      refine BitVec.extractLsb'_setWidth_of_le ?_
      calc e * index + e = e * (index + 1) := (Nat.mul_succ e index).symm
        _ ≤ e * n := Nat.mul_le_mul_left e hindex
        _ = n * e := Nat.mul_comm e n
    by_cases he : e = 64
    · subst he
      have hhalf : index = 0 ∨ index = 1 := by omega
      refine iff_of_true ?_ ⟨hwidth, .inl rfl⟩
      rcases hhalf with rfl | rfl
      · refine ⟨⟨src.reg1, 64, 0⟩, by simp [materialiseVectorExtract, hwidth], ?_⟩
        rw [hfield, extract_two_low (by decide)]
        simp
      · refine ⟨⟨src.reg2, 64, 0⟩, by simp [materialiseVectorExtract, hwidth], ?_⟩
        rw [hfield, extract_two_high (by decide)]
        simp
    · by_cases he' : e = 32
      · subst he'
        have hlen : 32 ∈ widths := by decide
        refine iff_of_true ?_ ⟨hwidth, .inr rfl⟩
        have hcode : materialiseVectorExtract ⟨n, 32⟩ src index =
            Regs.bitExtract (.two 32 src) (32 * index) 32 := by
          simp [materialiseVectorExtract, hwidth]
        rw [hcode, bitExtract_two hlen (by omega)]
        split
        · refine extractRight_reg hlen (by decide) (by omega) ?_
          rw [hfield, extract_two_low (by omega)]
        · refine extractRight_reg hlen (by decide) (by omega) ?_
          rw [hfield, extract_two_high (by omega)]
      · refine iff_of_false (not_extractRight_of_error ?_) fun h => h.2.elim he he'
        simp only [materialiseVectorExtract, hwidth, ne_eq, not_true_eq_false, if_false]
        exact ⟨_, rfl⟩
  · refine iff_of_false (not_extractRight_of_error ⟨_, if_pos hwidth⟩) fun h => hwidth h.1

/-- An insertion of an element gives the vector with the element replaced. -/
def VectorInsertRight (wild : BitVec 64 → ℕ → BitVec 64) (type : VectorType) (index : ℕ) : Prop :=
  ∀ (src : RegPair) (insert : Regs) (x : BitVec type.elementWidth), insert.Holds x →
    ∃ out, materialiseVectorInsert wild type src index insert = .ok out ∧
      out.value (type.nrElements * type.elementWidth) =
        insertField (type.value src) (type.elementWidth * index) type.elementWidth x

/-- The elements there is code for. One of 32 bits goes through the mask. -/
def vectorInsertFits (wild : BitVec 64 → ℕ → BitVec 64) (type : VectorType) (index : ℕ) : Prop :=
  type.nrElements * type.elementWidth = 128 ∧
    (type.elementWidth = 128 ∨ type.elementWidth = 64 ∨
      type.elementWidth = 32 ∧ maskFits wild (32 * index) 32)

theorem vectorInsertRight_iff (hindex : index < type.nrElements)
    (he : type.elementWidth ∈ 1 :: 128 :: widths) :
    VectorInsertRight wild type index ↔ vectorInsertFits wild type index := by
  obtain ⟨n, e⟩ := type
  dsimp only at hindex he
  constructor
  · intro hright
    have herr : ∀ (src : RegPair) {insert} {x : BitVec e}, insert.Holds x →
        ¬∃ e', materialiseVectorInsert wild ⟨n, e⟩ src index insert = .error e' := by
      rintro src insert x hinsert ⟨e', herr⟩
      obtain ⟨out, hout, -⟩ := hright src insert x hinsert
      rw [herr] at hout
      cases hout
    obtain ⟨insert, x, hinsert⟩ : ∃ (insert : Regs) (x : BitVec e), insert.Holds x := by
      by_cases he128 : e = 128
      · subst he128
        exact ⟨_, _, holds_pair 128 ⟨0, 0⟩⟩
      · have he' : e ∈ 1 :: widths := by
          simp only [List.mem_cons] at he ⊢
          tauto
        obtain ⟨r, hr⟩ := exists_holds he' (0 : BitVec e)
        exact ⟨_, _, hr⟩
    have hwidth : n * e = 128 := by
      by_contra hwidth
      exact herr ⟨0, 0⟩ hinsert ⟨_, if_pos hwidth⟩
    refine ⟨hwidth, ?_⟩
    by_cases he128 : e = 128
    · exact .inl he128
    by_cases he64 : e = 64
    · exact .inr (.inl he64)
    by_cases he32 : e = 32
    · subst he32
      obtain rfl : n = 4 := by omega
      refine .inr (.inr ⟨rfl, ?_⟩)
      obtain ⟨out, hout, hval⟩ := hright ⟨BitVec.allOnes 64, BitVec.allOnes 64⟩ _ _
        (holds_zero (by decide))
      have hcode : materialiseVectorInsert wild ⟨4, 32⟩ ⟨BitVec.allOnes 64, BitVec.allOnes 64⟩
          index (.one ⟨0, 32, 0⟩) =
          Regs.bitInsert wild 128 (.two 32 ⟨BitVec.allOnes 64, BitVec.allOnes 64⟩) 0
            (32 * index) 32 :=
        if_pos hindex
      rw [hcode] at hout
      refine maskFits_of_bitInsert (by omega) (by omega) hout (hval.trans ?_)
      simp [insertField, VectorType.value]
    · refine absurd ?_ (herr ⟨0, 0⟩ hinsert)
      simp only [materialiseVectorInsert, hwidth, ne_eq, not_true_eq_false, if_false]
      split
      all_goals first | contradiction | exact ⟨_, rfl⟩
  · rintro ⟨hwidth, hcase⟩ src insert x hinsert
    dsimp only at hwidth hcase
    rcases hcase with rfl | rfl | ⟨rfl, hmask⟩
    · obtain rfl : n = 1 := by omega
      obtain rfl : index = 0 := by omega
      refine ⟨insert, rfl, ?_⟩
      change insert.value 128 = insertField _ 0 128 x
      rw [insertField_all, hinsert.value_eq]
    · obtain rfl : n = 2 := by omega
      obtain ⟨r, rfl⟩ := hinsert.eq_one (by decide)
      have hhalf : index = 0 ∨ index = 1 := by omega
      have hx : r.val = x := by
        have hx := hinsert.value_eq
        rwa [Regs.value, BitVec.setWidth_eq] at hx
      rcases hhalf with rfl | rfl
      · refine ⟨_, rfl, ?_⟩
        change (RegPair.value ⟨r.val, src.reg2⟩).setWidth 128 =
          insertField (src.value.setWidth 128) 0 64 x
        rw [BitVec.setWidth_eq, BitVec.setWidth_eq, insertField_two_low (by decide), hx,
          insertField_all]
      · refine ⟨_, rfl, ?_⟩
        change (RegPair.value ⟨src.reg1, r.val⟩).setWidth 128 =
          insertField (src.value.setWidth 128) 64 64 x
        rw [BitVec.setWidth_eq, BitVec.setWidth_eq, insertField_two_high (by decide), hx,
          Nat.sub_self, insertField_all]
    · obtain rfl : n = 4 := by omega
      obtain ⟨r, rfl⟩ := hinsert.eq_one (by decide)
      obtain ⟨out, hout, hval⟩ := bitInsert_two hmask (by omega) (by omega) 32 src r.val
      refine ⟨_, (if_pos hindex).trans hout, ?_⟩
      change out.value.setWidth 128 = insertField (src.value.setWidth 128) (32 * index) 32 x
      rw [BitVec.setWidth_eq, BitVec.setWidth_eq, hval]
      exact insertField_of_holds hinsert le_rfl

end Vector

/-! ## All four operations -/

/-- Extractions and insertions of fields and of elements are right exactly where there is code with
the right mask, and then a field that has been inserted is read back. -/
theorem bitField_right_iff (wild : BitVec 64 → ℕ → BitVec 64) :
    (∀ {w start length : ℕ} {src : Regs} {v : BitVec w}, src.Holds v → start + length ≤ w →
      (ExtractRight v start length (materialiseBitExtract src start length) ↔
        extractFits src start length)) ∧
    (∀ {w e wb pos length : ℕ}, w ∈ 1 :: widths ∧ e = w ∨ w = 128 → wb ∈ 1 :: 128 :: widths →
      wb ≤ w → pos + length ≤ w →
      (InsertRight wild w e wb pos length ↔ insertFits wild w e wb pos length) ∧
        (InsertRight wild w e wb pos length → ∀ {src bits out : Regs} {v : BitVec w}
          {b : BitVec wb}, src.Holds v → src.elementWidth w = e → bits.Holds b →
          materialiseBitInsert wild w wb src bits pos length = .ok out →
          (out.value w).extractLsb' pos length = b.setWidth length)) ∧
    (∀ {type : VectorType} {index : ℕ}, index < type.nrElements →
      type.elementWidth ∈ 1 :: 128 :: widths →
      (∀ src, ExtractRight (type.value src) (type.elementWidth * index) type.elementWidth
          (materialiseVectorExtract type src index) ↔
        type.nrElements * type.elementWidth = 128 ∧
          (type.elementWidth = 64 ∨ type.elementWidth = 32)) ∧
        (VectorInsertRight wild type index ↔ vectorInsertFits wild type index)) := by
  refine ⟨fun {w start length src v} hsrc hrange => ?_,
    fun {w e wb pos length} hw hwb hle h => ⟨?_, ?_⟩,
    fun hindex he => ⟨fun src => extractRight_element_iff hindex src,
      vectorInsertRight_iff hindex he⟩⟩
  · cases src with
    | one r => exact extractRight_one_iff hsrc hrange
    | two e r =>
      obtain ⟨rfl, rfl⟩ := hsrc
      rw [BitVec.setWidth_eq]
      exact extractRight_two_iff hrange
  · rcases hw with ⟨hw, rfl⟩ | rfl
    · have hle64 : e ≤ 64 := by
        rcases List.mem_cons.1 hw with rfl | hgpr
        · decide
        · exact (le_of_mem_widths hgpr).2
      have hwb' : wb ∈ 1 :: widths := by
        have hne : wb ≠ 128 := by omega
        simp only [List.mem_cons] at hwb ⊢
        tauto
      exact insertRight_one_iff hw hwb' h
    · exact insertRight_two_iff hwb h
  · intro hright src bits out v b hsrc he hbits hout
    obtain ⟨out', hout', hval⟩ := hright src bits v b hsrc he hbits
    obtain rfl := Except.ok.inj (hout.symm.trans hout')
    rw [hval, extract_insertField h]

/-- A byte from the upper half of 128 bits, a byte into a register, and words of vectors. -/
theorem bitField_right_bytes (wild : BitVec 64 → ℕ → BitVec 64) :
    ExtractRight (RegPair.value ⟨5, 0xAB00⟩) 72 8
        (materialiseBitExtract (.two 128 ⟨5, 0xAB00⟩) 72 8) ∧
      InsertRight wild 64 64 8 8 8 ∧
      ExtractRight (VectorType.value ⟨4, 32⟩ ⟨1, 2⟩) (32 * 3) 32
        (materialiseVectorExtract ⟨4, 32⟩ ⟨1, 2⟩ 3) ∧
      VectorInsertRight wild ⟨2, 64⟩ 1 := by
  obtain ⟨hextract, hinsert, helement⟩ := bitField_right_iff wild
  refine ⟨(hextract (holds_pair 128 ⟨5, 0xAB00⟩) (by decide)).2 ?_,
    (hinsert (.inl ⟨by decide, rfl⟩) (by decide) (by decide) (by decide)).1.2 ?_,
    ((helement (by decide) (by decide)).1 ⟨1, 2⟩).2 (by decide),
    (helement (by decide) (by decide)).2.2 ⟨by decide, .inr (.inl rfl)⟩⟩
  · exact ⟨by decide, by decide, by decide⟩
  · exact ⟨by decide, rfl, by decide, by decide,
      .inr ⟨by decide, insertMask_eq (by decide) (by decide), by decide⟩⟩

/-- A field of 64 bits in a register of 64, where the machine takes the count modulo 64 : the mask
keeps everything, and the extraction of the register is not code. -/
theorem not_bitField_right_64 :
    ¬InsertRight (fun x n => x <<< (n % 64)) 64 64 64 0 64 ∧
      ¬ExtractRight (7 : BitVec 64) 0 64 (materialiseBitExtract (.one ⟨7, 64, 0⟩) 0 64) := by
  constructor
  · intro hright
    obtain ⟨out, hout, hval⟩ := hright _ _ (0 : BitVec 64) (BitVec.allOnes 64)
      (holds_zero (by decide)) rfl (holds_ones (by decide))
    obtain rfl := Except.ok.inj hout
    revert hval
    decide
  · rintro ⟨out, hout, -⟩
    cases hout

end Arancini.Riscv
