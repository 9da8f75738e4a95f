import Arancini.Riscv.Fixup
import Arancini.Riscv.Packed

/-!
# Shifts on RISC-V

`materialise_bit_shift` has one path for an amount that is known when the code is generated, and
one for an amount in a register. A host instruction takes an immediate below 64, or below 32 when
it works on words, and the low six or five bits of a register. Values of 32 bits and narrower ones
go through the instructions on words, so amounts from 32 on are shifts by another number, or no
instruction at all.

A right shift of a narrow value extends it first. With an immediate the shift is folded into the
extension, and the sum of both amounts may leave the range of the instruction. The extension of
`lsr` goes by the actual width of the register, which need not be the width of the value.

`materialiseBitShift_right_iff` and `materialiseBitShiftPair_right_iff` say for which operands and
amounts the result is the shift of the value.
-/

namespace Arancini.Riscv

/-! ## Instructions -/

def slliw (x : BitVec 64) (n : ℕ) : BitVec 64 := sext 32 (x <<< n)

def srliw (x : BitVec 64) (n : ℕ) : BitVec 64 := (x.setWidth 32 >>> n).signExtend 64

def sraiw (x : BitVec 64) (n : ℕ) : BitVec 64 := ((x.setWidth 32).sshiftRight n).signExtend 64

/-- `shift_op`. -/
inductive ShiftOp
  | lsl
  | lsr
  | asr
  deriving DecidableEq

/-- The shift of a value. -/
def ShiftOp.value {w : ℕ} : ShiftOp → BitVec w → ℕ → BitVec w
  | lsl, v, n => v <<< n
  | lsr, v, n => v >>> n
  | asr, v, n => v.sshiftRight n

/-- An amount : the number that `get_as_int` finds, or the content of a register. -/
inductive Amount
  | imm (amt : ℤ)
  | reg (x : BitVec 64)
  deriving DecidableEq

/-- The operand is an amount of `n`, below the bound. A register may hold garbage above. -/
def Amount.Is (bound n : ℕ) : Amount → Prop
  | imm amt => amt = n ∧ n < bound
  | reg x => x.toNat % bound = n

/-! ## The lowering of a scalar -/

namespace Shift

/-- `slli` of `shift.h`. -/
def slli (w : ℕ) (src : TypedRegister) (amt : ℤ) : Except String TypedRegister :=
  match w with
  | 64 | 8 | 16 => do
    let n ← shamt 64 amt
    return { TypedRegister.fresh w with val := Riscv.slli src.val n }
  | 32 => do
    let n ← shamt 32 amt
    return (TypedRegister.fresh 32).widen (slliw src.val n)
  | _ => throw "unimplemented"

/-- `srli` of `shift.h`. -/
def srli (w : ℕ) (src : TypedRegister) (amt : ℤ) : Except String TypedRegister :=
  match w with
  | 64 => do
    let n ← shamt 64 amt
    return { TypedRegister.fresh 64 with val := Riscv.srli src.val n }
  | 32 => do
    let n ← shamt 32 amt
    return (TypedRegister.fresh 32).widen (srliw src.val n)
  | 16 | 8 => do
    let (out, shifted) ← fixup .unsigned 32 (.fresh w) src false (-amt)
    if shifted then return out
    else
      let n ← shamt 32 amt
      return { out with val := srliw out.val n }
  | _ => throw "unimplemented"

/-- `srai` of `shift.h`. The assembler asserts an amount below 64 for `sraiw`, where the
instruction has five bits for it. -/
def srai (w : ℕ) (src : TypedRegister) (amt : ℤ) : Except String TypedRegister :=
  match w with
  | 64 => do
    let n ← shamt 64 amt
    return { TypedRegister.fresh 64 with val := Riscv.srai src.val n }
  | 32 => do
    let n ← shamt 32 amt
    return (TypedRegister.fresh 32).widen (sraiw src.val n)
  | 16 | 8 => do
    let (out, shifted) ← fixup .signed 32 (.fresh w) src false (-amt)
    if shifted then return out
    else
      let n ← shamt 32 amt
      return { out with val := sraiw out.val n }
  | _ => throw "unimplemented"

/-- `sll` of `shift.h`. -/
def sll (w : ℕ) (src : TypedRegister) (amt : BitVec 64) : Except String TypedRegister :=
  match w with
  | 64 | 8 | 16 =>
    .ok { TypedRegister.fresh w with val := src.val <<< (amt.toNat % 64) }
  | 32 => .ok ((TypedRegister.fresh 32).widen (slliw src.val (amt.toNat % 32)))
  | _ => .error "unimplemented"

/-- `srl` of `shift.h`. -/
def srl (w : ℕ) (src : TypedRegister) (amt : BitVec 64) : Except String TypedRegister :=
  match w with
  | 64 => .ok { TypedRegister.fresh 64 with val := src.val >>> (amt.toNat % 64) }
  | 32 => .ok ((TypedRegister.fresh 32).widen (srliw src.val (amt.toNat % 32)))
  | 16 | 8 => do
    let (out, _) ← fixup .unsigned 32 (.fresh w) src false 0
    return { out with val := srliw out.val (amt.toNat % 32) }
  | _ => .error "unimplemented"

/-- `sra` of `shift.h`. -/
def sra (w : ℕ) (src : TypedRegister) (amt : BitVec 64) : Except String TypedRegister :=
  match w with
  | 64 => .ok { TypedRegister.fresh 64 with val := src.val.sshiftRight (amt.toNat % 64) }
  | 32 => .ok ((TypedRegister.fresh 32).widen (sraiw src.val (amt.toNat % 32)))
  | 16 | 8 => do
    let (out, _) ← fixup .signed 32 (.fresh w) src false 0
    return { out with val := sraiw out.val (amt.toNat % 32) }
  | _ => .error "unimplemented"

end Shift

/-- What a node leaves to its uses : the register that the first of them gets, and the one that is
recorded for its port, which the others get. -/
structure Uses (α : Type) where
  first : α
  later : α

/-- `materialise_bit_shift` of a scalar of width `w`. A shift by the constant zero returns the
register of its input and leaves the recorded one, which holds `unwritten`, as it is. -/
def materialiseBitShift (op : ShiftOp) (w : ℕ) (src : TypedRegister) (amount : Amount)
    (zf sf : Bool) (unwritten : BitVec 64) : Except String (Uses TypedRegister × Flags) :=
  match amount with
  | .imm amt =>
    if amt = 0 then .ok (⟨src, { TypedRegister.fresh w with val := unwritten }⟩, .none)
    else do
      let out ← match op with
        | .lsl => Shift.slli w src amt
        | .lsr => Shift.srli w src amt
        | .asr => Shift.srai w src amt
      let (out, flags) ← zeroSignFlag out zf sf .none
      return (⟨out, out⟩, flags)
  | .reg x => do
    let out ← match op with
      | .lsl => Shift.sll w src x
      | .lsr => Shift.srl w src x
      | .asr => Shift.sra w src x
    let (out, flags) ← zeroSignFlag out zf sf .none
    return (⟨out, out⟩, flags)

/-! ## The lowering of 128 bits -/

namespace Shift

/-- `slli` of `shift.h` on the two registers of 128 bits. -/
def slliPair (src : RegPair) (amt : ℤ) : Except String RegPair := do
  let n ← shamt 64 amt
  let reg2 := Riscv.slli src.reg2 n
  let m ← shamt 64 (64 - amt)
  let reg1 := Riscv.srli src.reg1 m
  let reg2 := reg2 ||| reg1
  return ⟨Riscv.slli src.reg1 n, reg2⟩

/-- `srli` of `shift.h` on the two registers of 128 bits. -/
def srliPair (src : RegPair) (amt : ℤ) : Except String RegPair := do
  let n ← shamt 64 amt
  let reg1 := Riscv.srli src.reg1 n
  let m ← shamt 64 (64 - amt)
  let reg2 := Riscv.slli src.reg2 m
  let reg1 := reg1 ||| reg2
  return ⟨reg1, Riscv.srli src.reg2 n⟩

/-- The instructions for an immediate. `srai` has none for 128 bits. -/
def immPair (op : ShiftOp) (src : RegPair) (amt : ℤ) : Except String RegPair :=
  match op with
  | .lsl => slliPair src amt
  | .lsr => srliPair src amt
  | .asr => .error "unimplemented"

end Shift

/-- `materialise_bit_shift` of 128 bits. A shift by 64 names the registers, and then there are no
flags. -/
def materialiseBitShiftPair (op : ShiftOp) (src : RegPair) (amount : Amount) (zf sf : Bool)
    (unwritten : RegPair) : Except String (Uses RegPair) :=
  match amount with
  | .imm amt =>
    if amt = 64 ∧ op = .lsl then .ok ⟨⟨0, src.reg1⟩, ⟨0, src.reg1⟩⟩
    else if amt = 64 ∧ op = .lsr then .ok ⟨⟨src.reg2, 0⟩, ⟨src.reg2, 0⟩⟩
    else if amt = 0 then .ok ⟨src, unwritten⟩
    else do
      let out ← Shift.immPair op src amt
      if zf || sf then throw "not implemented" else return ⟨out, out⟩ -- `extend_to_64`
  | .reg _ => throw "unimplemented"

/-! ## The bits that are shifted -/

/-- How far `lsr` takes the register : a narrow value up to the actual width, and no further than
the words of the instruction. -/
def reach (w : ℕ) (src : TypedRegister) : ℕ :=
  if w < 32 then min 32 src.actual else w

/-- The amounts below which the extension leaves room for the shift. -/
def lsrLimit (actual : ℕ) : ℕ :=
  if actual = 16 then 16 else 32

def asrLimit (width : ℕ) : ℕ :=
  if width = 8 ∨ width = 16 then width else 32

/-- The result of `lsr` when the host shifts by `s`. -/
def shiftedDown (w : ℕ) (src : TypedRegister) (s : ℕ) : BitVec w :=
  ((src.val.setWidth (reach w src)).setWidth 64 >>> s).setWidth w

/-! ## The result of an instruction -/

/-- A register with a type of at least the width, whose low bits are `x`. -/
structure TypedRegister.HasLow {w : ℕ} (r : TypedRegister) (x : BitVec w) : Prop where
  mem : r.width ∈ widths
  le : w ≤ r.width
  low : r.val.setWidth w = x

/-- `zero_sign_flag` may extend the register, and keeps its low bits. -/
theorem zeroSignFlag_hasLow {w : ℕ} {out : TypedRegister} {x : BitVec w} (h : out.HasLow x)
    (zf sf : Bool) (f : Flags) :
    ∃ out' f', zeroSignFlag out zf sf f = .ok (out', f') ∧ out'.val.setWidth w = x := by
  obtain ⟨r, hr, -, hval⟩ := extendTo64_eq h.mem
  have hfull : out.full.setWidth w = x := by
    rw [TypedRegister.full, ← BitVec.setWidth_setWidth_of_le _ h.le,
      setWidth_sext (le_of_mem_widths h.mem).2, BitVec.setWidth_setWidth_of_le _ h.le, h.low]
  unfold zeroSignFlag
  split
  · rw [hr]
    exact ⟨r, _, rfl, by rw [hval, hfull]⟩
  · exact ⟨out, f, rfl, h.low⟩

section Results

variable {w : ℕ}

theorem hasLow_fresh (hw : w ∈ widths) {val : BitVec 64} {x : BitVec w}
    (h : val.setWidth w = x) : TypedRegister.HasLow { TypedRegister.fresh w with val := val } x :=
  ⟨hw, le_rfl, h⟩

theorem hasLow_64 (hw : w ∈ widths) {val : BitVec 64} {actual : ℕ} {x : BitVec w}
    (h : val.setWidth w = x) : TypedRegister.HasLow ⟨val, 64, actual⟩ x :=
  ⟨by simp [widths], (le_of_mem_widths hw).2, h⟩

theorem setWidth_shiftLeft (hw : w ≤ 64) (x : BitVec 64) (n : ℕ) :
    (x <<< n).setWidth w = x.setWidth w <<< n := by
  ext k hk
  simp [show k < 64 by omega, BitVec.getLsbD_eq_getElem (show k - n < 64 by omega)]

/-- Shifting the extension of a value right brings down copies of its sign. -/
theorem setWidth_sshiftRight_signExtend (hpos : 0 < w) {m : ℕ} (hwm : w ≤ m) (v : BitVec w)
    (n : ℕ) : ((v.signExtend m).sshiftRight n).setWidth w = v.sshiftRight n := by
  have hl := BitVec.le_toInt (v.sshiftRight n)
  have hu := BitVec.toInt_lt (x := v.sshiftRight n)
  have hval : ((v.signExtend m).sshiftRight n).toInt = (v.sshiftRight n).toInt := by
    rw [BitVec.toInt_sshiftRight, BitVec.toInt_sshiftRight, toInt_signExtend hwm]
  refine BitVec.eq_of_toInt_eq ?_
  rw [toInt_setWidth_of_range hpos hwm (by omega) (by omega), hval]

/-- The code is there exactly if `ok` holds, and leaves `x` in the low bits of its register. -/
def Gives (res : Except String TypedRegister) (ok : Prop) (x : BitVec w) : Prop :=
  (ok → ∃ out, res = .ok out ∧ out.HasLow x) ∧ (¬ok → ∃ e, res = .error e)

theorem gives_of_hasLow {res : Except String TypedRegister} {out : TypedRegister} {x : BitVec w}
    (h : res = .ok out) (hlow : out.HasLow x) : Gives res True x :=
  ⟨fun _ => ⟨out, h, hlow⟩, fun hok => absurd trivial hok⟩

/-- An instruction with an immediate amount. -/
theorem gives_shamt {bound n : ℕ} (hn : 0 < n) {f : ℕ → TypedRegister} {x : BitVec w}
    (h : n < bound → (f n).HasLow x) :
    Gives (do
      let n ← shamt bound n
      return f n) (n < bound) x := by
  constructor
  · intro hlt
    refine ⟨f n, ?_, h hlt⟩
    rw [shamt_of_mem (by omega), ok_bind, Int.toNat_natCast]
    rfl
  · intro hge
    exact ⟨_, by rw [shamt_of_not_mem (by omega)]; rfl⟩

theorem Gives.congr {res : Except String TypedRegister} {p q : Prop} {x : BitVec w}
    (h : Gives res p x) (hpq : p ↔ q) : Gives res q x := by
  rwa [Gives, ← hpq]

theorem eq_of_lt_32 (hw : w ∈ widths) (h : w < 32) : w = 8 ∨ w = 16 := by
  simp only [widths, List.mem_cons, List.not_mem_nil, or_false] at hw
  omega

theorem eq_of_not_lt_32 (hw : w ∈ widths) (h : ¬w < 32) : w = 32 ∨ w = 64 := by
  simp only [widths, List.mem_cons, List.not_mem_nil, or_false] at hw
  omega

variable (hw : w ∈ widths) (src : TypedRegister) {n : ℕ}

include hw in
theorem gives_slli (hn : 0 < n) (hn64 : n < 64) :
    Gives (Shift.slli w src n) (w = 32 → n < 32) (src.val.setWidth w <<< n) := by
  have hwide : n < 64 → TypedRegister.HasLow
      { TypedRegister.fresh w with val := slli src.val n } (src.val.setWidth w <<< n) := fun _ =>
    hasLow_fresh hw (setWidth_shiftLeft (le_of_mem_widths hw).2 src.val n)
  simp only [widths, List.mem_cons, List.not_mem_nil, or_false] at hw
  rcases hw with rfl | rfl | rfl | rfl
  · exact (gives_shamt hn hwide).congr (by omega)
  · exact (gives_shamt hn hwide).congr (by omega)
  · refine (gives_shamt hn fun _ => ?_).congr (by omega)
    refine hasLow_64 (by decide) ?_
    rw [slliw, setWidth_sext (by decide), setWidth_shiftLeft (by decide)]
  · exact (gives_shamt hn hwide).congr (by omega)

theorem and_ff_eq (x : BitVec 64) : x &&& 0xff = (x.setWidth 8).setWidth 64 := by
  refine BitVec.eq_of_toNat_eq ?_
  rw [toNat_setWidth_of_le (by decide)]
  simpa using Nat.and_two_pow_sub_one_eq_mod x.toNat 8

include hw in
/-- The extension with zeros before a right shift of a narrow value : an instruction that has no
room for the shift, or two shifts. -/
theorem fixup_unsigned_cases (hnarrow : w < 32) {shiftBy : ℤ} (hactual : src.actual ∈ widths) :
    (∃ out, fixup .unsigned 32 (.fresh w) src false shiftBy = .ok (out, false) ∧
        (out.width ∈ widths ∧ w ≤ out.width) ∧ lsrLimit src.actual = 32 ∧
        out.val.setWidth 32 = (src.val.setWidth (reach w src)).setWidth 32) ∨
      (lsrLimit src.actual = src.actual ∧ reach w src = src.actual ∧
        fixup .unsigned 32 (.fresh w) src false shiftBy = do
          let n ← shamt 64 (64 - src.actual - shiftBy)
          return (⟨srli (slli src.val (64 - src.actual)) n, 64, 0⟩, true)) := by
  have hreach : reach w src = min 32 src.actual := if_pos hnarrow
  have h64 : 64 ∈ widths ∧ w ≤ 64 := ⟨by simp [widths], (le_of_mem_widths hw).2⟩
  simp only [widths, List.mem_cons, List.not_mem_nil, or_false] at hactual
  rcases hactual with ha | ha | ha | ha
  · refine .inl ⟨⟨src.val &&& 0xff, 64, 0⟩, by simp [fixup, ha], h64, by rw [ha]; rfl, ?_⟩
    rw [hreach, ha, and_ff_eq, BitVec.setWidth_setWidth_of_le _ (by decide)]
    rfl
  · exact .inr ⟨by rw [ha]; rfl, by rw [hreach, ha]; rfl, by simp [fixup, ha]⟩
  · exact .inr ⟨by rw [ha]; rfl, by rw [hreach, ha]; rfl, by simp [fixup, ha]⟩
  · refine .inl ⟨{ TypedRegister.fresh w with val := src.val }, by simp [fixup, ha], ⟨hw, le_rfl⟩,
      by rw [ha]; rfl, ?_⟩
    rw [hreach, ha]
    simp

include hw in
/-- The extension with zeros alone. -/
theorem fixup_unsigned_low (hnarrow : w < 32) (hactual : src.actual ∈ widths) :
    ∃ out shifted, fixup .unsigned 32 (.fresh w) src false 0 = .ok (out, shifted) ∧
      out.width ∈ widths ∧ w ≤ out.width ∧
      out.val.setWidth 32 = (src.val.setWidth (reach w src)).setWidth 32 := by
  rcases fixup_unsigned_cases hw src hnarrow hactual with
    ⟨out, hfix, ⟨hmem, hle⟩, -, hlow⟩ | ⟨hlimit, hreach, hfix⟩
  · exact ⟨out, false, hfix, hmem, hle, hlow⟩
  · obtain ⟨hpos, hle⟩ := le_of_mem_widths hactual
    have hroom : src.actual < 64 := by
      unfold lsrLimit at hlimit
      split at hlimit <;> omega
    rw [hfix, shamt_of_mem (by omega)]
    refine ⟨_, _, rfl, by simp [widths], (le_of_mem_widths hw).2, ?_⟩
    have hsum : (64 - (src.actual : ℤ) - 0).toNat = 64 - src.actual := by omega
    rw [hsum, srli, slli, ushiftRight_shiftLeft hle, hreach,
      BitVec.setWidth_setWidth_of_le _ (by decide)]

theorem fixup_unsigned_of_not_mem (hactual : src.actual ∉ widths) (shiftBy : ℤ) :
    fixup .unsigned 32 (.fresh w) src false shiftBy = .error "not implemented" := by
  simp only [widths, List.mem_cons, List.not_mem_nil, or_false, not_or] at hactual
  simp only [fixup, Bool.false_eq_true, and_false, if_false]
  split <;> simp_all

/-- The low half of a word that has been shifted. -/
theorem setWidth_srliw (hw : w ≤ 32) {x : BitVec 64} {k : ℕ} (hk : k ≤ 32)
    (h : x.setWidth 32 = (src.val.setWidth k).setWidth 32) (m : ℕ) :
    (srliw x m).setWidth w = ((src.val.setWidth k).setWidth 64 >>> m).setWidth w := by
  rw [srliw, ← BitVec.setWidth_setWidth_of_le _ hw, setWidth_signExtend (by decide), h]
  ext i hi
  simp only [BitVec.getElem_setWidth, BitVec.getLsbD_ushiftRight, BitVec.getLsbD_setWidth]
  by_cases hki : m + i < k
  · simp [hki, show m + i < 32 by omega, show m + i < 64 by omega]
  · simp [hki]

include hw in
theorem gives_srli (hn : 0 < n) (hn64 : n < 64) :
    Gives (Shift.srli w src n)
      (w = 64 ∨ (w = 32 ∧ n < 32) ∨
        (w < 32 ∧ src.actual ∈ widths ∧ n < lsrLimit src.actual))
      (shiftedDown w src n) := by
  by_cases hnarrow : w < 32
  · have hbits := eq_of_lt_32 hw hnarrow
    have hsrli : Shift.srli w src n = do
        let (out, shifted) ← fixup .unsigned 32 (.fresh w) src false (-n)
        if shifted then return out
        else
          let n ← shamt 32 n
          return { out with val := srliw out.val n } := by
      rcases hbits with rfl | rfl <;> rfl
    rw [hsrli]
    by_cases hactual : src.actual ∈ widths
    · rcases fixup_unsigned_cases hw src hnarrow hactual with
        ⟨out, hfix, hwidth, hlimit, hlow⟩ | ⟨hlimit, hreach, hfix⟩
      · rw [hfix]
        refine (gives_shamt hn fun _ => ?_).congr ?_
        · exact ⟨hwidth.1, hwidth.2,
            setWidth_srliw src hnarrow.le (by simp [reach, hnarrow]) hlow n⟩
        · rw [hlimit]
          simp only [hnarrow, hactual, true_and]
          omega
      · have hle := (le_of_mem_widths hactual).2
        rw [hfix]
        constructor
        · rintro (h | h | ⟨-, -, h⟩)
          · omega
          · omega
          · rw [shamt_of_mem (by omega)]
            refine ⟨_, rfl, hasLow_64 hw ?_⟩
            have hsum : (64 - (src.actual : ℤ) - -(n : ℤ)).toNat = 64 - src.actual + n := by omega
            rw [hsum, srli, slli, BitVec.shiftRight_add, ushiftRight_shiftLeft hle, shiftedDown,
              hreach]
        · intro h
          rw [shamt_of_not_mem (by simp only [hnarrow, hactual, true_and] at h; omega)]
          exact ⟨_, rfl⟩
    · rw [fixup_unsigned_of_not_mem src hactual]
      refine ⟨fun h => ?_, fun _ => ⟨_, rfl⟩⟩
      rcases h with h | h | h
      · omega
      · omega
      · exact absurd h.2.1 hactual
  · rcases eq_of_not_lt_32 hw hnarrow with rfl | rfl
    · refine (gives_shamt hn fun _ => ?_).congr (by omega)
      exact hasLow_64 hw (setWidth_srliw src le_rfl (by simp [reach]) (by simp [reach]) n)
    · refine (gives_shamt hn fun _ => ?_).congr (by omega)
      exact hasLow_fresh hw (by simp [shiftedDown, reach, srli])

include hw in
/-- The extension with the sign before a right shift of a narrow value. -/
theorem fixup_signed_cases {shiftBy : ℤ} (hwidth : src.width ∈ widths) :
    (∃ out, fixup .signed 32 (.fresh w) src false shiftBy = .ok (out, false) ∧
        (out.width ∈ widths ∧ w ≤ out.width) ∧ asrLimit src.width = 32 ∧ out.val = src.full) ∨
      (asrLimit src.width = src.width ∧
        fixup .signed 32 (.fresh w) src false shiftBy = do
          let n ← shamt 64 (64 - src.width - shiftBy)
          return (⟨srai (slli src.val (64 - src.width)) n, 64, w⟩, true)) := by
  have h64 : 64 ∈ widths ∧ w ≤ 64 := ⟨by simp [widths], (le_of_mem_widths hw).2⟩
  simp only [widths, List.mem_cons, List.not_mem_nil, or_false] at hwidth
  rcases hwidth with ht | ht | ht | ht
  · exact .inr ⟨by rw [ht]; rfl, by simp [fixup, ht, TypedRegister.fresh]⟩
  · exact .inr ⟨by rw [ht]; rfl, by simp [fixup, ht, TypedRegister.fresh]⟩
  · exact .inl ⟨⟨sextw src.val, 64, 32⟩, by simp [fixup, ht], h64, by rw [ht]; rfl,
      by rw [TypedRegister.full, ht]; rfl⟩
  · exact .inl ⟨{ TypedRegister.fresh w with val := src.val }, by simp [fixup, ht],
      ⟨hw, le_rfl⟩, by rw [ht]; rfl, by rw [TypedRegister.full, ht]; simp [sext]⟩

include hw in
/-- The extension with the sign alone. -/
theorem fixup_signed_full (hwidth : src.width ∈ widths) :
    ∃ out shifted, fixup .signed 32 (.fresh w) src false 0 = .ok (out, shifted) ∧
      out.width ∈ widths ∧ w ≤ out.width ∧ out.val = src.full := by
  rcases fixup_signed_cases hw src hwidth with
    ⟨out, hfix, ⟨hmem, hle⟩, -, hval⟩ | ⟨hlimit, hfix⟩
  · exact ⟨out, false, hfix, hmem, hle, hval⟩
  · obtain ⟨hpos, hle⟩ := le_of_mem_widths hwidth
    have hroom : src.width < 64 := by
      unfold asrLimit at hlimit
      split at hlimit <;> omega
    rw [hfix, shamt_of_mem (by omega)]
    refine ⟨_, _, rfl, by simp [widths], (le_of_mem_widths hw).2, ?_⟩
    have hsum : (64 - (src.width : ℤ) - 0).toNat = 64 - src.width := by omega
    rw [hsum, srai, slli, sshiftRight_shiftLeft hpos hle]
    rfl

variable {v : BitVec w} {src}

/-- The low half of a signed word that has been shifted. -/
theorem setWidth_sraiw (hpos : 0 < w) (hle : w ≤ 32) {x : BitVec 64}
    (h : x.setWidth 32 = v.signExtend 32) (m : ℕ) : (sraiw x m).setWidth w = v.sshiftRight m := by
  rw [sraiw, ← BitVec.setWidth_setWidth_of_le _ hle, setWidth_signExtend (by decide), h,
    setWidth_sshiftRight_signExtend hpos hle]

include hw in
theorem gives_srai (hsrc : src.Carries v) (hn : 0 < n) (hn64 : n < 64) :
    Gives (Shift.srai w src n)
      (w = 64 ∨ (w = 32 ∧ n < 32) ∨ (w < 32 ∧ n < asrLimit src.width))
      (v.sshiftRight n) := by
  obtain ⟨hpos, hw64⟩ := le_of_mem_widths hw
  have hfull : src.full = v.signExtend 64 := hsrc.full_eq
  by_cases hnarrow : w < 32
  · have hbits := eq_of_lt_32 hw hnarrow
    have hsrai : Shift.srai w src n = do
        let (out, shifted) ← fixup .signed 32 (.fresh w) src false (-n)
        if shifted then return out
        else
          let n ← shamt 32 n
          return { out with val := sraiw out.val n } := by
      rcases hbits with rfl | rfl <;> rfl
    rw [hsrai]
    rcases fixup_signed_cases hw src hsrc.mem with
      ⟨out, hfix, hwidth, hlimit, hval⟩ | ⟨hlimit, hfix⟩
    · rw [hfix]
      refine (gives_shamt hn fun _ => ?_).congr ?_
      · refine ⟨hwidth.1, hwidth.2, setWidth_sraiw hpos hnarrow.le ?_ n⟩
        rw [hval, hfull, setWidth_signExtend_of_le hnarrow.le (by decide)]
      · rw [hlimit]
        omega
    · obtain ⟨hwpos, hle⟩ := le_of_mem_widths hsrc.mem
      rw [hfix]
      constructor
      · rintro (h | h | ⟨-, h⟩)
        · omega
        · omega
        · rw [shamt_of_mem (by omega)]
          refine ⟨_, rfl, hasLow_64 hw ?_⟩
          have hsum : (64 - (src.width : ℤ) - -(n : ℤ)).toNat = 64 - src.width + n := by omega
          rw [hsum, srai, slli, BitVec.sshiftRight_add, sshiftRight_shiftLeft hwpos hle]
          change (src.full.sshiftRight n).setWidth w = _
          rw [hfull, setWidth_sshiftRight_signExtend hpos hw64]
      · intro h
        rw [shamt_of_not_mem (by omega)]
        exact ⟨_, rfl⟩
  · have hlow := hsrc.setWidth_eq
    rcases eq_of_not_lt_32 hw hnarrow with rfl | rfl
    · refine (gives_shamt hn fun _ => ?_).congr (by omega)
      refine hasLow_64 hw (setWidth_sraiw hpos le_rfl ?_ n)
      rw [hlow]
      simp
    · refine (gives_shamt hn fun _ => ?_).congr (by omega)
      refine hasLow_fresh hw ?_
      rw [← hlow]
      simp [srai]

include hw in
theorem gives_sll (src : TypedRegister) (x : BitVec 64) :
    Gives (Shift.sll w src x) True
      (src.val.setWidth w <<< (x.toNat % if w = 32 then 32 else 64)) := by
  have hwide := hasLow_fresh hw
    (setWidth_shiftLeft (le_of_mem_widths hw).2 src.val (x.toNat % 64))
  simp only [widths, List.mem_cons, List.not_mem_nil, or_false] at hw
  rcases hw with rfl | rfl | rfl | rfl
  · exact gives_of_hasLow rfl hwide
  · exact gives_of_hasLow rfl hwide
  · refine gives_of_hasLow rfl (hasLow_64 (by decide) ?_)
    rw [slliw, setWidth_sext (by decide), setWidth_shiftLeft (by decide)]
    rfl
  · exact gives_of_hasLow rfl hwide

include hw in
theorem gives_srl (src : TypedRegister) (x : BitVec 64) :
    Gives (Shift.srl w src x) (w < 32 → src.actual ∈ widths)
      (shiftedDown w src (x.toNat % if w = 64 then 64 else 32)) := by
  by_cases hnarrow : w < 32
  · have hbits := eq_of_lt_32 hw hnarrow
    have hword : (if w = 64 then 64 else 32) = 32 := if_neg (by omega)
    have hsrl : Shift.srl w src x = do
        let (out, _) ← fixup .unsigned 32 (.fresh w) src false 0
        return { out with val := srliw out.val (x.toNat % 32) } := by
      rcases hbits with rfl | rfl <;> rfl
    rw [hsrl, hword]
    by_cases hactual : src.actual ∈ widths
    · obtain ⟨out, shifted, hfix, hmem, hle, hlow⟩ := fixup_unsigned_low hw src hnarrow hactual
      have hlow' : TypedRegister.HasLow { out with val := srliw out.val (x.toNat % 32) }
          (shiftedDown w src (x.toNat % 32)) :=
        ⟨hmem, hle, setWidth_srliw src hnarrow.le (by simp [reach, hnarrow]) hlow _⟩
      rw [hfix]
      exact (gives_of_hasLow rfl hlow').congr (iff_of_true trivial fun _ => hactual)
    · refine ⟨fun h => absurd (h hnarrow) hactual, fun _ => ?_⟩
      rw [fixup_unsigned_of_not_mem src hactual]
      exact ⟨_, rfl⟩
  · refine (?_ : Gives _ True _).congr (iff_of_true trivial fun h => absurd h hnarrow)
    rcases eq_of_not_lt_32 hw hnarrow with rfl | rfl
    · exact gives_of_hasLow rfl (hasLow_64 hw
        (setWidth_srliw src le_rfl (by simp [reach]) (by simp [reach]) _))
    · exact gives_of_hasLow rfl (hasLow_fresh hw (by simp [shiftedDown, reach]))

include hw in
theorem gives_sra (hsrc : src.Carries v) (x : BitVec 64) :
    Gives (Shift.sra w src x) True
      (v.sshiftRight (x.toNat % if w = 64 then 64 else 32)) := by
  obtain ⟨hpos, hw64⟩ := le_of_mem_widths hw
  have hfull : src.full = v.signExtend 64 := hsrc.full_eq
  by_cases hnarrow : w < 32
  · have hbits := eq_of_lt_32 hw hnarrow
    have hword : (if w = 64 then 64 else 32) = 32 := if_neg (by omega)
    have hsra : Shift.sra w src x = do
        let (out, _) ← fixup .signed 32 (.fresh w) src false 0
        return { out with val := sraiw out.val (x.toNat % 32) } := by
      rcases hbits with rfl | rfl <;> rfl
    obtain ⟨out, shifted, hfix, hmem, hle, hval⟩ := fixup_signed_full hw src hsrc.mem
    have hout : out.val.setWidth 32 = v.signExtend 32 := by
      rw [hval, hfull, setWidth_signExtend_of_le hnarrow.le (by decide)]
    have hlow : TypedRegister.HasLow { out with val := sraiw out.val (x.toNat % 32) }
        (v.sshiftRight (x.toNat % 32)) :=
      ⟨hmem, hle, setWidth_sraiw hpos hnarrow.le hout _⟩
    rw [hsra, hword, hfix]
    exact gives_of_hasLow rfl hlow
  · have hlow := hsrc.setWidth_eq
    rcases eq_of_not_lt_32 hw hnarrow with rfl | rfl
    · refine gives_of_hasLow rfl (hasLow_64 hw (setWidth_sraiw hpos le_rfl ?_ _))
      rw [hlow]
      simp
    · refine gives_of_hasLow rfl (hasLow_fresh hw ?_)
      rw [← hlow]
      simp

end Results

/-! ## When the result is the shift -/

/-- The result is right for the first use, and for the others if there are any. -/
def ShiftRight (op : ShiftOp) {w : ℕ} (v : BitVec w) (n : ℕ) (reused : Bool)
    (res : BitVec 64 → Except String (Uses TypedRegister × Flags)) : Prop :=
  ∀ unwritten, ∃ u f, res unwritten = .ok (u, f) ∧ u.first.val.setWidth w = op.value v n ∧
    (reused → u.later.val.setWidth w = op.value v n)

/-- A shift right by `n` finds each bit of its result at `s` in the host : the bit is one of the
value and within reach of the host, or neither, or zero. -/
def comesDown (w : ℕ) (src : TypedRegister) (s n : ℕ) : Prop :=
  ∀ i < w, (decide (s + i < reach w src) && src.val.getLsbD (s + i)) =
    (decide (n + i < w) && src.val.getLsbD (n + i))

/-- The amounts that the path with an immediate gets right. -/
def immFits (op : ShiftOp) (w : ℕ) (src : TypedRegister) (n : ℕ) : Prop :=
  if w = 64 then True
  else if w = 32 then n < 32
  else match op with
    | .lsl => True
    | .lsr => src.actual ∈ widths ∧ n < lsrLimit src.actual ∧ comesDown w src n n
    | .asr => n < asrLimit src.width

/-- The amounts that the path with a register gets right. The instructions on words shift by
`n % 32`. -/
def regFits (op : ShiftOp) {w : ℕ} (src : TypedRegister) (v : BitVec w) (n : ℕ) : Prop :=
  if w = 64 then True
  else match op with
    | .lsl => w = 32 → v <<< (n % 32) = v <<< n
    | .lsr => (w < 32 → src.actual ∈ widths) ∧ comesDown w src (n % 32) n
    | .asr => v.sshiftRight (n % 32) = v.sshiftRight n

/-- The operands that the lowering of a shift gets right. -/
def shiftFits (op : ShiftOp) {w : ℕ} (src : TypedRegister) (v : BitVec w) (n : ℕ)
    (amount : Amount) (reused : Bool) : Prop :=
  match amount with
  | .imm _ => if n = 0 then reused = false else immFits op w src n
  | .reg _ => regFits op src v n

section Right

variable {w n : ℕ} {src : TypedRegister} {v : BitVec w} {amount : Amount} {reused : Bool}

theorem reach_le (hw : w ∈ widths) (src : TypedRegister) : reach w src ≤ 64 := by
  have hle := (le_of_mem_widths hw).2
  unfold reach
  split <;> omega

theorem shiftedDown_eq_iff (hw : w ∈ widths) (hsrc : src.Carries v) (s : ℕ) :
    shiftedDown w src s = v >>> n ↔ comesDown w src s n := by
  have hreach := reach_le hw src
  have hle := (le_of_mem_widths hw).2
  have hleft : ∀ i < w, (shiftedDown w src s).getLsbD i =
      (decide (s + i < reach w src) && src.val.getLsbD (s + i)) := by
    intro i hi
    by_cases hin : s + i < reach w src
    · simp [shiftedDown, hi, hin, show s + i < 64 by omega]
    · simp [shiftedDown, hin]
  have hright : ∀ i < w, (v >>> n).getLsbD i =
      (decide (n + i < w) && src.val.getLsbD (n + i)) := by
    intro i _
    rw [← hsrc.setWidth_eq, BitVec.getLsbD_ushiftRight, BitVec.getLsbD_setWidth]
  constructor
  · intro heq i hi
    rw [← hleft i hi, heq, hright i hi]
  · intro hdown
    refine BitVec.eq_of_getLsbD_eq fun i hi => ?_
    rw [hleft i hi, hdown i hi, hright i hi]

/-- Below the width, and when the host shifts by the amount, the value needs to be in reach. -/
theorem comesDown_self (hw : w ∈ widths) (hnarrow : ¬w < 32) : comesDown w src n n := by
  intro i _
  rw [reach, if_neg hnarrow]

/-- What an instruction gives is the shift if the code is there and the number is right. -/
theorem shiftRight_of_gives {op : ShiftOp} {res : Except String TypedRegister} {ok : Prop}
    {x : BitVec w} (hgives : Gives res ok x) {zf sf : Bool} :
    ShiftRight op v n reused (fun _ => do
        let out ← res
        let (out, flags) ← zeroSignFlag out zf sf .none
        return (⟨out, out⟩, flags)) ↔
      ok ∧ x = op.value v n := by
  obtain ⟨hok, herr⟩ := hgives
  constructor
  · intro hright
    obtain ⟨u, f, hres, hfirst, -⟩ := hright 0
    by_cases h : ok
    · obtain ⟨out, rfl, hlow⟩ := hok h
      obtain ⟨out', f', hflag, hval⟩ := zeroSignFlag_hasLow hlow zf sf .none
      rw [ok_bind, hflag] at hres
      obtain ⟨rfl, rfl⟩ := Prod.mk.inj (Except.ok.inj hres)
      exact ⟨h, hval.symm.trans hfirst⟩
    · obtain ⟨e, rfl⟩ := herr h
      cases hres
  · rintro ⟨h, rfl⟩ _
    obtain ⟨out, rfl, hlow⟩ := hok h
    obtain ⟨out', f', hflag, hval⟩ := zeroSignFlag_hasLow hlow zf sf .none
    rw [ok_bind, hflag]
    exact ⟨_, _, rfl, hval, fun _ => hval⟩

/-- A shift by the constant zero is right for the use that asks for it first. -/
theorem shiftRight_zero (hw : w ∈ widths) (op : ShiftOp) (hsrc : src.Carries v) :
    ShiftRight op v 0 reused
        (fun unwritten => .ok (⟨src, { TypedRegister.fresh w with val := unwritten }⟩, .none)) ↔
      reused = false := by
  have hzero : op.value v 0 = v := by cases op <;> simp [ShiftOp.value]
  constructor
  · intro hright
    have hlater : ∀ unwritten : BitVec 64, reused → unwritten.setWidth w = v := by
      intro unwritten hreused
      obtain ⟨u, f, hres, -, hlater⟩ := hright unwritten
      obtain ⟨rfl, -⟩ := Prod.mk.inj (Except.ok.inj hres)
      exact (hlater hreused).trans hzero
    rw [← Bool.not_eq_true]
    intro hreused
    have hbit := congrArg BitVec.toNat ((hlater 0 hreused).trans (hlater 1 hreused).symm)
    have hone : 1 < 2 ^ w := Nat.one_lt_two_pow (le_of_mem_widths hw).1.ne'
    simp [Nat.mod_eq_of_lt hone] at hbit
  · rintro rfl unwritten
    exact ⟨_, _, rfl, hsrc.setWidth_eq.trans hzero.symm, nofun⟩

theorem shiftRight_imm_iff (hw : w ∈ widths) (hsrc : src.Carries v) (hn : 0 < n) (hn64 : n < 64)
    (op : ShiftOp) (zf sf : Bool) :
    ShiftRight op v n reused (materialiseBitShift op w src (.imm n) zf sf) ↔
      immFits op w src n := by
  have hlsr := shiftedDown_eq_iff (n := n) hw hsrc n
  have hcode : materialiseBitShift op w src (.imm n) zf sf = fun _ => do
      let out ← match op with
        | .lsl => Shift.slli w src n
        | .lsr => Shift.srli w src n
        | .asr => Shift.srai w src n
      let (out, flags) ← zeroSignFlag out zf sf .none
      return (⟨out, out⟩, flags) := by
    ext
    exact if_neg (by omega)
  rw [hcode]
  cases op with
  | lsl =>
    rw [shiftRight_of_gives (gives_slli hw src hn hn64), hsrc.setWidth_eq]
    simp only [ShiftOp.value, and_true, immFits]
    split_ifs <;> simp_all
  | lsr =>
    rw [shiftRight_of_gives (gives_srli hw src hn hn64)]
    change _ ∧ shiftedDown w src n = v >>> n ↔ _
    rw [hlsr, immFits]
    have hself : ¬w < 32 → comesDown w src n n := comesDown_self hw
    split_ifs with h64 h32
    · exact iff_of_true ⟨.inl h64, hself (by omega)⟩ trivial
    · have hself := hself (by omega)
      constructor
      · rintro ⟨h | h | h, -⟩ <;> omega
      · exact fun h => ⟨.inr (.inl ⟨h32, h⟩), hself⟩
    · have hnarrow : w < 32 := by
        by_contra hge
        exact (eq_of_not_lt_32 hw hge).elim h32 h64
      simp [h64, h32, hnarrow, and_assoc]
  | asr =>
    rw [shiftRight_of_gives (gives_srai hw hsrc hn hn64)]
    simp only [ShiftOp.value, and_true, immFits]
    split_ifs with h64 h32
    · simp [h64]
    · simp [h32]
    · have hnarrow : w < 32 := by
        by_contra hge
        exact (eq_of_not_lt_32 hw hge).elim h32 h64
      simp [h64, h32, hnarrow]

theorem shiftRight_reg_iff (hw : w ∈ widths) (hsrc : src.Carries v) {x : BitVec 64}
    (hx : x.toNat % 64 = n) (op : ShiftOp) (zf sf : Bool) :
    ShiftRight op v n reused (materialiseBitShift op w src (.reg x) zf sf) ↔
      regFits op src v n := by
  have hlsr := fun s => shiftedDown_eq_iff (n := n) hw hsrc s
  have hword : x.toNat % 32 = n % 32 := by omega
  cases op with
  | lsl =>
    refine (shiftRight_of_gives (gives_sll hw src x)).trans ?_
    rw [hsrc.setWidth_eq]
    simp only [ShiftOp.value, true_and, regFits]
    split_ifs with h32 h64
    · omega
    · simp [h32, hword]
    · simp [hx]
    · simp [h32, hx]
  | lsr =>
    refine (shiftRight_of_gives (gives_srl hw src x)).trans ?_
    change _ ∧ shiftedDown w src _ = v >>> n ↔ _
    rw [hlsr, regFits]
    split_ifs with h64
    · rw [hx]
      exact iff_of_true ⟨by omega, comesDown_self hw (by omega)⟩ trivial
    · rw [hword]
  | asr =>
    refine (shiftRight_of_gives (gives_sra hw hsrc x)).trans ?_
    simp only [ShiftOp.value, true_and, regFits]
    split_ifs with h64
    · simp [hx]
    · rw [hword]

/-- The lowering of a shift of a scalar is right exactly if the operand and the amount fit the
instructions, on the path with an immediate and on the path with a register. -/
theorem materialiseBitShift_right_iff (hw : w ∈ widths) (hsrc : src.Carries v)
    (hamount : amount.Is 64 n) (op : ShiftOp) (zf sf : Bool) :
    ShiftRight op v n reused (materialiseBitShift op w src amount zf sf) ↔
      shiftFits op src v n amount reused := by
  cases amount with
  | imm amt =>
    obtain ⟨rfl, hn⟩ : amt = n ∧ n < 64 := hamount
    by_cases hzero : n = 0
    · subst hzero
      simpa [shiftFits] using! shiftRight_zero hw op hsrc
    · simp only [shiftFits, if_neg hzero]
      exact shiftRight_imm_iff hw hsrc (by omega) hn op zf sf
  | reg x => exact shiftRight_reg_iff hw hsrc hamount op zf sf

end Right

/-! ## When the result is the shift of 128 bits -/

section Pair

variable {src : RegPair} {n : ℕ}

theorem slliPair_eq (hn : 0 < n) (hn64 : n < 64) :
    ∃ out, Shift.slliPair src n = .ok out ∧ out.value = src.value <<< n := by
  refine ⟨⟨src.reg1 <<< n, src.reg2 <<< n ||| src.reg1 >>> (64 - n)⟩, ?_, ?_⟩
  · have hm : (64 - (n : ℤ)).toNat = 64 - n := by omega
    rw [Shift.slliPair, shamt_of_mem (by omega), ok_bind, shamt_of_mem (by omega), ok_bind, hm,
      Int.toNat_natCast]
    rfl
  · refine BitVec.eq_of_getLsbD_eq fun i hi => ?_
    simp only [RegPair.value, BitVec.getLsbD_append, BitVec.getLsbD_shiftLeft, BitVec.getLsbD_or,
      BitVec.getLsbD_ushiftRight, hi, decide_true, Bool.true_and]
    by_cases hlow : i < 64
    · have hle : i - n < 64 := by omega
      simp [hlow, hle]
    · by_cases hhigh : i - n < 64
      · have hlt : i - 64 < n := by omega
        have hsum : 64 - n + (i - 64) = i - n := by omega
        simp [hlow, hhigh, hlt, hsum, show ¬i < n by omega]
      · have hge : ¬i - 64 < n := by omega
        have hsub : i - 64 - n = i - n - 64 := by omega
        simp [hlow, hhigh, hge, hsub, show ¬i < n by omega, show i - 64 < 64 by omega,
          BitVec.getLsbD_of_ge src.reg1 (64 - n + (i - 64)) (by omega)]

theorem srliPair_eq (hn : 0 < n) (hn64 : n < 64) :
    ∃ out, Shift.srliPair src n = .ok out ∧ out.value = src.value >>> n := by
  refine ⟨⟨src.reg1 >>> n ||| src.reg2 <<< (64 - n), src.reg2 >>> n⟩, ?_, ?_⟩
  · have hm : (64 - (n : ℤ)).toNat = 64 - n := by omega
    rw [Shift.srliPair, shamt_of_mem (by omega), ok_bind, shamt_of_mem (by omega), ok_bind, hm,
      Int.toNat_natCast]
    rfl
  · refine BitVec.eq_of_getLsbD_eq fun i hi => ?_
    simp only [RegPair.value, BitVec.getLsbD_append, BitVec.getLsbD_shiftLeft, BitVec.getLsbD_or,
      BitVec.getLsbD_ushiftRight]
    by_cases hlow : i < 64
    · by_cases hin : n + i < 64
      · simp [hlow, hin, show i < 64 - n by omega]
      · have hsub : i - (64 - n) = n + i - 64 := by omega
        simp [hlow, hin, show ¬i < 64 - n by omega, hsub,
          BitVec.getLsbD_of_ge src.reg1 (n + i) (by omega)]
    · have hsub : n + (i - 64) = n + i - 64 := by omega
      simp [hlow, hsub, show ¬n + i < 64 by omega]

/-- The result of a shift of 128 bits is right for the first use, and for the others if there are
any. -/
def PairShiftRight (op : ShiftOp) (v : BitVec 128) (n : ℕ) (reused : Bool)
    (res : RegPair → Except String (Uses RegPair)) : Prop :=
  ∀ unwritten, ∃ u, res unwritten = .ok u ∧ u.first.value = op.value v n ∧
    (reused → u.later.value = op.value v n)

/-- The shifts of 128 bits that there is code for. The flags of a shift by 64 are never written, so
they do not stand in its way. -/
def pairFits (op : ShiftOp) (n : ℕ) (amount : Amount) (zf sf reused : Bool) : Prop :=
  match amount with
  | .imm _ =>
    (n = 0 ∧ reused = false) ∨ (op ≠ .asr ∧ 0 < n ∧ n < 64 ∧ zf = false ∧ sf = false) ∨
      (op ≠ .asr ∧ n = 64)
  | .reg _ => False

variable {op : ShiftOp} {amount : Amount} {reused : Bool}

theorem pairShiftRight_of_eq {out : RegPair} {res : RegPair → Except String (Uses RegPair)}
    {v : BitVec 128} (hres : ∀ unwritten, res unwritten = .ok ⟨out, out⟩)
    (hout : out.value = op.value v n) : PairShiftRight op v n reused res :=
  fun unwritten => ⟨_, hres unwritten, hout, fun _ => hout⟩

theorem not_pairShiftRight_of_error {res : RegPair → Except String (Uses RegPair)}
    {v : BitVec 128} {e : String} (hres : res ⟨0, 0⟩ = .error e) :
    ¬PairShiftRight op v n reused res := by
  intro hright
  obtain ⟨u, hok, -⟩ := hright ⟨0, 0⟩
  rw [hres] at hok
  cases hok

theorem value_zero_reg1 (src : RegPair) : RegPair.value ⟨0, src.reg1⟩ = src.value <<< 64 := by
  refine BitVec.eq_of_getLsbD_eq fun i hi => ?_
  simp only [RegPair.value, BitVec.getLsbD_append, BitVec.getLsbD_shiftLeft]
  by_cases hlow : i < 64
  · simp [hlow]
  · simp [hlow, hi, show i - 64 < 64 by omega]

theorem value_reg2_zero (src : RegPair) : RegPair.value ⟨src.reg2, 0⟩ = src.value >>> 64 := by
  refine BitVec.eq_of_getLsbD_eq fun i hi => ?_
  simp only [RegPair.value, BitVec.getLsbD_append, BitVec.getLsbD_ushiftRight]
  by_cases hlow : i < 64
  · simp [hlow]
  · simp [hlow, BitVec.getLsbD_of_ge src.reg2 i (by omega)]

/-- A shift by 64 names the registers. -/
theorem pairShiftRight_64 (zf sf : Bool) :
    PairShiftRight op src.value 64 reused (materialiseBitShiftPair op src (.imm 64) zf sf) ↔
      op ≠ .asr := by
  cases op with
  | lsl =>
    refine iff_of_true ?_ nofun
    exact pairShiftRight_of_eq (fun _ => rfl) (value_zero_reg1 src)
  | lsr =>
    refine iff_of_true ?_ nofun
    exact pairShiftRight_of_eq (fun _ => rfl) (value_reg2_zero src)
  | asr => exact iff_of_false (not_pairShiftRight_of_error rfl) (by simp)

/-- A shift that is neither by zero nor by 64 goes through the instructions. -/
theorem materialiseBitShiftPair_imm (h0 : n ≠ 0) (h64 : n ≠ 64) (zf sf : Bool)
    (unwritten : RegPair) :
    materialiseBitShiftPair op src (.imm n) zf sf unwritten = do
      let out ← Shift.immPair op src n
      if zf || sf then throw "not implemented" else return ⟨out, out⟩ := by
  simp only [materialiseBitShiftPair]
  rw [if_neg (by omega), if_neg (by omega), if_neg (by omega)]

/-- A shift by the constant zero is right for the use that asks for it first. -/
theorem pairShiftRight_zero (zf sf : Bool) :
    PairShiftRight op src.value 0 reused (materialiseBitShiftPair op src (.imm 0) zf sf) ↔
      reused = false := by
  have hzero : op.value src.value 0 = src.value := by cases op <;> simp [ShiftOp.value]
  constructor
  · intro hright
    have hlater : ∀ unwritten : RegPair, reused → unwritten.value = src.value := by
      intro unwritten hreused
      obtain ⟨u, hres, -, hlater⟩ := hright unwritten
      obtain rfl := Except.ok.inj hres
      exact (hlater hreused).trans hzero
    rw [← Bool.not_eq_true]
    intro hreused
    have hsame := (hlater ⟨0, 0⟩ hreused).trans (hlater ⟨1, 0⟩ hreused).symm
    revert hsame
    decide
  · rintro rfl unwritten
    exact ⟨_, rfl, hzero.symm, nofun⟩

/-- Below 64 the instructions shift the pair, and there are none for flags. -/
theorem pairShiftRight_low (hn : 0 < n) (hn64 : n < 64) (zf sf : Bool) :
    PairShiftRight op src.value n reused (materialiseBitShiftPair op src (.imm n) zf sf) ↔
      op ≠ .asr ∧ zf = false ∧ sf = false := by
  have hcode := @materialiseBitShiftPair_imm src n op hn.ne' hn64.ne zf sf
  by_cases hflags : zf = false ∧ sf = false
  · obtain ⟨rfl, rfl⟩ := hflags
    obtain ⟨left, hleft, hlval⟩ := @slliPair_eq src n hn hn64
    obtain ⟨right, hright, hrval⟩ := @srliPair_eq src n hn hn64
    cases op with
    | lsl =>
      refine iff_of_true (pairShiftRight_of_eq (fun _ => ?_) hlval) (by simp)
      rw [hcode, Shift.immPair, hleft]
      rfl
    | lsr =>
      refine iff_of_true (pairShiftRight_of_eq (fun _ => ?_) hrval) (by simp)
      rw [hcode, Shift.immPair, hright]
      rfl
    | asr => exact iff_of_false (not_pairShiftRight_of_error (hcode _)) (by simp)
  · refine iff_of_false ?_ fun h => hflags h.2
    have hany : (zf || sf) = true := by
      cases zf <;> cases sf <;> simp_all
    intro hright
    obtain ⟨u, hres, -⟩ := hright ⟨0, 0⟩
    rw [hcode, hany] at hres
    obtain ⟨out, -, hthrow⟩ := bind_eq_ok.1 hres
    cases hthrow

/-- Above 64 the assembler rejects the amount. -/
theorem not_pairShiftRight_high (hn : 64 < n) (zf sf : Bool) :
    ¬PairShiftRight op src.value n reused (materialiseBitShiftPair op src (.imm n) zf sf) := by
  have hcode := @materialiseBitShiftPair_imm src n op (by omega) hn.ne' zf sf
  have hamt : shamt 64 (n : ℤ) = .error "expected: (shamt > 0) && (shamt < XLEN)" :=
    shamt_of_not_mem (by omega)
  have himm : ∃ e, Shift.immPair op src n = .error e := by
    cases op with
    | lsl => exact ⟨_, by rw [Shift.immPair, Shift.slliPair, hamt]; rfl⟩
    | lsr => exact ⟨_, by rw [Shift.immPair, Shift.srliPair, hamt]; rfl⟩
    | asr => exact ⟨_, rfl⟩
  obtain ⟨e, herr⟩ := himm
  have hres : materialiseBitShiftPair op src (.imm n) zf sf ⟨0, 0⟩ = .error e := by
    rw [hcode, herr]
    rfl
  exact not_pairShiftRight_of_error hres

theorem materialiseBitShiftPair_right_iff (hamount : amount.Is 128 n) (op : ShiftOp)
    (zf sf : Bool) :
    PairShiftRight op src.value n reused (materialiseBitShiftPair op src amount zf sf) ↔
      pairFits op n amount zf sf reused := by
  cases amount with
  | reg x => exact iff_of_false (not_pairShiftRight_of_error rfl) not_false
  | imm amt =>
    obtain ⟨rfl, hn⟩ : amt = n ∧ n < 128 := hamount
    simp only [pairFits]
    rcases lt_trichotomy n 64 with hlt | rfl | hgt
    · by_cases hzero : n = 0
      · subst hzero
        refine (pairShiftRight_zero zf sf).trans ?_
        simp
      · rw [pairShiftRight_low (by omega) hlt]
        simp [hzero, hlt, hlt.ne, show 0 < n by omega]
    · refine (pairShiftRight_64 zf sf).trans ?_
      simp
    · refine iff_of_false (not_pairShiftRight_high hgt zf sf) ?_
      omega

end Pair

/-! ## Both lowerings -/

/-- The shifts are right exactly for the operands and amounts that fit the instructions, for
scalars and for values of 128 bits. -/
theorem bitShift_right_iff (op : ShiftOp) (amount : Amount) (zf sf reused : Bool) :
    (∀ {w n : ℕ} {src : TypedRegister} {v : BitVec w}, w ∈ widths → src.Carries v →
      amount.Is 64 n →
      (ShiftRight op v n reused (materialiseBitShift op w src amount zf sf) ↔
        shiftFits op src v n amount reused)) ∧
    (∀ {n : ℕ} {src : RegPair}, amount.Is 128 n →
      (PairShiftRight op src.value n reused (materialiseBitShiftPair op src amount zf sf) ↔
        pairFits op n amount zf sf reused)) :=
  ⟨fun hw hsrc hamount => materialiseBitShift_right_iff hw hsrc hamount op zf sf,
    fun hamount => materialiseBitShiftPair_right_iff hamount op zf sf⟩

/-- Byte 9 shifted left by 4, and a pair shifted right by 64. -/
theorem bitShift_right_four :
    ShiftRight .lsl (9 : BitVec 8) 4 false (materialiseBitShift .lsl 8 ⟨9, 8, 0⟩ (.imm 4) true true)
      ∧ PairShiftRight .lsr (RegPair.value ⟨7, 3⟩) 64 true
        (materialiseBitShiftPair .lsr ⟨7, 3⟩ (.imm 64) true true) :=
  ⟨((bitShift_right_iff .lsl (.imm 4) true true false).1 (by decide)
      ⟨by decide, by decide, by decide⟩ ⟨rfl, by decide⟩).2 (by simp [shiftFits, immFits]),
    ((bitShift_right_iff .lsr (.imm 64) true true true).2 ⟨rfl, by decide⟩).2 (by simp [pairFits])⟩

/-- `shr` of 16 bits by 16. With the amount in a register the result is zero, and with an
immediate the extension has no room for the shift. -/
theorem not_shiftRight_sixteen :
    ShiftRight .lsr (1 : BitVec 16) 16 false
        (materialiseBitShift .lsr 16 ⟨1, 16, 0⟩ (.reg 16) false false) ∧
      ¬ShiftRight .lsr (1 : BitVec 16) 16 false
        (materialiseBitShift .lsr 16 ⟨1, 16, 0⟩ (.imm 16) false false) := by
  constructor
  · exact fun _ => ⟨_, _, rfl, by decide, nofun⟩
  · intro hright
    obtain ⟨u, f, hres, -⟩ := hright 0
    cases hres

end Arancini.Riscv
