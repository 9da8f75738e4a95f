import Mathlib.Tactic.Common
import Arancini.Lib.Bits
import Arancini.Lib.Except

/-!
# The shift instructions

`shifts_translator` emits the nodes of `SHL`, `SHR` and `SAR`, and of `SHLD` and `SHRD`. The count
is an immediate or `CL`, and each has its own sequence.

A value node reads the operands before the instruction writes any, so it is a function of the state
before the instruction. The branches of the sequences all go to its end.

The sequence for an immediate asks a node for its constant after the node was masked, when it is
no longer a constant. What it reads there is left open. `shifts_right_iff` says for which
immediates the instruction is right all the same, and for which counts in `CL`.
-/

namespace Arancini.X86

/-! ## Nodes -/

/-- The operands and the flags of a shift. `op1` is the second operand of `SHLD` and `SHRD`. -/
structure ShiftState (w : ℕ) where
  op0 : BitVec w
  op1 : BitVec w
  cl : BitVec 8
  zf : Bool
  sf : Bool
  cf : Bool
  of : Bool
  deriving DecidableEq

/-- A value node of `n` bits, as a function of the state before the instruction. -/
abbrev Val (w n : ℕ) :=
  ShiftState w → BitVec n

/-- The flags the translator writes. -/
inductive FlagReg
  | ZF
  | SF
  | CF
  | OF
  deriving DecidableEq

/-- The actions of a shift. A conditional branch goes to the end. -/
inductive ShiftAction (w : ℕ)
  | writeOperand (v : Val w w)
  | writeReg (flag : FlagReg) (v : Val w 1)
  | condBr (cond : Val w 1)

def ShiftState.setFlag {w : ℕ} (s : ShiftState w) (flag : FlagReg) (b : Bool) : ShiftState w :=
  match flag with
  | .ZF => { s with zf := b }
  | .SF => { s with sf := b }
  | .CF => { s with cf := b }
  | .OF => { s with of := b }

/-- Run the actions, where the instruction started in `s₀`. -/
def runActions {w : ℕ} (s₀ : ShiftState w) : List (ShiftAction w) → ShiftState w → ShiftState w
  | [], s => s
  | .writeOperand v :: l, s => runActions s₀ l { s with op0 := v s₀ }
  | .writeReg flag v :: l, s => runActions s₀ l (s.setFlag flag (v s₀ == 1#1))
  | .condBr cond :: l, s => if cond s₀ = 0#1 then runActions s₀ l s else s

section Builder

variable {w n m : ℕ}

def insertConstant (n v : ℕ) : Val w n := fun _ => BitVec.ofNat n v

def insertAnd (lhs rhs : Val w n) : Val w n := fun s => lhs s &&& rhs s

def insertOr (lhs rhs : Val w n) : Val w n := fun s => lhs s ||| rhs s

def insertXor (lhs rhs : Val w n) : Val w n := fun s => lhs s ^^^ rhs s

/-- A difference has the type of its left operand. -/
def insertSub (lhs : Val w n) (rhs : Val w m) : Val w n := fun s => lhs s - (rhs s).setWidth n

def insertCmpeq (lhs rhs : Val w n) : Val w 1 := fun s => BitVec.ofBool (lhs s == rhs s)

def insertCmpne (lhs rhs : Val w n) : Val w 1 := fun s => BitVec.ofBool (lhs s != rhs s)

def insertLsl (input : Val w n) (amount : Val w m) : Val w n := fun s =>
  input s <<< (amount s).toNat

def insertLsr (input : Val w n) (amount : Val w m) : Val w n := fun s =>
  input s >>> (amount s).toNat

def insertAsr (input : Val w n) (amount : Val w m) : Val w n := fun s =>
  (input s).sshiftRight (amount s).toNat

/-- The position is an `int`, and the node keeps it as an unsigned number of 64 bits. -/
def insertBitExtract (value : Val w n) (start : BitVec 32) (length : ℕ) :
    Except String (Val w length) :=
  let pos := start.signExtend 64
  if (pos + length - 1).toNat > n - 1 then .error "bit extract range is out of bound"
  else .ok fun s => (value s >>> pos.toNat).setWidth length

/-- The ports of a node that `write_flags` takes for an update. -/
def zeroPort (op : Val w n) : Val w 1 := fun s => BitVec.ofBool (op s == 0)

def negativePort (op : Val w n) : Val w 1 := fun s => BitVec.ofBool (op s).msb

/-- `write_flags` with an update of `ZF` and `SF`. It has no case for `PF`. -/
def writeFlags (op : Val w n) : List (ShiftAction w) :=
  [.writeReg .ZF (zeroPort op), .writeReg .SF (negativePort op)]

/-- The actions for a count in a register. Nothing is written if the count is zero, and `OF` if it
is one. -/
def countedActions (amt : Val w 8) (shift : Val w w) (lastShiftBit of : Val w 1) :
    List (ShiftAction w) :=
  [.condBr (insertCmpeq amt (insertConstant 8 0)), .writeOperand shift] ++ writeFlags shift ++
    [.writeReg .CF lastShiftBit, .condBr (insertCmpne amt (insertConstant 8 1)), .writeReg .OF of]

end Builder

/-! ## `SHL`, `SHR` and `SAR` -/

/-- `xed_iclass_enum_t`. -/
inductive ShiftInst
  | SHL
  | SHR
  | SAR
  deriving DecidableEq

/-- The operand that has the count. -/
inductive CountOperand
  | imm (b : BitVec 8)
  | cl
  deriving DecidableEq

/-- `read_operand` of the count. -/
def CountOperand.read {w : ℕ} : CountOperand → Val w 8
  | imm b => fun _ => b
  | cl => fun s => s.cl

section Translate

variable {w : ℕ}

/-- The count is masked to six bits for operands of 64 bits, and to five otherwise. -/
def maskCount (amt : Val w 8) : Val w 8 :=
  if w = 64 then insertAnd amt (insertConstant 8 0x3F) else insertAnd amt (insertConstant 8 0x1F)

/-- The width of the operand in a computation with `unsigned long`. -/
def widthOf (w : ℕ) : BitVec 64 := BitVec.ofNat 64 w

namespace ShiftInst

def shift (inst : ShiftInst) (src : Val w w) (amt : Val w 8) : Val w w :=
  match inst with
  | SAR => insertAsr src amt
  | SHR => insertLsr src amt
  | SHL => insertLsl src amt

/-- `last_shift_bit` for an immediate. -/
def lastShiftBitImm (inst : ShiftInst) (src : Val w w) (rotVal : BitVec 64) :
    Except String (Val w 1) :=
  match inst with
  | SHL => insertBitExtract src ((widthOf w - rotVal).setWidth 32) 1
  | SHR | SAR => insertBitExtract src ((rotVal - 1).setWidth 32) 1

/-- `last_shift_bit` for a count in a register. -/
def lastShiftBitReg (inst : ShiftInst) (src : Val w w) (amtMin1 : Val w 8) :
    Except String (Val w 1) :=
  match inst with
  | SHL => insertBitExtract (insertLsl src amtMin1) ((widthOf w - 1).setWidth 32) 1
  | SHR | SAR => insertBitExtract (insertLsr src amtMin1) 0 1

/-- What is written to `OF` after a shift by one. -/
def overflow (inst : ShiftInst) (src shift : Val w w) (lastShiftBit : Val w 1) :
    Except String (Val w 1) :=
  match inst with
  | SHL => do
    let msb ← insertBitExtract shift ((widthOf w - 1).setWidth 32) 1
    return insertXor lastShiftBit msb
  | SAR => return insertConstant 1 0
  | SHR => insertBitExtract src ((widthOf w - 1).setWidth 32) 1

/-- The write of `OF`, for an immediate. -/
def overflowImm (inst : ShiftInst) (src shift : Val w w) (lastShiftBit : Val w 1)
    (rotVal : BitVec 64) : Except String (List (ShiftAction w)) :=
  if rotVal = 1 then do
    let of ← inst.overflow src shift lastShiftBit
    return [.writeReg .OF of]
  else return []

/-- The sequence for an immediate, where `rotVal` is what is taken for the count. -/
def translateImm (inst : ShiftInst) (src : Val w w) (amt : Val w 8) (rotVal : BitVec 64) :
    Except String (List (ShiftAction w)) :=
  if rotVal = 0 then return []
  else do
    let shift := inst.shift src amt
    let lastShiftBit ← inst.lastShiftBitImm src rotVal
    let writeOf ← inst.overflowImm src shift lastShiftBit rotVal
    return [.writeOperand shift, .writeReg .CF lastShiftBit] ++ writeOf ++ writeFlags shift

/-- The sequence for a count in a register. -/
def translateReg (inst : ShiftInst) (src : Val w w) (amt : Val w 8) :
    Except String (List (ShiftAction w)) := do
  let shift := inst.shift src amt
  let amtMin1 := insertSub amt (insertConstant 8 1)
  let lastShiftBit ← inst.lastShiftBitReg src amtMin1
  let of ← inst.overflow src shift lastShiftBit
  return countedActions amt shift lastShiftBit of

/-- `do_translate`. After the mask `amt` is a node of another kind than a constant, and `field` is
what it has where a constant has its value. -/
def doTranslate (inst : ShiftInst) (field : BitVec 64) (count : CountOperand) :
    Except String (List (ShiftAction w)) :=
  let src : Val w w := ShiftState.op0
  let amt := maskCount count.read
  match count with
  | .imm _ => inst.translateImm src amt field
  | .cl => inst.translateReg src amt

end ShiftInst

end Translate

/-! ## The instructions -/

section Intel

variable {w : ℕ}

/-- The count that an instruction shifts by. -/
def maskedCount (w : ℕ) (b : BitVec 8) : ℕ :=
  b.toNat % if w = 64 then 64 else 32

namespace ShiftInst

def result (inst : ShiftInst) (v : BitVec w) (count : ℕ) : BitVec w :=
  match inst with
  | SHL => v <<< count
  | SHR => v >>> count
  | SAR => v.sshiftRight count

/-- The last bit that is shifted out, by one at least. `SAR` has copies of the sign above the
operand. -/
def lastOut (inst : ShiftInst) (v : BitVec w) (count : ℕ) : Bool :=
  match inst with
  | SHL => v.getLsbD (w - count)
  | SHR => v.getLsbD (count - 1)
  | SAR => if count ≤ w then v.getLsbD (count - 1) else v.msb

/-- The overflow of a shift by one. -/
def overflowOut (inst : ShiftInst) (v : BitVec w) : Bool :=
  match inst with
  | SHL => (v <<< 1).msb ^^ v.msb
  | SHR => v.msb
  | SAR => false

/-- What is defined after a shift by a count that is not zero. From a count of the width on, `CF` is
not defined after `SHL` and `SHR`. -/
structure Shifted (inst : ShiftInst) (count : ℕ) (s s' : ShiftState w) : Prop where
  op0 : s'.op0 = inst.result s.op0 count
  op1 : s'.op1 = s.op1
  cl : s'.cl = s.cl
  zf : s'.zf = (inst.result s.op0 count == 0)
  sf : s'.sf = (inst.result s.op0 count).msb
  cf : inst = SAR ∨ count < w → s'.cf = inst.lastOut s.op0 count
  of : count = 1 → s'.of = inst.overflowOut s.op0

/-- The instruction takes `s` to `s'`. -/
def Executes (inst : ShiftInst) (count : ℕ) (s s' : ShiftState w) : Prop :=
  if count = 0 then s' = s else inst.Shifted count s s'

end ShiftInst

end Intel

/-! ## What the nodes compute -/

/-- The widths of a general purpose register. -/
def gprWidths : List ℕ :=
  [8, 16, 32, 64]

theorem le_of_mem_gprWidths {w : ℕ} (hw : w ∈ gprWidths) : 8 ≤ w ∧ w ≤ 64 := by
  simp only [gprWidths, List.mem_cons, List.not_mem_nil, or_false] at hw
  omega

section Nodes

variable {w n : ℕ}

/-- An `int` is in range as an unsigned number of 64 bits if it is as one of 32 bits. -/
theorem toNat_signExtend_lt (hn : n ≤ 2 ^ 31) (start : BitVec 32) :
    if start.toNat < n then (start.signExtend 64).toNat = start.toNat
    else n ≤ (start.signExtend 64).toNat := by
  have hlt := start.isLt
  have hmod : start.toNat % 2 ^ 64 = start.toNat := Nat.mod_eq_of_lt (by omega)
  rw [BitVec.toNat_signExtend, BitVec.toNat_setWidth, hmod]
  simp only [BitVec.msb_eq_true_iff_two_mul_ge]
  split_ifs <;> omega

/-- One bit is extracted where it is in the value. -/
theorem insertBitExtract_one (hn : 0 < n ∧ n ≤ 64) (value : Val w n) (start : BitVec 32) :
    insertBitExtract value start 1 =
      if start.toNat < n then .ok fun s => BitVec.ofBool ((value s).getLsbD start.toNat)
      else .error "bit extract range is out of bound" := by
  have hpos : start.signExtend 64 + ((1 : ℕ) : BitVec 64) - 1 = start.signExtend 64 :=
    BitVec.add_sub_cancel _ _
  have hrange := toNat_signExtend_lt (hn.2.trans (by decide)) start
  rw [insertBitExtract, hpos]
  by_cases hlt : start.toNat < n
  · rw [if_pos hlt] at hrange
    rw [if_pos hlt, if_neg (by omega), hrange]
    congr 1
    funext s
    ext i hi
    obtain rfl : i = 0 := by omega
    simp
  · rw [if_neg hlt] at hrange
    rw [if_neg hlt, if_pos (by omega)]

theorem ofBool_beq_one (b : Bool) : (BitVec.ofBool b == 1#1) = b := by
  cases b <;> rfl

theorem ofBool_eq_zero_iff (b : Bool) : BitVec.ofBool b = 0#1 ↔ b = false := by
  cases b <;> decide

/-- The masked count of an operand. -/
theorem toNat_maskCount (amt : Val w 8) (s : ShiftState w) :
    (maskCount amt s).toNat = maskedCount w (amt s) := by
  rw [maskCount, maskedCount]
  split_ifs
  · exact (BitVec.toNat_and _ _).trans (Nat.and_two_pow_sub_one_eq_mod _ 6)
  · exact (BitVec.toNat_and _ _).trans (Nat.and_two_pow_sub_one_eq_mod _ 5)

theorem beq_ofNat_iff (x : BitVec 8) {k : ℕ} (hk : k < 256) :
    (x == BitVec.ofNat 8 k) = decide (x.toNat = k) := by
  rw [Bool.eq_iff_iff, beq_iff_eq, decide_eq_true_eq, BitVec.toNat_eq, BitVec.toNat_ofNat,
    Nat.mod_eq_of_lt hk]

theorem runActions_counted (amt : Val w 8) (shift : Val w w) (last of : Val w 1)
    (s : ShiftState w) :
    runActions s (countedActions amt shift last of) s =
      if (amt s).toNat = 0 then s
      else { s with
        op0 := shift s
        zf := shift s == 0
        sf := (shift s).msb
        cf := last s == 1#1
        of := if (amt s).toNat = 1 then of s == 1#1 else s.of } := by
  have hzero : insertCmpeq amt (insertConstant 8 0) s = 0#1 ↔ (amt s).toNat ≠ 0 := by
    rw [insertCmpeq, insertConstant, ofBool_eq_zero_iff, beq_ofNat_iff _ (by decide)]
    exact decide_eq_false_iff_not
  have hone : insertCmpne amt (insertConstant 8 1) s = 0#1 ↔ (amt s).toNat = 1 := by
    rw [insertCmpne, insertConstant, ofBool_eq_zero_iff, bne, beq_ofNat_iff _ (by decide)]
    simp
  by_cases h0 : (amt s).toNat = 0
  · simp [countedActions, runActions, hzero, h0]
  · by_cases h1 : (amt s).toNat = 1
    · simp [countedActions, writeFlags, runActions, ShiftState.setFlag, zeroPort, negativePort,
        ofBool_beq_one, hzero, hone, h1]
    · simp [countedActions, writeFlags, runActions, ShiftState.setFlag, zeroPort, negativePort,
        ofBool_beq_one, hzero, hone, h0, h1]

theorem maskedCount_lt (w : ℕ) (b : BitVec 8) : maskedCount w b < 64 := by
  rw [maskedCount]
  split_ifs <;> omega

/-- The count less one. -/
theorem toNat_amtMin1 (amt : Val w 8) (s : ShiftState w) (hne : (amt s).toNat ≠ 0) :
    (insertSub amt (insertConstant 8 1) s).toNat = (amt s).toNat - 1 := by
  have hle : (1 : BitVec 8) ≤ amt s := by
    rw [BitVec.le_def]
    exact Nat.one_le_iff_ne_zero.mpr hne
  exact BitVec.toNat_sub_of_le hle

theorem toNat_topPos (hw : 0 < w ∧ w ≤ 64) : ((widthOf w - 1).setWidth 32).toNat = w - 1 := by
  rw [widthOf, BitVec.toNat_setWidth, BitVec.toNat_sub, BitVec.toNat_ofNat]
  simp only [BitVec.ofNat_eq_ofNat, BitVec.toNat_ofNat]
  omega

namespace ShiftInst

/-- The place of the last bit that is shifted out, by a count up to the width. -/
def lastPos (inst : ShiftInst) (w count : ℕ) : ℕ :=
  match inst with
  | SHL => w - count
  | SHR | SAR => count - 1

theorem lastOut_of_le {inst : ShiftInst} {count : ℕ} (h : count ≤ w) (v : BitVec w) :
    inst.lastOut v count = v.getLsbD (inst.lastPos w count) := by
  cases inst with
  | SHL => rfl
  | SHR => rfl
  | SAR => rw [lastOut, if_pos h, lastPos]

theorem lastOut_eq {inst : ShiftInst} {count : ℕ} (h : inst = SAR ∨ count < w) (v : BitVec w) :
    inst.lastOut v count = v.getLsbD (inst.lastPos w (min count w)) := by
  rcases le_or_gt count w with hle | hgt
  · rw [min_eq_left hle, lastOut_of_le hle]
  · obtain rfl : inst = SAR := h.resolve_right (by omega)
    rw [min_eq_right hgt.le, lastOut, if_neg (by omega), lastPos, BitVec.msb_eq_getLsbD_last]

/-- What is taken for the count gives a bit of the operand if its low half is a count up to the
width. -/
theorem lastShiftBitImm_eq (inst : ShiftInst) (hw : 0 < w ∧ w ≤ 64) (src : Val w w)
    (rotVal : BitVec 64) :
    inst.lastShiftBitImm src rotVal =
      if 1 ≤ rotVal.toNat % 2 ^ 32 ∧ rotVal.toNat % 2 ^ 32 ≤ w then
        .ok fun s => BitVec.ofBool ((src s).getLsbD (inst.lastPos w (rotVal.toNat % 2 ^ 32)))
      else .error "bit extract range is out of bound" := by
  have hleft : ((widthOf w - rotVal).setWidth 32).toNat =
      (2 ^ 32 - rotVal.toNat % 2 ^ 32 + w) % 2 ^ 32 := by
    rw [setWidth_sub (by decide), BitVec.toNat_sub, widthOf, BitVec.toNat_setWidth,
      BitVec.toNat_setWidth, BitVec.toNat_ofNat]
    omega
  have hright : ((rotVal - 1).setWidth 32).toNat =
      (2 ^ 32 - 1 + rotVal.toNat % 2 ^ 32) % 2 ^ 32 := by
    rw [setWidth_sub (by decide), BitVec.toNat_sub, BitVec.toNat_setWidth]
    rfl
  have hlt := Nat.mod_lt rotVal.toNat (show 0 < 2 ^ 32 by decide)
  generalize rotVal.toNat % 2 ^ 32 = low at *
  cases inst with
  | SHL =>
    rw [lastShiftBitImm, insertBitExtract_one hw, hleft, lastPos]
    split_ifs
    · rw [show (2 ^ 32 - low + w) % 2 ^ 32 = w - low by omega]
    · omega
    · omega
    · rfl
  | SHR | SAR =>
    rw [lastShiftBitImm, insertBitExtract_one hw, hright, lastPos]
    split_ifs
    · rw [show (2 ^ 32 - 1 + low) % 2 ^ 32 = low - 1 by omega]
    · omega
    · omega
    · rfl

/-- The last bit that `SHL`, `SHR` and `SAR` by a count in `CL` write to `CF`. -/
def carryReg (inst : ShiftInst) (v : BitVec w) (count : ℕ) : Bool :=
  decide (count ≤ w) && v.getLsbD (inst.lastPos w count)

theorem carryReg_of_le {inst : ShiftInst} {v : BitVec w} {count : ℕ} (h : count ≤ w) :
    inst.carryReg v count = inst.lastOut v count := by
  rw [carryReg, decide_eq_true h, Bool.true_and, lastOut_of_le h]

theorem lastShiftBitReg_eq (inst : ShiftInst) (hw : 0 < w ∧ w ≤ 64) (src : Val w w)
    (amt : Val w 8) :
    ∃ last, inst.lastShiftBitReg src (insertSub amt (insertConstant 8 1)) = .ok last ∧
      ∀ s, (amt s).toNat ≠ 0 → last s = BitVec.ofBool (inst.carryReg (src s) (amt s).toNat) := by
  cases inst with
  | SHL =>
    have hlast : SHL.lastShiftBitReg src (insertSub amt (insertConstant 8 1)) = .ok fun s =>
        BitVec.ofBool ((insertLsl src (insertSub amt (insertConstant 8 1)) s).getLsbD (w - 1)) := by
      rw [lastShiftBitReg, insertBitExtract_one hw, toNat_topPos hw, if_pos (by omega)]
    refine ⟨_, hlast, fun s hne => ?_⟩
    have hmin := toNat_amtMin1 amt s hne
    rw [insertLsl, hmin, BitVec.getLsbD_shiftLeft, carryReg, lastPos]
    congr 1
    by_cases hle : (amt s).toNat ≤ w
    · have hpos : w - 1 - ((amt s).toNat - 1) = w - (amt s).toNat := by omega
      simp [hpos, hle, show w - 1 < w by omega, show ¬w - 1 < (amt s).toNat - 1 by omega]
    · simp [hle, show w - 1 < (amt s).toNat - 1 by omega]
  | SHR | SAR =>
    have hlast : ∀ inst, inst ≠ SHL →
        inst.lastShiftBitReg src (insertSub amt (insertConstant 8 1)) = .ok fun s =>
          BitVec.ofBool ((insertLsr src (insertSub amt (insertConstant 8 1)) s).getLsbD 0) := by
      intro inst hinst
      cases inst with
      | SHL => contradiction
      | SHR | SAR =>
        rw [lastShiftBitReg, insertBitExtract_one hw, if_pos (by simpa using hw.1)]
        rfl
    refine ⟨_, hlast _ nofun, fun s hne => ?_⟩
    have hmin := toNat_amtMin1 amt s hne
    rw [insertLsr, hmin, BitVec.getLsbD_ushiftRight, carryReg, lastPos, Nat.add_zero]
    congr 1
    by_cases hle : (amt s).toNat ≤ w
    · simp [hle]
    · simp [hle, BitVec.getLsbD_of_ge (src s) ((amt s).toNat - 1) (by omega)]

/-- The state after a shift, with these flags. -/
def after (inst : ShiftInst) (count : ℕ) (cf of : Bool) (s : ShiftState w) : ShiftState w :=
  { s with
    op0 := inst.result s.op0 count
    zf := inst.result s.op0 count == 0
    sf := (inst.result s.op0 count).msb
    cf := cf
    of := of }

theorem shifted_after_iff (inst : ShiftInst) (count : ℕ) (cf of : Bool) (s : ShiftState w) :
    inst.Shifted count s (inst.after count cf of s) ↔
      (inst = SAR ∨ count < w → cf = inst.lastOut s.op0 count) ∧
        (count = 1 → of = inst.overflowOut s.op0) :=
  ⟨fun h => ⟨h.cf, h.of⟩, fun h => ⟨rfl, rfl, rfl, rfl, rfl, h.1, h.2⟩⟩

theorem shift_eq (inst : ShiftInst) (amt : Val w 8) (s : ShiftState w) :
    inst.shift ShiftState.op0 amt s = inst.result s.op0 (amt s).toNat := by
  cases inst <;> rfl

/-- The overflow, where the last bit was the top one. -/
theorem overflow_eq (inst : ShiftInst) (hw : 0 < w ∧ w ≤ 64) (src shift : Val w w)
    (last : Val w 1) :
    ∃ of, inst.overflow src shift last = .ok of ∧
      ∀ s, shift s = inst.result (src s) 1 → last s = BitVec.ofBool (inst.lastOut (src s) 1) →
        of s = BitVec.ofBool (inst.overflowOut (src s)) := by
  have htop : ∀ v : Val w w, insertBitExtract v ((widthOf w - 1).setWidth 32) 1 =
      .ok fun s => BitVec.ofBool (v s).msb := by
    intro v
    rw [insertBitExtract_one hw, toNat_topPos hw, if_pos (by omega)]
    simp only [BitVec.msb_eq_getLsbD_last]
  cases inst with
  | SHL =>
    refine ⟨insertXor last fun s => BitVec.ofBool (shift s).msb, ?_, fun s hshift hlast => ?_⟩
    · rw [overflow, htop]
      rfl
    · rw [insertXor, hshift, hlast, result, lastOut, overflowOut, ← BitVec.msb_eq_getLsbD_last,
        BitVec.ofBool_xor_ofBool, Bool.xor_comm]
  | SHR => exact ⟨_, htop src, fun s _ _ => rfl⟩
  | SAR => exact ⟨_, rfl, fun s _ _ => rfl⟩

/-- What the sequence for `CL` does. -/
theorem doTranslate_cl (inst : ShiftInst) (hw : 0 < w ∧ w ≤ 64) (field : BitVec 64) :
    ∃ code, inst.doTranslate field .cl = .ok code ∧ ∀ s : ShiftState w,
      runActions s code s = if maskedCount w s.cl = 0 then s else
        inst.after (maskedCount w s.cl) (inst.carryReg s.op0 (maskedCount w s.cl))
          (if maskedCount w s.cl = 1 then inst.overflowOut s.op0 else s.of) s := by
  have hcount : ∀ s : ShiftState w,
      (maskCount CountOperand.cl.read s).toNat = maskedCount w s.cl := toNat_maskCount _
  change ∃ code, inst.translateReg ShiftState.op0 (maskCount CountOperand.cl.read) = .ok code ∧ _
  generalize maskCount CountOperand.cl.read = amt at hcount ⊢
  obtain ⟨last, hlast, hcarry⟩ := inst.lastShiftBitReg_eq hw ShiftState.op0 amt
  obtain ⟨of, hof, hover⟩ :=
    inst.overflow_eq hw ShiftState.op0 (inst.shift ShiftState.op0 amt) last
  have hcode : inst.translateReg ShiftState.op0 amt =
      .ok (countedActions amt (inst.shift ShiftState.op0 amt) last of) := by
    rw [translateReg, hlast, ok_bind, hof]
    rfl
  refine ⟨_, hcode, fun s => ?_⟩
  rw [runActions_counted, hcount]
  have hshift := inst.shift_eq amt s
  rw [hcount] at hshift
  by_cases h0 : maskedCount w s.cl = 0
  · rw [if_pos h0, if_pos h0]
  · have hlast := hcarry s
    rw [hcount] at hlast
    rw [if_neg h0, if_neg h0, hshift, hlast h0, ofBool_beq_one]
    by_cases h1 : maskedCount w s.cl = 1
    · have hof : of s = BitVec.ofBool (inst.overflowOut s.op0) := by
        rw [h1] at hshift hlast
        refine hover s hshift ((hlast (by decide)).trans ?_)
        rw [carryReg_of_le (by omega)]
      rw [if_pos h1, if_pos h1, hof, ofBool_beq_one]
      rfl
    · rw [if_neg h1, if_neg h1]
      rfl

/-- What the sequence for an immediate does. -/
theorem doTranslate_imm (inst : ShiftInst) (hw : 0 < w ∧ w ≤ 64) (field : BitVec 64)
    (b : BitVec 8) :
    if field = 0 then inst.doTranslate field (.imm b) = .ok ([] : List (ShiftAction w))
    else if 1 ≤ field.toNat % 2 ^ 32 ∧ field.toNat % 2 ^ 32 ≤ w then
      ∃ code, inst.doTranslate field (.imm b) = .ok code ∧ ∀ s : ShiftState w, ∃ of,
        runActions s code s = inst.after (maskedCount w b)
          (s.op0.getLsbD (inst.lastPos w (field.toNat % 2 ^ 32))) of s ∧
        (field ≠ 1 → of = s.of) ∧ (field = 1 → maskedCount w b = 1 → of = inst.overflowOut s.op0)
    else ∃ e, inst.doTranslate (w := w) field (.imm b) = .error e := by
  have hcount : ∀ s : ShiftState w,
      (maskCount (CountOperand.imm b).read s).toNat = maskedCount w b := toNat_maskCount _
  change if field = 0 then
      inst.translateImm ShiftState.op0 (maskCount (CountOperand.imm b).read) field = .ok [] else
    if 1 ≤ field.toNat % 2 ^ 32 ∧ field.toNat % 2 ^ 32 ≤ w then
      ∃ code,
        inst.translateImm ShiftState.op0 (maskCount (CountOperand.imm b).read) field = .ok code ∧
        _
    else ∃ e,
      inst.translateImm ShiftState.op0 (maskCount (CountOperand.imm b).read) field = .error e
  generalize maskCount (CountOperand.imm b).read = amt at hcount ⊢
  have hlast := inst.lastShiftBitImm_eq hw ShiftState.op0 field
  rw [translateImm]
  by_cases hfield : field = 0
  · rw [if_pos hfield, if_pos hfield]
    rfl
  rw [if_neg hfield, if_neg hfield]
  by_cases hlow : 1 ≤ field.toNat % 2 ^ 32 ∧ field.toNat % 2 ^ 32 ≤ w
  · rw [if_pos hlow] at hlast ⊢
    rw [hlast, ok_bind, overflowImm]
    have hshift := inst.shift_eq amt
    by_cases hone : field = 1
    · rw [if_pos hone]
      obtain ⟨of, hof, hover⟩ := inst.overflow_eq hw ShiftState.op0
        (inst.shift ShiftState.op0 amt) _
      rw [hof]
      refine ⟨_, rfl, fun s => ⟨of s == 1#1, ?_, fun h => absurd hone h, fun _ hcount1 => ?_⟩⟩
      · simp [runActions, writeFlags, ShiftState.setFlag, zeroPort, negativePort, ofBool_beq_one,
          hshift, hcount, after]
      · rw [hover s, ofBool_beq_one]
        · rw [hshift, hcount, hcount1]
        · rw [lastOut_of_le (by omega), hone]
          rfl
    · rw [if_neg hone]
      refine ⟨_, rfl, fun s => ⟨s.of, ?_, fun _ => rfl, fun h => absurd h hone⟩⟩
      simp [runActions, writeFlags, ShiftState.setFlag, zeroPort, negativePort, ofBool_beq_one,
        hshift, hcount, after]
  · rw [if_neg hlow] at hlast ⊢
    rw [hlast]
    exact ⟨_, rfl⟩

/-! ## When the shifts are right -/

/-- The instruction with its count in `CL` does what it should in `s`. -/
def RegRight (inst : ShiftInst) (field : BitVec 64) (s : ShiftState w) : Prop :=
  ∃ code, inst.doTranslate field .cl = .ok code ∧
    inst.Executes (maskedCount w s.cl) s (runActions s code s)

/-- The instruction with an immediate does what it should in every state. -/
def ImmRight (inst : ShiftInst) (field : BitVec 64) (w : ℕ) (b : BitVec 8) : Prop :=
  ∃ code, inst.doTranslate field (.imm b) = .ok code ∧
    ∀ s : ShiftState w, inst.Executes (maskedCount w b) s (runActions s code s)

/-- The two forms do the same in every state, for an immediate that is the content of `CL`. -/
def FormsAgree (inst : ShiftInst) (field : BitVec 64) (w : ℕ) (b : BitVec 8) : Prop :=
  ∃ code code',
    inst.doTranslate field (.imm b) = .ok code ∧ inst.doTranslate field .cl = .ok code' ∧
    ∀ s : ShiftState w, s.cl = b → runActions s code s = runActions s code' s

/-- What is taken for the count of an immediate does not give another result. -/
def immFits (inst : ShiftInst) (field : BitVec 64) (w count : ℕ) : Prop :=
  if field = 0 then count = 0
  else count ≠ 0 ∧ (1 ≤ field.toNat % 2 ^ 32 ∧ field.toNat % 2 ^ 32 ≤ w) ∧
    (inst = SAR ∨ count < w → field.toNat % 2 ^ 32 = min count w) ∧ (count = 1 → field = 1)

/-- What is taken for the count of an immediate is the count. -/
def agreeFits (field : BitVec 64) (w count : ℕ) : Prop :=
  if field = 0 then count = 0
  else field.toNat % 2 ^ 32 = count ∧ 1 ≤ count ∧ count ≤ w ∧ (count = 1 → field = 1)

theorem regRight_iff (inst : ShiftInst) (hw : 0 < w ∧ w ≤ 64) (field : BitVec 64)
    (s : ShiftState w) :
    inst.RegRight field s ↔ ¬(inst = SAR ∧ w < maskedCount w s.cl ∧ s.op0.msb = true) := by
  obtain ⟨code, hcode, hrun⟩ := inst.doTranslate_cl hw field
  have hright : inst.RegRight field s ↔
      inst.Executes (maskedCount w s.cl) s (runActions s code s) := by
    simp [RegRight, hcode]
  rw [hright, hrun, Executes]
  generalize maskedCount w s.cl = count
  by_cases h0 : count = 0
  · simp [h0]
  rw [if_neg h0, if_neg h0, shifted_after_iff]
  rcases le_or_gt count w with hle | hgt
  · refine iff_of_true ⟨fun _ => carryReg_of_le hle, fun h1 => if_pos h1⟩ (by omega)
  · have hcarry : inst.carryReg s.op0 count = false := by simp [carryReg, hgt]
    have h1 : count ≠ 1 := by omega
    simp only [hcarry, h1, false_implies, and_true, show ¬count < w by omega, or_false, hgt,
      true_and, not_and, Bool.not_eq_true]
    refine forall_congr' fun hsar => ?_
    subst hsar
    rw [lastOut, if_neg (by omega), eq_comm]

/-- Any bit of the operand can be the only one set. -/
theorem eq_of_getLsbD {i j : ℕ} (hi : i < w) (h : ∀ v : BitVec w, v.getLsbD i = v.getLsbD j) :
    i = j := by
  have hbit := h (BitVec.twoPow w i)
  simpa [BitVec.getLsbD_twoPow, hi, eq_comm] using hbit

theorem lastPos_inj (inst : ShiftInst) {i j : ℕ} (hi : 1 ≤ i ∧ i ≤ w) (hj : 1 ≤ j ∧ j ≤ w)
    (h : inst.lastPos w i = inst.lastPos w j) : i = j := by
  cases inst <;> simp only [lastPos] at h <;> omega

theorem lastPos_lt (inst : ShiftInst) {i : ℕ} (hi : 1 ≤ i ∧ i ≤ w) : inst.lastPos w i < w := by
  cases inst <;> simp only [lastPos] <;> omega

/-- A state in which a shift changes `ZF`, and clears `OF` if it writes it. -/
def zeroState (w : ℕ) (b : BitVec 8) : ShiftState w :=
  ⟨0, 0, b, false, false, false, true⟩

theorem after_zeroState_zf (inst : ShiftInst) (b : BitVec 8) (count : ℕ) (cf of : Bool) :
    (inst.after count cf of (zeroState w b)).zf = true := by
  cases inst <;> simp [after, zeroState, result]

theorem overflowOut_zero (inst : ShiftInst) : inst.overflowOut (0#w) = false := by
  cases inst <;> simp [overflowOut]

theorem after_zeroState_ne (inst : ShiftInst) (b : BitVec 8) (count : ℕ) (cf of : Bool) :
    inst.after count cf of (zeroState w b) ≠ zeroState w b := by
  intro h
  have hzf := inst.after_zeroState_zf b count cf of (w := w)
  rw [h] at hzf
  cases hzf

theorem immRight_iff (inst : ShiftInst) (hw : 0 < w ∧ w ≤ 64) (field : BitVec 64) (b : BitVec 8) :
    inst.ImmRight field w b ↔ inst.immFits field w (maskedCount w b) := by
  have hcode := inst.doTranslate_imm hw field b
  rw [ImmRight, immFits]
  generalize maskedCount w b = count at hcode ⊢
  by_cases hfield : field = 0
  · rw [if_pos hfield] at hcode ⊢
    simp only [hcode, Except.ok.injEq, exists_eq_left', runActions, Executes]
    constructor
    · intro hright
      by_contra h0
      have hzf := (if_neg h0 ▸ hright (zeroState w b) : inst.Shifted _ _ _).zf
      cases inst <;> simp [zeroState, result] at hzf
    · rintro rfl s
      simp
  rw [if_neg hfield] at hcode ⊢
  by_cases hlow : 1 ≤ field.toNat % 2 ^ 32 ∧ field.toNat % 2 ^ 32 ≤ w
  · rw [if_pos hlow] at hcode
    obtain ⟨code, hcode, hrun⟩ := hcode
    simp only [hcode, Except.ok.injEq, exists_eq_left', Executes]
    constructor
    · intro hright
      have h0 : count ≠ 0 := by
        rintro rfl
        obtain ⟨of, hof, -⟩ := hrun (zeroState w b)
        exact inst.after_zeroState_ne b _ _ _ (hof.symm.trans (hright (zeroState w b)))
      have hshifted : ∀ s : ShiftState w, ∃ of, inst.Shifted count s (inst.after count
          (s.op0.getLsbD (inst.lastPos w (field.toNat % 2 ^ 32))) of s) ∧
          (field ≠ 1 → of = s.of) := by
        intro s
        obtain ⟨of, hof, hkeep, -⟩ := hrun s
        refine ⟨of, ?_, hkeep⟩
        rw [← hof]
        simpa only [if_neg h0] using hright s
      refine ⟨h0, hlow, fun hdef => ?_, fun h1 => ?_⟩
      · refine inst.lastPos_inj hlow ⟨by omega, by omega⟩
          (eq_of_getLsbD (inst.lastPos_lt hlow) fun v => ?_)
        obtain ⟨of, hs, -⟩ := hshifted ⟨v, v, b, false, false, false, false⟩
        rw [← lastOut_eq hdef]
        exact ((shifted_after_iff ..).1 hs).1 hdef
      · by_contra hne
        obtain ⟨of, hs, hkeep⟩ := hshifted (zeroState w b)
        have hof := ((shifted_after_iff ..).1 hs).2 h1
        rw [hkeep hne] at hof
        exact absurd (hof.trans inst.overflowOut_zero) (by simp [zeroState])
    · rintro ⟨h0, -, hcf, hone⟩ s
      obtain ⟨of, hof, -, hover⟩ := hrun s
      rw [if_neg h0, hof, shifted_after_iff]
      exact ⟨fun hdef => by rw [lastOut_eq hdef, hcf hdef], fun h1 => hover (hone h1) h1⟩
  · rw [if_neg hlow] at hcode
    obtain ⟨e, hcode⟩ := hcode
    refine iff_of_false ?_ fun h => hlow h.2.1
    rintro ⟨code, hok, -⟩
    rw [hcode] at hok
    cases hok

theorem formsAgree_iff (inst : ShiftInst) (hw : 0 < w ∧ w ≤ 64) (field : BitVec 64)
    (b : BitVec 8) :
    inst.FormsAgree field w b ↔ agreeFits field w (maskedCount w b) := by
  have hcode := inst.doTranslate_imm hw field b
  obtain ⟨code', hcode', hreg⟩ := inst.doTranslate_cl hw field
  have hrun' : ∀ s : ShiftState w, s.cl = b → runActions s code' s =
      if maskedCount w b = 0 then s else
        inst.after (maskedCount w b) (inst.carryReg s.op0 (maskedCount w b))
          (if maskedCount w b = 1 then inst.overflowOut s.op0 else s.of) s := by
    rintro s rfl
    exact hreg s
  rw [FormsAgree, agreeFits]
  generalize maskedCount w b = count at hcode hrun' ⊢
  have hzero : (zeroState w b).cl = b := rfl
  by_cases hfield : field = 0
  · rw [if_pos hfield] at hcode ⊢
    simp only [hcode, hcode', Except.ok.injEq, exists_and_left, exists_eq_left', runActions]
    constructor
    · intro hsame
      by_contra h0
      have h := (hsame (zeroState w b) hzero).trans (hrun' _ hzero)
      rw [if_neg h0] at h
      exact inst.after_zeroState_ne b _ _ _ h.symm
    · rintro rfl s hs
      exact (hrun' s hs).symm
  rw [if_neg hfield] at hcode ⊢
  by_cases hlow : 1 ≤ field.toNat % 2 ^ 32 ∧ field.toNat % 2 ^ 32 ≤ w
  · rw [if_pos hlow] at hcode
    obtain ⟨code, hcode, hrun⟩ := hcode
    simp only [hcode, hcode', Except.ok.injEq, exists_and_left, exists_eq_left']
    constructor
    · intro hsame
      have h0 : count ≠ 0 := by
        rintro rfl
        obtain ⟨of, hof, -⟩ := hrun (zeroState w b)
        exact inst.after_zeroState_ne b _ _ _
          (hof.symm.trans ((hsame _ hzero).trans (hrun' _ hzero)))
      have hafter : ∀ s : ShiftState w, s.cl = b → ∃ of, (field ≠ 1 → of = s.of) ∧
          s.op0.getLsbD (inst.lastPos w (field.toNat % 2 ^ 32)) = inst.carryReg s.op0 count ∧
          of = if count = 1 then inst.overflowOut s.op0 else s.of := by
        intro s hs
        obtain ⟨of, hof, hkeep, -⟩ := hrun s
        have h := hof.symm.trans ((hsame s hs).trans (hrun' s hs))
        rw [if_neg h0] at h
        exact ⟨of, hkeep, congrArg ShiftState.cf h, congrArg ShiftState.of h⟩
      have hbit : ∀ v : BitVec w, v.getLsbD (inst.lastPos w (field.toNat % 2 ^ 32)) =
          inst.carryReg v count := by
        intro v
        obtain ⟨of, -, hbit, -⟩ := hafter ⟨v, v, b, false, false, false, false⟩ rfl
        exact hbit
      have hle : count ≤ w := by
        by_contra hgt
        have hones := hbit (BitVec.allOnes w)
        rw [carryReg, decide_eq_false hgt, Bool.false_and, BitVec.getLsbD_allOnes] at hones
        exact absurd (inst.lastPos_lt hlow) (of_decide_eq_false hones)
      have hcount : field.toNat % 2 ^ 32 = count := by
        refine inst.lastPos_inj hlow ⟨by omega, hle⟩
          (eq_of_getLsbD (inst.lastPos_lt hlow) fun v => ?_)
        rw [hbit v, carryReg_of_le hle, lastOut_of_le hle]
      refine ⟨hcount, by omega, by omega, fun h1 => ?_⟩
      by_contra hne
      obtain ⟨of, hkeep, -, hof⟩ := hafter (zeroState w b) hzero
      rw [hkeep hne, if_pos h1] at hof
      exact absurd (hof.trans inst.overflowOut_zero) (by simp [zeroState])
    · rintro ⟨hcount, h0, hle, hone⟩ s hs
      obtain ⟨of, hof, hkeep, hover⟩ := hrun s
      rw [hof, hrun' s hs, if_neg (by omega), hcount, carryReg_of_le hle, lastOut_of_le hle]
      congr 1
      by_cases h1 : count = 1
      · rw [if_pos h1, hover (hone h1) h1]
      · refine (hkeep ?_).trans (if_neg h1).symm
        rintro rfl
        exact h1 hcount.symm
  · rw [if_neg hlow] at hcode
    obtain ⟨e, hcode⟩ := hcode
    refine iff_of_false ?_ fun h => hlow (by omega)
    rintro ⟨code, code', hok, -⟩
    rw [hcode] at hok
    cases hok

/-- A shift by a count in `CL` is right, but for a `SAR` of a negative operand by more than its
width. One by an immediate is right, and does what the count in `CL` does, if what is taken for the
count does not give another result. -/
theorem shifts_right_iff (inst : ShiftInst) (hw : w ∈ gprWidths) (field : BitVec 64) :
    (∀ s : ShiftState w, inst.RegRight field s ↔
      ¬(inst = SAR ∧ w < maskedCount w s.cl ∧ s.op0.msb = true)) ∧
    (∀ b, inst.ImmRight field w b ↔ inst.immFits field w (maskedCount w b)) ∧
    (∀ b, inst.FormsAgree field w b ↔ agreeFits field w (maskedCount w b)) := by
  obtain ⟨hlow, hhigh⟩ := le_of_mem_gprWidths hw
  have hwidth : 0 < w ∧ w ≤ 64 := ⟨by omega, hhigh⟩
  exact ⟨inst.regRight_iff hwidth field, inst.immRight_iff hwidth field,
    inst.formsAgree_iff hwidth field⟩

/-- The masked node has the kind of its first port, `port_kinds::zero`, in the low half of what is
taken for the count. Then only immediates of two are right, and those from the width on after which
`CF` is not defined. -/
theorem immFits_of_port {inst : ShiftInst} {field : BitVec 64} {count : ℕ} (hw : 2 < w)
    (hfield : field.toNat % 2 ^ 32 = 2) :
    inst.immFits field w count ↔ count = 2 ∨ (inst ≠ SAR ∧ w ≤ count) := by
  have h0 : field ≠ 0 := by
    rintro rfl
    cases hfield
  have h1 : field ≠ 1 := by
    rintro rfl
    cases hfield
  rw [immFits, if_neg h0, hfield]
  by_cases hsar : inst = SAR
  · simp only [hsar, h1, true_or, true_implies, ne_eq, not_true_eq_false, false_and, or_false]
    omega
  · simp only [hsar, h1, false_or, ne_eq, not_false_eq_true, true_and]
    omega

/-- `shl` by two, where the number two is taken for the count. -/
theorem shifts_right_two :
    SHL.RegRight 2 (⟨0x40000001, 0, 2, false, false, false, false⟩ : ShiftState 32) ∧
      SHL.ImmRight 2 32 2 ∧ SHL.FormsAgree 2 32 2 :=
  have h := shifts_right_iff SHL (by decide : 32 ∈ gprWidths) 2
  ⟨(h.1 _).2 (by decide), (h.2.1 2).2 (by simp [immFits, maskedCount]),
    (h.2.2 2).2 (by simp [agreeFits, maskedCount])⟩

/-- `sar` of the byte `0x80` by nine shifts copies of the sign out, and `CF` is cleared. `shl` by
one with the number two taken for the count leaves `OF` as it was. -/
theorem not_shifts_right :
    ¬SAR.RegRight 2 (⟨0x80, 0, 9, false, false, false, false⟩ : ShiftState 8) ∧
      ¬SHL.ImmRight 2 32 1 := by
  constructor
  · rintro ⟨code, hcode, hexec⟩
    obtain rfl := Except.ok.inj hcode
    have hcf := (show SAR.Shifted 9 _ _ from hexec).cf (.inl rfl)
    revert hcf
    decide
  · rintro ⟨code, hcode, hexec⟩
    obtain rfl := Except.ok.inj hcode
    have hof := (show SHL.Shifted 1 _ _ from
      hexec (⟨0, 0, 1, false, false, false, true⟩ : ShiftState 32)).of rfl
    revert hof
    decide

end ShiftInst

end Nodes

/-! ## `SHLD` and `SHRD` -/

inductive DoubleShiftInst
  | SHLD
  | SHRD
  deriving DecidableEq

namespace DoubleShiftInst

variable {w : ℕ}

/-- The instruction on one operand whose last bit is taken the same way. -/
def single : DoubleShiftInst → ShiftInst
  | SHLD => .SHL
  | SHRD => .SHR

/-- `in`, with the bits that are not shifted in cleared. -/
def clear (inst : DoubleShiftInst) (op1 toClear : Val w w) : Val w w :=
  match inst with
  | SHLD => insertLsr (insertLsl op1 toClear) toClear
  | SHRD => insertLsl (insertLsr op1 toClear) toClear

/-- `of`. -/
def overflow (inst : DoubleShiftInst) (src : Val w w) (lastShiftBit msb : Val w 1) :
    Except String (Val w 1) :=
  match inst with
  | SHLD => return insertXor lastShiftBit msb
  | SHRD => do
    let oldMsb ← insertBitExtract src ((widthOf w - 1).setWidth 32) 1
    return insertXor oldMsb msb

/-- `do_translate`. The test for an immediate asks for the second operand, which is a register, so
an immediate count has the sequence for a count in a register. -/
def doTranslate (inst : DoubleShiftInst) (count : CountOperand) :
    Except String (List (ShiftAction w)) := do
  let src : Val w w := ShiftState.op0
  let amt := maskCount count.read
  let toClear := insertSub (insertConstant w w) amt
  let shift := insertOr (inst.single.shift src amt) (inst.clear ShiftState.op1 toClear)
  let amtMin1 := insertSub amt (insertConstant 8 1)
  let lastShiftBit ← inst.single.lastShiftBitReg src amtMin1
  let msb ← insertBitExtract shift ((widthOf w - 1).setWidth 32) 1
  let of ← inst.overflow src lastShiftBit msb
  return countedActions amt shift lastShiftBit of

/-- The top bits of both operands shifted left, or the bottom bits of both shifted right. -/
def result (inst : DoubleShiftInst) (op0 op1 : BitVec w) (count : ℕ) : BitVec w :=
  match inst with
  | SHLD => ((op0 ++ op1) <<< count).extractLsb' w w
  | SHRD => ((op1 ++ op0) >>> count).setWidth w

/-- The last bit that is shifted out of both operands. -/
def lastOut (inst : DoubleShiftInst) (op0 op1 : BitVec w) (count : ℕ) : Bool :=
  match inst with
  | SHLD => (op0 ++ op1).getLsbD (2 * w - count)
  | SHRD => (op1 ++ op0).getLsbD (count - 1)

/-- The instruction takes `s` to `s'`, where only the destination and `CF` are looked at unless the
count is zero. -/
def Executes (inst : DoubleShiftInst) (count : ℕ) (s s' : ShiftState w) : Prop :=
  if count = 0 then s' = s
  else s'.op0 = inst.result s.op0 s.op1 count ∧ s'.cf = inst.lastOut s.op0 s.op1 count

/-- The instruction does what it should in `s`. -/
def Right (inst : DoubleShiftInst) (count : CountOperand) (s : ShiftState w) : Prop :=
  ∃ code, inst.doTranslate count = .ok code ∧
    inst.Executes (maskedCount w (count.read s)) s (runActions s code s)

/-- The bits at the two ends of the second operand are the same, and the bits that come out of it
when the count is above the width are zero. -/
def endsAgree (inst : DoubleShiftInst) (op1 : BitVec w) (count : ℕ) : Prop :=
  if count ≤ w then ∀ i < count, op1.getLsbD i = op1.getLsbD (w - count + i)
  else match inst with
    | SHLD => ∀ i ≤ 2 * w - count, op1.getLsbD i = false
    | SHRD => ∀ i, count - w - 1 ≤ i → op1.getLsbD i = false

/-! ### When they are right -/

/-- The width less the count, and a number that is too large when the count is above the width. -/
theorem toNat_toClear (hw : w ∈ [16, 32, 64]) (amt : Val w 8) (s : ShiftState w)
    (hamt : (amt s).toNat < 64) :
    if (amt s).toNat ≤ w then
      (insertSub (insertConstant w w) amt s).toNat = w - (amt s).toNat
    else w ≤ (insertSub (insertConstant w w) amt s).toNat := by
  have hsub : (insertSub (insertConstant w w) amt s).toNat =
      (2 ^ w - (amt s).toNat % 2 ^ w + w % 2 ^ w) % 2 ^ w := by
    rw [insertSub, insertConstant, BitVec.toNat_sub, BitVec.toNat_setWidth, BitVec.toNat_ofNat]
  rw [hsub]
  simp only [List.mem_cons, List.not_mem_nil, or_false] at hw
  rcases hw with rfl | rfl | rfl
  all_goals split_ifs <;> omega

theorem getLsbD_clear (inst : DoubleShiftInst) (op1 toClear : Val w w) (s : ShiftState w) {i : ℕ}
    (hi : i < w) :
    (inst.clear op1 toClear s).getLsbD i =
      match inst with
      | SHLD => decide (i + (toClear s).toNat < w) && (op1 s).getLsbD i
      | SHRD => decide ((toClear s).toNat ≤ i) && (op1 s).getLsbD i := by
  cases inst with
  | SHLD =>
    simp only [clear, insertLsr, insertLsl, BitVec.getLsbD_ushiftRight, BitVec.getLsbD_shiftLeft,
      Nat.add_sub_cancel_left, Nat.add_comm i]
    simp
  | SHRD =>
    simp only [clear, insertLsr, insertLsl, BitVec.getLsbD_ushiftRight, BitVec.getLsbD_shiftLeft,
      hi,
      decide_true, Bool.true_and]
    by_cases hle : (toClear s).toNat ≤ i
    · simp [hle, show ¬i < (toClear s).toNat by omega]
    · simp [hle, show i < (toClear s).toNat by omega]

theorem getLsbD_result (inst : DoubleShiftInst) (op0 op1 : BitVec w) {count i : ℕ} (hi : i < w) :
    (inst.result op0 op1 count).getLsbD i =
      match inst with
      | SHLD => decide (count ≤ w + i) &&
          (op0 ++ op1).getLsbD (w + i - count)
      | SHRD => (op1 ++ op0).getLsbD (count + i) := by
  cases inst with
  | SHLD =>
    simp only [result, BitVec.getLsbD_extractLsb', BitVec.getLsbD_shiftLeft, hi, decide_true,
      Bool.true_and, show w + i < w + w by omega]
    by_cases hle : count ≤ w + i
    · simp [hle, show ¬w + i < count by omega]
    · simp [hle, show w + i < count by omega]
  | SHRD =>
    simp only [result, BitVec.getLsbD_setWidth, BitVec.getLsbD_ushiftRight, hi, decide_true,
      Bool.true_and]

/-- The bits that the shift of the first operand leaves free are put in from the wrong end of the
second. -/
theorem or_eq_result_iff (inst : DoubleShiftInst) {op0 op1 x : BitVec w} {count : ℕ}
    (hle : count ≤ w)
    (hx : ∀ i < w, x.getLsbD i = match inst with
      | SHLD => decide (i < count) && op1.getLsbD i
      | SHRD => decide (w - count ≤ i) && op1.getLsbD i) :
    inst.single.result op0 count ||| x = inst.result op0 op1 count ↔
      ∀ i < count, op1.getLsbD i = op1.getLsbD (w - count + i) := by
  have heq : inst.single.result op0 count ||| x = inst.result op0 op1 count ↔ ∀ i < w,
      ((inst.single.result op0 count).getLsbD i || x.getLsbD i) =
        (inst.result op0 op1 count).getLsbD i := by
    constructor
    · intro h i _
      rw [← h, BitVec.getLsbD_or]
    · intro h
      refine BitVec.eq_of_getLsbD_eq fun i hi => ?_
      rw [BitVec.getLsbD_or, h i hi]
  rw [heq]
  cases inst with
  | SHLD =>
    have hbit : ∀ i < w, (((op0 <<< count).getLsbD i || x.getLsbD i) =
        (SHLD.result op0 op1 count).getLsbD i ↔
          (i < count → op1.getLsbD i = op1.getLsbD (w - count + i))) := by
      intro i hi
      rw [hx i hi, getLsbD_result _ _ _ hi, BitVec.getLsbD_shiftLeft, BitVec.getLsbD_append]
      by_cases hin : i < count
      · simp [hin, hi, show count ≤ w + i by omega, show w + i - count = w - count + i by omega,
          show w - count + i < w by omega]
      · simp [hin, hi, show count ≤ w + i by omega, show ¬w + i - count < w by omega,
          show w + i - count - w = i - count by omega]
    exact ⟨fun h i hi => (hbit i (by omega)).1 (h i (by omega)) hi,
      fun h i hi => (hbit i hi).2 (h i)⟩
  | SHRD =>
    have hbit : ∀ i < w, (((op0 >>> count).getLsbD i || x.getLsbD i) =
        (SHRD.result op0 op1 count).getLsbD i ↔
          (w - count ≤ i → op1.getLsbD i = op1.getLsbD (count + i - w))) := by
      intro i hi
      rw [hx i hi, getLsbD_result _ _ _ hi, BitVec.getLsbD_ushiftRight]
      by_cases hin : w - count ≤ i
      · simp [BitVec.getLsbD_append, hin, show ¬count + i < w by omega,
          BitVec.getLsbD_of_ge op0 (count + i) (by omega)]
      · simp [BitVec.getLsbD_append, hin, show count + i < w by omega]
    constructor
    · intro h i hi
      have hi := (hbit (w - count + i) (by omega)).1 (h _ (by omega)) (by omega)
      rw [hi]
      congr 1
      omega
    · intro h i hi
      refine (hbit i hi).2 fun hge => ?_
      have hi := h (count + i - w) (by omega)
      rw [hi]
      congr 1
      omega

theorem single_result_eq_zero (inst : DoubleShiftInst) {op0 : BitVec w} {count : ℕ}
    (h : w ≤ count) : inst.single.result op0 count = 0#w := by
  cases inst with
  | SHLD => exact BitVec.shiftLeft_eq_zero h
  | SHRD => exact BitVec.ushiftRight_eq_zero h

/-- Above the width nothing is left of the operands. -/
theorem zero_eq_result_iff (inst : DoubleShiftInst) {op0 op1 : BitVec w} {count : ℕ}
    (hgt : w < count) (hle : count ≤ 2 * w) :
    0#w = inst.result op0 op1 count ∧ false = inst.lastOut op0 op1 count ↔
      match inst with
      | SHLD => ∀ i ≤ 2 * w - count, op1.getLsbD i = false
      | SHRD => ∀ i, count - w - 1 ≤ i → op1.getLsbD i = false := by
  have heq : 0#w = inst.result op0 op1 count ↔
      ∀ i < w, (inst.result op0 op1 count).getLsbD i = false := by
    constructor
    · intro h i _
      rw [← h, BitVec.getLsbD_zero]
    · intro h
      refine BitVec.eq_of_getLsbD_eq fun i hi => ?_
      rw [BitVec.getLsbD_zero, h i hi]
  rw [heq]
  cases inst with
  | SHLD =>
    have hlast : SHLD.lastOut op0 op1 count = op1.getLsbD (2 * w - count) := by
      rw [lastOut, BitVec.getLsbD_append, if_pos (by omega)]
    have hbit : ∀ i < w, (SHLD.result op0 op1 count).getLsbD i =
        (decide (count ≤ w + i) && op1.getLsbD (w + i - count)) := by
      intro i hi
      rw [getLsbD_result _ _ _ hi]
      simp only [BitVec.getLsbD_append, show w + i - count < w by omega, if_true]
    rw [hlast]
    constructor
    · rintro ⟨hbits, hout⟩ i hi
      by_cases htop : i = 2 * w - count
      · rw [htop, hout]
      · have hin : i + (count - w) < w := by omega
        have hzero := hbits _ hin
        rw [hbit _ hin, decide_eq_true (by omega), Bool.true_and] at hzero
        rw [← hzero]
        congr 1
        omega
    · intro h
      refine ⟨fun i hi => ?_, (h _ le_rfl).symm⟩
      rw [hbit i hi, h _ (by omega), Bool.and_false]
  | SHRD =>
    have hlast : SHRD.lastOut op0 op1 count = op1.getLsbD (count - w - 1) := by
      rw [lastOut, BitVec.getLsbD_append, if_neg (by omega)]
      congr 1
      omega
    have hbit : ∀ i < w, (SHRD.result op0 op1 count).getLsbD i = op1.getLsbD (count + i - w) := by
      intro i hi
      rw [getLsbD_result _ _ _ hi]
      simp only [BitVec.getLsbD_append, show ¬count + i < w by omega, if_false]
    rw [hlast]
    constructor
    · rintro ⟨hbits, hout⟩ i hi
      by_cases htop : i = count - w - 1
      · rw [htop, hout]
      · by_cases hin : i < w
        · have hlow : i - (count - w) < w := by omega
          have hzero := hbits _ hlow
          rw [hbit _ hlow] at hzero
          rw [← hzero]
          congr 1
          omega
        · exact BitVec.getLsbD_of_ge op1 i (by omega)
    · intro h
      refine ⟨fun i hi => ?_, (h _ le_rfl).symm⟩
      rw [hbit i hi, h _ (by omega)]

theorem overflow_ok (inst : DoubleShiftInst) (hw : 0 < w ∧ w ≤ 64) {src : Val w w}
    {last msb : Val w 1} : ∃ of, inst.overflow src last msb = .ok of := by
  cases inst with
  | SHLD => exact ⟨_, rfl⟩
  | SHRD =>
    rw [overflow, insertBitExtract_one hw, toNat_topPos hw, if_pos (by omega)]
    exact ⟨_, rfl⟩

/-- What the sequence does to the destination and to `CF`. -/
theorem doTranslate_eq (inst : DoubleShiftInst) (hw : w ∈ [16, 32, 64]) (count : CountOperand) :
    ∃ code, inst.doTranslate count = .ok code ∧ ∀ s : ShiftState w,
      if maskedCount w (count.read s) = 0 then runActions s code s = s
      else ∃ x : BitVec w,
        (runActions s code s).op0 =
          inst.single.result s.op0 (maskedCount w (count.read s)) ||| x ∧
        (runActions s code s).cf =
          inst.single.carryReg s.op0 (maskedCount w (count.read s)) ∧
        (maskedCount w (count.read s) ≤ w → ∀ i < w, x.getLsbD i = match inst with
          | SHLD => decide (i < maskedCount w (count.read s)) && s.op1.getLsbD i
          | SHRD => decide (w - maskedCount w (count.read s) ≤ i) && s.op1.getLsbD i) ∧
        (w < maskedCount w (count.read s) → x = 0#w) := by
  have hwidth : 0 < w ∧ w ≤ 64 := by
    simp only [List.mem_cons, List.not_mem_nil, or_false] at hw
    omega
  have hcount : ∀ s : ShiftState w,
      (maskCount count.read s).toNat = maskedCount w (count.read s) := toNat_maskCount _
  have hlt : ∀ s : ShiftState w, (maskCount count.read s).toNat < 64 := fun s =>
    (hcount s).trans_lt (maskedCount_lt w _)
  simp only [← hcount, doTranslate]
  generalize maskCount count.read = amt at hlt
  obtain ⟨last, hlast, hcarry⟩ := inst.single.lastShiftBitReg_eq hwidth ShiftState.op0 amt
  obtain ⟨of, hof⟩ : ∃ of, inst.overflow ShiftState.op0 last _ = .ok of := inst.overflow_ok hwidth
  rw [hlast, ok_bind, insertBitExtract_one hwidth, toNat_topPos hwidth, if_pos (by omega), ok_bind,
    hof]
  refine ⟨_, rfl, fun s => ?_⟩
  rw [runActions_counted]
  by_cases h0 : (amt s).toNat = 0
  · rw [if_pos h0, if_pos h0]
  rw [if_neg h0, if_neg h0]
  have hclear := toNat_toClear hw amt s (hlt s)
  refine ⟨_, congrArg (· ||| _) (inst.single.shift_eq amt s), ?_, fun hle i hi => ?_, fun hgt => ?_⟩
  · exact (congrArg (· == 1#1) (hcarry s h0)).trans (ofBool_beq_one _)
  · rw [if_pos hle] at hclear
    rw [getLsbD_clear inst _ _ s hi, hclear]
    cases inst with
    | SHLD =>
      have hbound : i + (w - (amt s).toNat) < w ↔ i < (amt s).toNat := by omega
      simp only [hbound]
    | SHRD => rfl
  · rw [if_neg (by omega)] at hclear
    refine BitVec.eq_of_getLsbD_eq fun i hi => ?_
    rw [getLsbD_clear inst _ _ s hi]
    cases inst with
    | SHLD => simp [show ¬i + (insertSub (insertConstant w w) amt s).toNat < w by omega]
    | SHRD => simp [show ¬(insertSub (insertConstant w w) amt s).toNat ≤ i by omega]

/-- The instruction is right exactly if the bits at the two ends of its second operand are the same,
as many as are shifted in. -/
theorem doubleShift_right_iff (inst : DoubleShiftInst) (hw : w ∈ [16, 32, 64])
    (count : CountOperand) (s : ShiftState w) :
    inst.Right count s ↔ inst.endsAgree s.op1 (maskedCount w (count.read s)) := by
  have hdouble : maskedCount w (count.read s) ≤ 2 * w := by
    have hlt := maskedCount_lt w (count.read s)
    simp only [List.mem_cons, List.not_mem_nil, or_false] at hw
    rcases hw with rfl | rfl | rfl
    · exact (Nat.mod_lt _ (by decide)).le
    · omega
    · omega
  obtain ⟨code, hcode, hrun⟩ := inst.doTranslate_eq hw count
  have hright : inst.Right count s ↔
      inst.Executes (maskedCount w (count.read s)) s (runActions s code s) := by
    simp [Right, hcode]
  have hrun := hrun s
  rw [hright, Executes, endsAgree.eq_def]
  generalize maskedCount w (count.read s) = n at hdouble hrun ⊢
  by_cases h0 : n = 0
  · subst h0
    rw [if_pos rfl] at hrun
    simp [hrun]
  rw [if_neg h0] at hrun ⊢
  obtain ⟨x, hop0, hcf, hin, hout⟩ := hrun
  rw [hop0, hcf]
  rcases le_or_gt n w with hle | hgt
  · have hlast : inst.single.carryReg s.op0 n = inst.lastOut s.op0 s.op1 n := by
      rw [ShiftInst.carryReg_of_le hle, ShiftInst.lastOut_of_le hle]
      cases inst with
      | SHLD =>
        rw [lastOut, BitVec.getLsbD_append, if_neg (by omega)]
        exact congrArg _ (show w - n = 2 * w - n - w by omega)
      | SHRD =>
        rw [lastOut, BitVec.getLsbD_append, if_pos (by omega)]
        rfl
    rw [if_pos hle, ← or_eq_result_iff inst hle (hin hle)]
    exact and_iff_left hlast
  · have hlast : inst.single.carryReg s.op0 n = false := by
      rw [ShiftInst.carryReg, decide_eq_false (by omega), Bool.false_and]
    rw [if_neg (by omega), hout hgt, single_result_eq_zero inst hgt.le, hlast, BitVec.or_zero]
    exact zero_eq_result_iff inst hgt hdouble

/-- `shld` by four of a second operand whose lowest and highest digits are the same. -/
theorem doubleShift_right_four :
    SHLD.Right .cl (⟨0, 0x90000009, 4, false, false, false, false⟩ : ShiftState 32) :=
  (doubleShift_right_iff SHLD (by decide : 32 ∈ [16, 32, 64]) .cl _).2 (by
    rw [endsAgree.eq_def]
    decide)

/-- `shld` by one of `1`. The bit that is shifted in is the top one, which is zero. -/
theorem not_doubleShift_right :
    ¬SHLD.Right (.imm 1) (⟨0, 1, 0, false, false, false, false⟩ : ShiftState 32) := by
  rintro ⟨code, hcode, hexec⟩
  obtain rfl := Except.ok.inj hcode
  have hop0 : BitVec.ofNat 32 1 = 0#32 := hexec.1
  revert hop0
  decide

end DoubleShiftInst

end Arancini.X86
