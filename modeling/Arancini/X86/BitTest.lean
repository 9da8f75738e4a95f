import Arancini.X86.BitScan

/-!
# The bit tests

`BT`, `BTS` and `BTR` shift a one to the place of the bit, and the bit back to the bottom. The index
is an immediate or a register of the width of the operand.

The index is extended to the width and not reduced to it. From the width on there is no bit in the
mask, so the operand stays as it is and `CF` is cleared. `bitTest_right_iff` says when that is
right.
-/

namespace Arancini.X86

/-! ## The translator -/

inductive BitTestInst
  | BT
  | BTS
  | BTR
  deriving DecidableEq

/-- Operand 1, beside an operand of `w` bits. -/
inductive BitIndex (w : ℕ)
  | reg (reg : GprReg) (h : reg.part.width = w)
  | imm (b : BitVec 8)

namespace BitIndex

variable {w : ℕ}

def width : BitIndex w → ℕ
  | reg .. => w
  | imm _ => 8

/-- `read_operand(1)`. -/
def read (s : CpuState) : (op : BitIndex w) → Except String (BitVec op.width)
  | reg r h => (RegOrMem.reg r h).read s
  | imm b => .ok b

/-- The index. -/
def index (s : CpuState) : BitIndex w → ℕ
  | reg r h => ((RegOrMem.reg r h).content s).toNat
  | imm b => b.toNat

end BitIndex

namespace BitTestInst

/-- What is written to operand 0, if anything. -/
def result {w : ℕ} (inst : BitTestInst) (src shift : BitVec w) : Option (BitVec w) :=
  match inst with
  | BT => none
  | BTS => some (src ||| shift)
  | BTR => some (src &&& ~~~shift)

/-- `do_translate`, and what the nodes do. -/
def doTranslate (inst : BitTestInst) (dst : GprReg) (op1 : BitIndex dst.part.width) (s : CpuState) :
    Except String CpuState := do
  let src ← (RegOrMem.reg dst rfl).read s
  let pos ← op1.read s
  let pos ← insertBitcast dst.part.width (pos.setWidth dst.part.width)
  let shift := insertConstantI dst.part.width 1 <<< pos.toNat
  let andNode := src &&& shift
  let rslt := (andNode >>> pos.toNat).setWidth 1
  let s ← writeReg Reg.CF.offset rslt s
  match inst.result src shift with
  | some value => writeGpr dst .unsignedInteger value s
  | none => return s

/-! ## The instructions -/

/-- `CF` is the bit at the index, taken modulo the width. The bit is left, set or cleared. -/
structure Tested (inst : BitTestInst) (dst : GprReg) (index : ℕ) (s s' : CpuState) : Prop where
  cf : s'.flag .CF = (dst.view (s.gpr dst.num)).getLsbD (index % dst.part.width)
  written : ∀ value ∈ inst.result (dst.view (s.gpr dst.num))
    (BitVec.twoPow _ (index % dst.part.width)), dst.Written value (s.gpr dst.num) (s'.gpr dst.num)
  frame : ∀ r, r ≠ .CF → (inst ≠ BT → r ≠ gprReg dst.num) → s' r = s r

/-- The code does what the instruction does. -/
def Right (inst : BitTestInst) (dst : GprReg) (op1 : BitIndex dst.part.width) (s : CpuState) :
    Prop :=
  ∃ s', inst.doTranslate dst op1 s = .ok s' ∧ inst.Tested dst (op1.index s) s s'

/-- The index is below the width, or the bit is clear and stays so. -/
def Fits {w : ℕ} (inst : BitTestInst) (src : BitVec w) (index : ℕ) : Prop :=
  index < w ∨ (inst ≠ BTS ∧ src.getLsbD (index % w) = false)

/-! ## When the tests are right -/

section Mask

variable {w : ℕ}

theorem one_shiftLeft (hw64 : w ≤ 64) (n : ℕ) :
    insertConstantI w 1 <<< n = BitVec.twoPow w n := by
  have hone : insertConstantI w 1 = BitVec.ofNat w 1 := insertConstantI_ofNat hw64 1
  rw [hone, ← BitVec.twoPow_eq]

theorem twoPow_eq_zero {n : ℕ} (h : w ≤ n) : BitVec.twoPow w n = 0#w := by
  rw [BitVec.twoPow_eq, BitVec.shiftLeft_eq_zero h]

/-- The bit is brought to the bottom. -/
theorem getLsbD_rslt (src : BitVec w) (n : ℕ) :
    (((src &&& BitVec.twoPow w n) >>> n).setWidth 1).getLsbD 0 = src.getLsbD n := by
  rw [BitVec.getLsbD_setWidth, BitVec.getLsbD_ushiftRight, BitVec.getLsbD_and,
    BitVec.getLsbD_twoPow, Nat.add_zero]
  by_cases hn : n < w
  · simp [hn]
  · simp [hn, BitVec.getLsbD_of_ge src n (Nat.le_of_not_lt hn)]

theorem getLsbD_or_twoPow {n : ℕ} (hn : n < w) (src : BitVec w) :
    (src ||| BitVec.twoPow w n).getLsbD n = true := by
  simp [hn]

theorem and_not_twoPow_eq_self {n : ℕ} {src : BitVec w} (h : src.getLsbD n = false) :
    src &&& ~~~BitVec.twoPow w n = src := by
  refine BitVec.eq_of_getLsbD_eq fun i hi => ?_
  rw [BitVec.getLsbD_and, BitVec.getLsbD_not, BitVec.getLsbD_twoPow, decide_eq_true hi,
    Bool.true_and]
  by_cases hin : n = i
  · rw [← hin, h, Bool.false_and]
  · rw [decide_eq_false hin, Bool.and_false, Bool.not_false, Bool.and_true]

end Mask

/-- The index is what is read of it, in as many bits as the operand has. -/
theorem read_index {w : ℕ} (hw : w ≠ 8) (hw8 : 8 ≤ w) (op1 : BitIndex w) (s : CpuState) :
    ∃ pos, op1.read s = .ok pos ∧ (pos.setWidth w).toNat = op1.index s := by
  cases op1 with
  | reg r h =>
    have hread : (BitIndex.reg r h : BitIndex w).read s = .ok ((RegOrMem.reg r h).content s) :=
      RegOrMem.read_eq (RegOrMem.not_isHigh hw (.reg r h)) s
    exact ⟨_, hread, congrArg BitVec.toNat (BitVec.setWidth_eq _)⟩
  | imm b => exact ⟨b, rfl, toNat_setWidth_of_le hw8 b⟩

/-- What the code leaves. -/
theorem doTranslate_spec {dst : GprReg} (hdst : dst.part.width ≠ 8) (inst : BitTestInst)
    (op1 : BitIndex dst.part.width) (s : CpuState) :
    ∃ s', inst.doTranslate dst op1 s = .ok s' ∧
      s'.flag .CF = (dst.view (s.gpr dst.num)).getLsbD (op1.index s) ∧
      (∀ value ∈ inst.result (dst.view (s.gpr dst.num)) (BitVec.twoPow _ (op1.index s)),
        dst.Written value (s.gpr dst.num) (s'.gpr dst.num)) ∧
      ∀ r, r ≠ .CF → (inst ≠ BT → r ≠ gprReg dst.num) → s' r = s r := by
  have hwidth : 8 ≤ dst.part.width ∧ dst.part.width ≤ 64 := by cases dst.part <;> decide
  have hcf := @gprReg_ne .CF (by decide) dst.num
  have hread : (RegOrMem.reg dst rfl).read s = .ok (dst.view (s.gpr dst.num)) :=
    RegOrMem.read_eq (RegOrMem.not_isHigh hdst _) s
  obtain ⟨pos, hpos, hindex⟩ := read_index hdst hwidth.1 op1 s
  simp only [doTranslate, hread, hpos, ok_bind, insertBitcast_self, hindex,
    one_shiftLeft hwidth.2]
  generalize dst.view (s.gpr dst.num) = src
  have hbit := getLsbD_rslt src (op1.index s)
  cases hresult : inst.result src (BitVec.twoPow _ (op1.index s)) with
  | none =>
    rw [writeReg_offset, ok_bind]
    refine ⟨_, rfl, ?_, by simp, fun r hr _ => Function.update_of_ne hr _ _⟩
    rw [CpuState.flag, Function.update_self, getLsbD_insertField (by decide), if_pos (by omega)]
    exact hbit
  | some value =>
    obtain ⟨s', hs', hflag, hwritten, hframe⟩ :=
      dst.writeReg_writeGpr_spec Nat.one_pos .unsignedInteger value hcf
        (((src &&& BitVec.twoPow _ (op1.index s)) >>> op1.index s).setWidth 1) s
    refine ⟨s', hs', hflag.trans hbit, fun value' hvalue => ?_, fun r hr hdst => ?_⟩
    · obtain rfl := Option.some.inj hvalue
      exact hwritten
    · refine hframe r hr (hdst ?_)
      rintro rfl
      cases hresult

/-- A test is right exactly if its index is below the width, or if it does not set the bit and that
is clear. -/
theorem bitTest_right_iff {dst : GprReg} (hdst : dst.part.width ≠ 8) (inst : BitTestInst)
    (op1 : BitIndex dst.part.width) (s : CpuState) :
    inst.Right dst op1 s ↔ inst.Fits (dst.view (s.gpr dst.num)) (op1.index s) := by
  have hhigh : dst.part ≠ .high := fun h => hdst (congrArg GprPart.width h)
  have hpos : 0 < dst.part.width := by cases dst.part <;> decide
  obtain ⟨s', hs', hcf, hwritten, hframe⟩ := doTranslate_spec hdst inst op1 s
  rw [Right, Fits]
  generalize hindex : op1.index s = n at *
  by_cases hn : n < dst.part.width
  · rw [← Nat.mod_eq_of_lt hn] at hcf hwritten
    exact iff_of_true ⟨s', hs', hcf, hwritten, hframe⟩ (.inl hn)
  have hmod : n % dst.part.width < dst.part.width := Nat.mod_lt _ hpos
  have hout : (dst.view (s.gpr dst.num)).getLsbD n = false :=
    BitVec.getLsbD_of_ge _ _ (Nat.le_of_not_lt hn)
  rw [hout] at hcf
  rw [twoPow_eq_zero (Nat.le_of_not_lt hn)] at hwritten
  constructor
  · rintro ⟨t, ht, hbit, hset, -⟩
    obtain rfl := Except.ok.inj (hs'.symm.trans ht)
    have hclear := hbit.symm.trans hcf
    refine .inr ⟨?_, hclear⟩
    rintro rfl
    have hcode := GprReg.setWidth_of_written (hwritten _ rfl)
    have hintel := GprReg.setWidth_of_written (hset _ rfl)
    rw [if_neg hhigh, BitVec.or_zero] at hcode
    rw [if_neg hhigh, hcode] at hintel
    have hone := getLsbD_or_twoPow hmod (dst.view (s.gpr dst.num))
    rw [← hintel, hclear] at hone
    exact absurd hone (by decide)
  · rintro (h | ⟨hbts, hclear⟩)
    · exact absurd h hn
    · refine ⟨s', hs', hcf.trans hclear.symm, fun value hvalue => ?_, hframe⟩
      cases inst with
      | BT => exact nomatch hvalue
      | BTS => exact absurd rfl hbts
      | BTR =>
        obtain rfl := Option.some.inj hvalue
        rw [and_not_twoPow_eq_self hclear]
        have hcode := hwritten _ rfl
        rwa [BitVec.not_zero, BitVec.and_allOnes] at hcode

/-- `BTS EAX, 5`. -/
theorem bitTest_right_bts :
    BTS.Right ⟨0, .dword, nofun⟩ (.imm 5) fun _ => 0 :=
  (@bitTest_right_iff ⟨0, .dword, nofun⟩ (by decide) BTS (.imm 5) fun _ => 0).2 (.inl (by decide))

/-- `BT EAX, 32` where `EAX` is 1. -/
theorem not_bitTest_right : ¬BT.Right ⟨0, .dword, nofun⟩ (.imm 32) fun _ => 1 := by
  rintro ⟨s', hs', hbit, -⟩
  obtain ⟨t, ht, hcf, -⟩ :=
    @doTranslate_spec ⟨0, .dword, nofun⟩ (by decide) BT (.imm 32) fun _ => 1
  obtain rfl := Except.ok.inj (hs'.symm.trans ht)
  exact absurd (hbit.symm.trans hcf) (by decide +kernel)

end BitTestInst

end Arancini.X86
