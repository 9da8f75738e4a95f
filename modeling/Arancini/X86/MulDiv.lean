import Arancini.Llvm.Division
import Arancini.X86.Operand
import Arancini.X86.WriteFlags

/-!
# Multiplication and division

`muldiv_translator` extends the operands to twice their width, multiplies or divides there, and
writes the halves of the product or the quotient and the remainder to the registers of the width.
The operands are read before a register is written.

A high byte is read at the place of the low one. A division of bytes has the dividend in `AX`, and
no third operand, so the code that takes its high half from there throws. `mulDiv_right_iff` says
that everything else is right.
-/

namespace Arancini.X86

open Ir (TypeClass)
open Llvm (FlagNode quotient remainder)

/-! ## Registers and nodes -/

/-- `RAX` in the order of the encoding. -/
def rax : Fin 16 := 0

def rdx : Fin 16 := 2

section Nodes

variable {n m : ℕ}

/-- `insert_bit_extract`. -/
def bitExtract (value : BitVec n) (start length : ℕ) : Except String (BitVec length) :=
  if start + length - 1 > n - 1 then .error "bit extract range is out of bound"
  else .ok (value.extractLsb' start length)

/-- `insert_bit_insert`. -/
def bitInsert (value : BitVec n) (bits : BitVec m) (start length : ℕ) : Except String (BitVec n) :=
  if m > n then .error "width of type of incoming bits cannot be greater than type of value"
  else if length > n then
    .error "width of type of incoming bits cannot be smaller than requested length"
  else if start + length - 1 > n - 1 then
    .error "bit insert range is out of bounds in target value"
  else .ok (insertField value start length bits)

/-- `insert_zx` of an unsigned number and `insert_sx` of a signed one. -/
def extend (cls : Riscv.Class) (k : ℕ) (value : BitVec n) : BitVec k :=
  match cls with
  | .unsigned => value.setWidth k
  | .signed => value.signExtend k

end Nodes

/-- The register of a flag. -/
def Flag.reg : Flag → Option Reg
  | .ZF => some .ZF
  | .CF => some .CF
  | .OF => some .OF
  | .SF => some .SF
  | .PF => some .PF
  | .AF => none

/-- The writes of `write_flags`, of the ports of a node that was computed before. -/
def runFlagWrites {n : ℕ} (op : OpNode n) :
    List (Flag × OpNode.FlagSource) → CpuState → Except String CpuState
  | [], s => .ok s
  | (flag, value) :: l, s =>
    match flag.reg with
    | some r => do
      let s ← writeReg r.offset (BitVec.ofBool (value.eval op)) s
      runFlagWrites op l s
    | none => .error "out_of_range"

/-- `write_flags`, and what its actions do. -/
def OpNode.applyFlags {n : ℕ} (op : OpNode n) (acts : Flag → FlagOp) (s : CpuState) :
    Except String CpuState := do
  let writes ← op.writeFlags acts
  runFlagWrites op writes s

/-- The arguments after a multiplication. -/
def mulActs : Flag → FlagOp
  | .CF | .OF => .update
  | _ => .ignore

/-! ## The translator -/

/-- The instructions with their operands. `MUL` is the one of unsigned numbers. -/
inductive MulDivInst
  | mul (cls : Riscv.Class) (ow : OpWidth) (src : RegOrMem ow.bits)
  | imul2 (ow : OpWidth) (h : ow ≠ .byte) (dst : Fin 16) (src : RegOrMem ow.bits)
  | imul3 (ow : OpWidth) (h : ow ≠ .byte) (dst : Fin 16) (src : RegOrMem ow.bits) {n : ℕ}
    (hn : n ≤ ow.bits) (imm : BitVec n)
  | div (cls : Riscv.Class) (ow : OpWidth) (src : RegOrMem ow.bits)

namespace MulDivInst

section Translate

variable {ow : OpWidth}

/-- The writes of a product. The one of bytes is written to `AX`. -/
def writeProduct (rslt : BitVec (ow.bits + ow.bits)) (s : CpuState) : Except String CpuState :=
  if ow.bits = 8 then writeReg (xedregToOffset (.gpr rax)) rslt s
  else do
    let low ← bitExtract rslt 0 ow.bits
    let high ← bitExtract rslt ow.bits ow.bits
    let s ← writeGpr (ow.reg rax) .unsignedInteger low s
    writeGpr (ow.reg rdx) .unsignedInteger high s

/-- The case of `MUL`, and that of `IMUL` with one operand. -/
def translateMul (cls : Riscv.Class) (src : RegOrMem ow.bits) (s : CpuState) :
    Except String CpuState := do
  let op0 ← src.read s
  let op1 ← readGpr (ow.reg rax) s
  let ax : BitVec (ow.bits + ow.bits) := extend cls _ op1
  let castop : BitVec (ow.bits + ow.bits) := extend cls _ op0
  let s ← writeProduct (ax * castop) s
  OpNode.applyFlags (.arith (.mul cls ax castop)) mulActs s

/-- The cases of `IMUL` with two and with three operands. -/
def translateImul {n : ℕ} (dst : Fin 16) (op1 : BitVec ow.bits) (op2 : BitVec n) (s : CpuState) :
    Except String CpuState := do
  let op1Ext : BitVec (ow.bits + ow.bits) := extend .signed _ op1
  let op2Ext : BitVec (ow.bits + ow.bits) := extend .signed _ op2
  let rslt := op1Ext * op2Ext
  let truncRslt := rslt.setWidth ow.bits
  let s ← writeGpr (ow.reg dst) .unsignedInteger truncRslt s
  OpNode.applyFlags (.arith (.mul .signed op1Ext op2Ext)) mulActs s

/-- The cases of `DIV` and `IDIV`. With a byte operand 2 is the register of the flags. -/
def translateDiv (cls : Riscv.Class) (src : RegOrMem ow.bits) (s : CpuState) :
    Except String CpuState := do
  let op0 ← src.read s
  let op1 ← readGpr (ow.reg rax) s
  if ow = .byte then .error "unsupported register class"
  else do
    let op2 ← readGpr (ow.reg rdx) s
    let dividend : BitVec (ow.bits + ow.bits) := extend .unsigned _ op1
    let dividend ← bitInsert dividend op2 ow.bits ow.bits
    let divisor : BitVec (ow.bits + ow.bits) := extend cls _ op0
    let quo := (quotient cls dividend divisor).setWidth ow.bits
    let rem := (remainder cls dividend divisor).setWidth ow.bits
    let s ← writeGpr (ow.reg rax) .unsignedInteger quo s
    writeGpr (ow.reg rdx) .unsignedInteger rem s

end Translate

/-- `do_translate`, and what the nodes do. -/
def doTranslate (s : CpuState) : MulDivInst → Except String CpuState
  | mul cls _ src => translateMul cls src s
  | imul2 ow _ dst src => do
    let op0 ← readGpr (ow.reg dst) s
    let op1 ← src.read s
    translateImul dst op0 op1 s
  | imul3 _ _ dst src _ imm => do
    let op1 ← src.read s
    translateImul dst op1 imm s
  | div cls _ src => translateDiv cls src s

/-! ## The instructions -/

/-- The product `p` overflows the width. -/
structure Flagged (cls : Riscv.Class) (ow : OpWidth) (p : ℤ) (s' : CpuState) : Prop where
  cf : s'.flag .CF = !decide (cls.Fits ow.bits p)
  of : s'.flag .OF = !decide (cls.Fits ow.bits p)

/-- The product `p` is in the register pair, or in `AX`. -/
def ProductWritten (ow : OpWidth) (p : ℤ) (s s' : CpuState) : Prop :=
  match ow with
  | .byte => (OpWidth.word.reg rax).Written (BitVec.ofInt 16 p) (s.gpr rax) (s'.gpr rax) ∧
      s'.gpr rdx = s.gpr rdx
  | ow =>
    let rslt := BitVec.ofInt (ow.bits + ow.bits) p
    (ow.reg rax).Written (rslt.extractLsb' 0 ow.bits) (s.gpr rax) (s'.gpr rax) ∧
      (ow.reg rdx).Written (rslt.extractLsb' ow.bits ow.bits) (s.gpr rdx) (s'.gpr rdx)

/-- `MUL`, and `IMUL` with one operand. -/
structure Multiplied (cls : Riscv.Class) (ow : OpWidth) (p : ℤ) (s s' : CpuState) : Prop where
  product : ProductWritten ow p s s'
  flags : Flagged cls ow p s'
  frame : ∀ r ∉ [.RAX, .RDX, .CF, .OF], s' r = s r

/-- `IMUL` with two or three operands. -/
structure Truncated (ow : OpWidth) (dst : Fin 16) (p : ℤ) (s s' : CpuState) : Prop where
  product : (ow.reg dst).Written (BitVec.ofInt _ p) (s.gpr dst) (s'.gpr dst)
  flags : Flagged .signed ow p s'
  frame : ∀ r ∉ [gprReg dst, .CF, .OF], s' r = s r

/-- The divisor is not zero and the quotient, rounded towards zero, has the width. -/
def Divisible (cls : Riscv.Class) {w : ℕ} (dividend : BitVec (w + w)) (divisor : BitVec w) :
    Prop :=
  cls.toInt divisor ≠ 0 ∧ cls.Fits w ((cls.toInt dividend).tdiv (cls.toInt divisor))

/-- The quotient and the remainder give the dividend. The remainder is smaller than the divisor and
has the sign of the dividend. -/
structure Quotients (cls : Riscv.Class) {w : ℕ} (dividend : BitVec (w + w))
    (divisor quo rem : BitVec w) : Prop where
  exact : cls.toInt quo * cls.toInt divisor + cls.toInt rem = cls.toInt dividend
  small : |cls.toInt rem| < |cls.toInt divisor|
  sign : cls.toInt rem ≠ 0 → (cls.toInt rem < 0 ↔ cls.toInt dividend < 0)

/-- `DIV` and `IDIV`. -/
def Divided (cls : Riscv.Class) (ow : OpWidth) (divisor : BitVec ow.bits) (s s' : CpuState) :
    Prop :=
  ∃ quo rem : BitVec ow.bits,
    Quotients cls ((ow.reg rdx).view (s.gpr rdx) ++ (ow.reg rax).view (s.gpr rax)) divisor quo rem ∧
    (ow.reg rax).Written quo (s.gpr rax) (s'.gpr rax) ∧
    (ow.reg rdx).Written rem (s.gpr rdx) (s'.gpr rdx) ∧
    ∀ r ∉ [.RAX, .RDX], s' r = s r

/-- The instruction takes `s` to `s'`. A division that faults takes it nowhere. -/
def Executes (s s' : CpuState) : MulDivInst → Prop
  | mul cls ow src => Multiplied cls ow
      (cls.toInt ((ow.reg rax).view (s.gpr rax)) * cls.toInt (src.content s)) s s'
  | imul2 ow _ dst src => Truncated ow dst
      (((ow.reg dst).view (s.gpr dst)).toInt * (src.content s).toInt) s s'
  | imul3 ow _ dst src _ imm => Truncated ow dst ((src.content s).toInt * imm.toInt) s s'
  | div cls ow src =>
    Divisible cls ((ow.reg rdx).view (s.gpr rdx) ++ (ow.reg rax).view (s.gpr rax))
      (src.content s) → Divided cls ow (src.content s) s s'

/-- The code does what the instruction does. -/
def Right (inst : MulDivInst) (s : CpuState) : Prop :=
  ∃ s', inst.doTranslate s = .ok s' ∧ inst.Executes s s'

/-- A high byte that is multiplied is the low one as well, or `AL` is zero. A division is not one of
bytes. -/
def Fits (s : CpuState) : MulDivInst → Prop
  | mul _ ow src => src.IsHigh →
      (ow.reg rax).view (s.gpr rax) = 0 ∨ src.value s = src.content s
  | imul2 .. | imul3 .. => True
  | div _ ow _ => ow ≠ .byte

/-! ## Products -/

section Extend

variable {n m k : ℕ} (cls : Riscv.Class)

theorem extend_eq (k : ℕ) (x : BitVec n) : extend cls k x = BitVec.ofInt k (cls.toInt x) := by
  cases cls with
  | signed => rfl
  | unsigned =>
    rw [Riscv.Class.toInt, BitVec.ofInt_natCast, BitVec.ofNat_toNat]
    rfl

theorem toInt_extend (h : n ≤ k) (x : BitVec n) : cls.toInt (extend cls k x) = cls.toInt x := by
  cases cls with
  | signed => exact toInt_signExtend h x
  | unsigned => exact congrArg Nat.cast (toNat_setWidth_of_le h x)

/-- The product of extended numbers is the one of the numbers. -/
theorem extend_mul_extend (k : ℕ) (x : BitVec n) (y : BitVec m) :
    extend cls k x * extend cls k y = BitVec.ofInt k (cls.toInt x * cls.toInt y) := by
  rw [extend_eq, extend_eq, BitVec.ofInt_mul]

theorem wide_extend {b : ℕ} (hn : n ≤ b) (hm : m ≤ b) (x : BitVec n) (y : BitVec m) :
    FlagNode.wide cls (extend cls (b + b) x) (extend cls (b + b) y) =
      !decide (cls.Fits b (cls.toInt x * cls.toInt y)) := by
  rw [FlagNode.wide, toInt_extend cls (by omega), toInt_extend cls (by omega),
    show (b + b) / 2 = b by omega]
  exact decide_not

end Extend

/-- The flags of a product. -/
theorem applyFlags_mul (cls : Riscv.Class) {m : ℕ} (x y : BitVec m) (s : CpuState) :
    ∃ s', OpNode.applyFlags (.arith (.mul cls x y)) mulActs s = .ok s' ∧
      s'.flag .CF = FlagNode.wide cls x y ∧ s'.flag .OF = FlagNode.wide cls x y ∧
      ∀ r ∉ [.CF, .OF], s' r = s r := by
  have hwrites : (OpNode.arith (.mul cls x y)).writeFlags mulActs =
      .ok [(.CF, .port .carry), (.OF, .port .overflow)] := rfl
  have hbit : ∀ b : Bool, (BitVec.ofBool b).getLsbD 0 = b := by decide
  rw [OpNode.applyFlags, hwrites, ok_bind]
  simp only [runFlagWrites, Flag.reg, writeReg_offset, ok_bind]
  refine ⟨_, rfl, ?_, ?_, fun r hr => ?_⟩
  · rw [CpuState.flag, Function.update_of_ne (by decide), Function.update_self,
      getLsbD_insertField (by decide), if_pos (by omega)]
    exact hbit _
  · rw [CpuState.flag, Function.update_self, getLsbD_insertField (by decide), if_pos (by omega)]
    exact hbit _
  · simp only [List.mem_cons, List.not_mem_nil, or_false, not_or] at hr
    rw [Function.update_of_ne hr.2, Function.update_of_ne hr.1]

variable {ow : OpWidth}

theorem bits_le (ow : OpWidth) : ow.bits ≤ 64 := by
  cases ow <;> decide

theorem bits_pos (ow : OpWidth) : 0 < ow.bits := by
  cases ow <;> decide

theorem bits_eq_iff (ow : OpWidth) : ow.bits = 8 ↔ ow = .byte := by
  cases ow <;> decide

/-- The flags of a product, and a frame that has room for what is written before. -/
theorem applyFlags_extend (cls : Riscv.Class) {n m : ℕ} (hn : n ≤ ow.bits) (hm : m ≤ ow.bits)
    (x : BitVec n) (y : BitVec m) (s : CpuState) :
    ∃ s', OpNode.applyFlags (.arith (.mul cls (extend cls (ow.bits + ow.bits) x)
        (extend cls (ow.bits + ow.bits) y))) mulActs s = .ok s' ∧
      Flagged cls ow (cls.toInt x * cls.toInt y) s' ∧ ∀ r ∉ [.CF, .OF], s' r = s r := by
  obtain ⟨s', hs', hcf, hof, hframe⟩ := applyFlags_mul cls (extend cls (ow.bits + ow.bits) x)
    (extend cls (ow.bits + ow.bits) y) s
  rw [wide_extend cls hn hm] at hcf hof
  exact ⟨s', hs', ⟨hcf, hof⟩, hframe⟩

theorem gpr_of_flags {s s' : CpuState} (h : ∀ r ∉ [.CF, .OF], s' r = s r) (num : Fin 16) :
    s'.gpr num = s.gpr num := by
  have hne : gprReg num ∉ [.CF, .OF] := by
    revert num
    decide
  rw [CpuState.gpr, h _ hne, CpuState.gpr]

/-- The product of bytes, in `AX`. -/
theorem writeReg_ax (p : ℤ) (s : CpuState) :
    ∃ s', writeReg (xedregToOffset (.gpr rax)) (BitVec.ofInt 16 p) s = .ok s' ∧
      ProductWritten .byte p s s' ∧ ∀ r ∉ [.RAX, .RDX], s' r = s r := by
  refine ⟨_, writeReg_gpr_of_le (by decide) rax _ s, ⟨fun i hi => ?_, ?_⟩, fun r hr => ?_⟩
  · rw [gpr_setGpr]
    exact getLsbD_insertField hi
  · exact gpr_setGpr_of_ne (by decide) s _
  · exact Function.update_of_ne (List.ne_of_not_mem_cons hr) _ _

theorem bitExtract_eq {n start length : ℕ} (h : start + length ≤ n) (value : BitVec n) :
    bitExtract value start length = .ok (value.extractLsb' start length) :=
  if_neg (by omega)

theorem productWritten_of_ne (h : ow ≠ .byte) (p : ℤ) {s s' : CpuState}
    (hlow : (ow.reg rax).Written ((BitVec.ofInt (ow.bits + ow.bits) p).extractLsb' 0 ow.bits)
      (s.gpr rax) (s'.gpr rax))
    (hhigh : (ow.reg rdx).Written
      ((BitVec.ofInt (ow.bits + ow.bits) p).extractLsb' ow.bits ow.bits)
      (s.gpr rdx) (s'.gpr rdx)) : ProductWritten ow p s s' := by
  cases ow with
  | byte => exact absurd rfl h
  | word | dword | qword => exact ⟨hlow, hhigh⟩

theorem writeProduct_spec (p : ℤ) (s : CpuState) :
    ∃ s', writeProduct (BitVec.ofInt (ow.bits + ow.bits) p) s = .ok s' ∧
      ProductWritten ow p s s' ∧ ∀ r ∉ [.RAX, .RDX], s' r = s r := by
  by_cases hbyte : ow = .byte
  · subst hbyte
    exact writeReg_ax p s
  · obtain ⟨s', hs', hlow, hhigh, hframe⟩ := GprReg.writeGpr_writeGpr_spec (ow.reg rax)
      (ow.reg rdx) (show rax ≠ rdx by decide) .unsignedInteger
      ((BitVec.ofInt (ow.bits + ow.bits) p).extractLsb' 0 ow.bits)
      ((BitVec.ofInt (ow.bits + ow.bits) p).extractLsb' ow.bits ow.bits) s
    refine ⟨s', ?_, productWritten_of_ne hbyte p hlow hhigh, fun r hr => hframe r ?_ ?_⟩
    · rw [writeProduct, if_neg ((bits_eq_iff ow).not.2 hbyte), bitExtract_eq (by omega), ok_bind,
        bitExtract_eq (by omega), ok_bind]
      exact hs'
    · exact List.ne_of_not_mem_cons hr
    · exact List.ne_of_not_mem_cons (List.not_mem_of_not_mem_cons hr)

theorem ProductWritten.congr {p : ℤ} {s s₁ s₂ : CpuState} (h : ProductWritten ow p s s₁)
    (hgpr : ∀ num, s₂.gpr num = s₁.gpr num) : ProductWritten ow p s s₂ := by
  cases ow <;> simpa only [ProductWritten, hgpr] using h

theorem read_low (ow : OpWidth) (num : Fin 16) (s : CpuState) :
    readGpr (ow.reg num) s = .ok ((ow.reg num).view (s.gpr num)) := by
  rw [GprReg.readGpr_eq, GprReg.view_eq_setWidth fun h => by cases ow <;> cases h]

/-- The product of what is read. -/
theorem translateMul_spec (cls : Riscv.Class) (src : RegOrMem ow.bits) (s : CpuState) :
    ∃ s', translateMul cls src s = .ok s' ∧ Multiplied cls ow
      (cls.toInt ((ow.reg rax).view (s.gpr rax)) * cls.toInt (src.value s)) s s' := by
  obtain ⟨s₁, hs₁, hproduct, hframe⟩ := writeProduct_spec
    (cls.toInt ((ow.reg rax).view (s.gpr rax)) * cls.toInt (src.value s)) s
  obtain ⟨s₂, hs₂, hflags, hframe'⟩ := applyFlags_extend cls le_rfl le_rfl
    ((ow.reg rax).view (s.gpr rax)) (src.value s) s₁
  refine ⟨s₂, ?_, hproduct.congr (gpr_of_flags hframe'), hflags, fun r hr => ?_⟩
  · rw [translateMul, RegOrMem.read_eq_value, ok_bind, read_low, ok_bind]
    dsimp only
    rw [extend_mul_extend, hs₁, ok_bind, hs₂]
  · rw [hframe' r (by simp_all), hframe r (by simp_all)]

/-- The low half of the product of what is read. -/
theorem translateImul_spec {n : ℕ} (hn : n ≤ ow.bits) (dst : Fin 16) (op1 : BitVec ow.bits)
    (op2 : BitVec n) (s : CpuState) :
    ∃ s', translateImul dst op1 op2 s = .ok s' ∧ Truncated ow dst (op1.toInt * op2.toInt) s s' := by
  obtain ⟨y, hy, hwritten⟩ := (ow.reg dst).writeGpr_spec .unsignedInteger
    (BitVec.ofInt ow.bits (Riscv.Class.signed.toInt op1 * Riscv.Class.signed.toInt op2)) s
  obtain ⟨s', hs', hflags, hframe⟩ := applyFlags_extend .signed le_rfl hn op1 op2 (s.setGpr dst y)
  refine ⟨s', ?_, ?_, hflags, fun r hr => ?_⟩
  · rw [translateImul, extend_mul_extend, setWidth_ofInt (by omega), hy, ok_bind, hs']
  · rwa [gpr_of_flags hframe, gpr_setGpr]
  · rw [hframe r (by simp_all)]
    exact Function.update_of_ne (List.ne_of_not_mem_cons hr) _ _

/-! ## Quotients -/

section Divide

variable {k : ℕ} (cls : Riscv.Class)

theorem toInt_quotient (hk : 0 < k) {a b : BitVec k}
    (h : cls.Fits k ((cls.toInt a).tdiv (cls.toInt b))) :
    cls.toInt (quotient cls a b) = (cls.toInt a).tdiv (cls.toInt b) := by
  cases cls with
  | signed =>
    have hpow : ((2 ^ k : ℕ) : ℤ) = 2 * 2 ^ (k - 1) := by
      push_cast
      exact two_pow_eq hk
    obtain ⟨hl, hr⟩ := h
    change (a.sdiv b).toInt = a.toInt.tdiv b.toInt
    change -2 ^ (k - 1) ≤ a.toInt.tdiv b.toInt at hl
    change a.toInt.tdiv b.toInt < 2 ^ (k - 1) at hr
    rw [BitVec.toInt_sdiv]
    exact Int.bmod_eq_of_le_mul_two (by omega) (by omega)
  | unsigned => exact Int.ofNat_tdiv a.toNat b.toNat

theorem toInt_remainder (a b : BitVec k) :
    cls.toInt (remainder cls a b) = (cls.toInt a).tmod (cls.toInt b) := by
  cases cls with
  | signed => exact BitVec.toInt_srem a b
  | unsigned => exact Int.ofNat_tmod a.toNat b.toNat

theorem abs_tmod_lt (x : ℤ) {y : ℤ} (hy : y ≠ 0) : |x.tmod y| < |y| := by
  rw [Int.abs_eq_natAbs, Int.abs_eq_natAbs, Int.natAbs_tmod]
  exact_mod_cast Nat.mod_lt _ (Int.natAbs_pos.2 hy)

/-- A remainder has the width of its divisor. -/
theorem fits_remainder {n : ℕ} (a : BitVec n) (b : BitVec k) (hb : cls.toInt b ≠ 0) :
    cls.Fits k ((cls.toInt a).tmod (cls.toInt b)) := by
  have hlt := abs_tmod_lt (cls.toInt a) hb
  have hb := cls.fits_toInt le_rfl b
  cases cls with
  | signed =>
    obtain ⟨hl, hr⟩ := hb
    have hle := abs_le.2 ⟨hl, hr.le⟩
    obtain ⟨hl', hr'⟩ := abs_lt.1 (hlt.trans_le hle)
    exact ⟨hl'.le, hr'⟩
  | unsigned =>
    rw [abs_of_nonneg hb.1] at hlt
    exact ⟨Int.tmod_nonneg _ (Int.natCast_nonneg _), ((le_abs_self _).trans_lt hlt).trans hb.2⟩

theorem quotient_spec {w : ℕ} (hw : 0 < w) {dividend : BitVec (w + w)} {divisor : BitVec w}
    (h : Divisible cls dividend divisor) :
    Quotients cls dividend divisor
      ((quotient cls dividend (extend cls _ divisor)).setWidth w)
      ((remainder cls dividend (extend cls _ divisor)).setWidth w) := by
  obtain ⟨hzero, hfits⟩ := h
  have hext := toInt_extend cls (show w ≤ w + w by omega) divisor
  have hquo := toInt_quotient cls (show 0 < w + w by omega) (a := dividend)
    (b := extend cls (w + w) divisor) (by rw [hext]; exact hfits.mono (by omega))
  have hrem := toInt_remainder cls dividend (extend cls (w + w) divisor)
  rw [hext] at hquo hrem
  have hquo' := (Riscv.Class.toInt_setWidth hw (Nat.le_add_right w w) (hquo ▸ hfits)).trans hquo
  have hrem' := (Riscv.Class.toInt_setWidth hw (Nat.le_add_right w w)
    (hrem ▸ fits_remainder cls dividend divisor hzero)).trans hrem
  refine ⟨?_, ?_, fun hne => ?_⟩
  · rw [hquo', hrem', Int.tdiv_mul_add_tmod]
  · rw [hrem']
    exact abs_tmod_lt _ hzero
  · rw [hrem'] at hne ⊢
    have hsign := Int.sign_tmod (cls.toInt dividend) (cls.toInt divisor)
    rw [if_neg fun hdvd => hne (Int.tmod_eq_zero_of_dvd hdvd)] at hsign
    rw [← Int.sign_eq_neg_one_iff_neg, hsign, Int.sign_eq_neg_one_iff_neg]

end Divide

theorem bitInsert_append {b : ℕ} (hi lo : BitVec b) :
    bitInsert (extend .unsigned (b + b) lo) hi b b = .ok (hi ++ lo) := by
  have hfield : insertField (lo.setWidth (b + b)) b b hi = hi ++ lo := by
    refine BitVec.eq_of_getLsbD_eq fun i hi' => ?_
    rw [getLsbD_insertField hi', BitVec.getLsbD_append]
    by_cases hlow : i < b
    · rw [if_neg (by omega), if_pos hlow, BitVec.getLsbD_setWidth, decide_eq_true hi',
        Bool.true_and]
    · rw [if_pos (by omega), if_neg hlow]
  rw [bitInsert, if_neg (by omega), if_neg (by omega), if_neg (by omega)]
  exact congrArg Except.ok hfield

/-- The division of what is read. -/
theorem translateDiv_spec (cls : Riscv.Class) (h : ow ≠ .byte) (src : RegOrMem ow.bits)
    (s : CpuState) :
    ∃ s', translateDiv cls src s = .ok s' ∧
      (Divisible cls ((ow.reg rdx).view (s.gpr rdx) ++ (ow.reg rax).view (s.gpr rax))
        (src.content s) → Divided cls ow (src.content s) s s') := by
  obtain ⟨s', hs', hquo, hrem, hframe⟩ := GprReg.writeGpr_writeGpr_spec (ow.reg rax) (ow.reg rdx)
    (show rax ≠ rdx by decide) .unsignedInteger
    ((quotient cls ((ow.reg rdx).view (s.gpr rdx) ++ (ow.reg rax).view (s.gpr rax))
      (extend cls _ (src.content s))).setWidth ow.bits)
    ((remainder cls ((ow.reg rdx).view (s.gpr rdx) ++ (ow.reg rax).view (s.gpr rax))
      (extend cls _ (src.content s))).setWidth ow.bits) s
  refine ⟨s', ?_, fun hdiv => ⟨_, _, quotient_spec cls (bits_pos ow) hdiv, hquo, hrem,
    fun r hr => hframe r ?_ ?_⟩⟩
  · rw [translateDiv, RegOrMem.read_eq (RegOrMem.not_isHigh ((bits_eq_iff ow).not.2 h) src),
      ok_bind,
      read_low, ok_bind, if_neg h, read_low, ok_bind]
    dsimp only
    rw [bitInsert_append, ok_bind]
    exact hs'
  · exact List.ne_of_not_mem_cons hr
  · exact List.ne_of_not_mem_cons (List.not_mem_of_not_mem_cons hr)

/-! ## The result -/

theorem toInt_inj (cls : Riscv.Class) {n : ℕ} {x y : BitVec n} :
    cls.toInt x = cls.toInt y ↔ x = y := by
  cases cls with
  | signed => exact BitVec.toInt_inj
  | unsigned => exact Nat.cast_inj.trans BitVec.toNat_inj

/-- A product of bytes that is in `AX` is the only one. -/
theorem productWritten_byte_inj {cls : Riscv.Class} {p p' : ℤ} (hp : cls.Fits 16 p)
    (hp' : cls.Fits 16 p') {s s' : CpuState} (h : ProductWritten .byte p s s')
    (h' : ProductWritten .byte p' s s') : p = p' := by
  have heq : BitVec.ofInt 16 p = BitVec.ofInt 16 p' := by
    refine BitVec.eq_of_getLsbD_eq fun i hi => ?_
    have hbit := h.1 i (by omega)
    have hbit' := h'.1 i (by omega)
    rw [if_pos (by exact ⟨i.zero_le, (Nat.zero_add 16).symm ▸ hi⟩)] at hbit hbit'
    exact hbit.symm.trans hbit'
  rw [← Riscv.Class.toInt_ofInt (by decide) hp, heq, Riscv.Class.toInt_ofInt (by decide) hp']

theorem mul_right_iff (cls : Riscv.Class) (src : RegOrMem ow.bits) (s : CpuState) :
    (mul cls ow src).Right s ↔ (mul cls ow src).Fits s := by
  obtain ⟨s', hs', hmul⟩ := translateMul_spec cls src s
  by_cases hhigh : src.IsHigh
  · obtain rfl : ow = .byte := by
      by_contra h
      exact RegOrMem.not_isHigh ((bits_eq_iff ow).not.2 h) src hhigh
    have hfits : ∀ x y : BitVec 8, cls.Fits 16 (cls.toInt x * cls.toInt y) := fun x y =>
      (cls.fits_toInt le_rfl x).mul (by decide) (cls.fits_toInt le_rfl y)
    have hzero : ∀ x : BitVec 8, cls.toInt x = 0 ↔ x = 0 := by
      intro x
      rw [← toInt_inj cls]
      cases cls <;> rfl
    have hiff : (mul cls .byte src).Right s ↔
        cls.toInt ((OpWidth.byte.reg rax).view (s.gpr rax)) * cls.toInt (src.value s) =
          cls.toInt ((OpWidth.byte.reg rax).view (s.gpr rax)) * cls.toInt (src.content s) := by
      constructor
      · rintro ⟨t, ht, hexec⟩
        obtain rfl := Except.ok.inj (hs'.symm.trans ht)
        exact productWritten_byte_inj (hfits _ _) (hfits _ _) hmul.product hexec.product
      · intro heq
        rw [heq] at hmul
        exact ⟨s', hs', hmul⟩
    rw [hiff, mul_eq_mul_left_iff, toInt_inj, or_comm]
    refine (or_congr_left (hzero _)).trans ?_
    exact (imp_iff_right hhigh).symm
  · rw [RegOrMem.value_eq hhigh] at hmul
    exact iff_of_true ⟨s', hs', hmul⟩ fun h => absurd h hhigh

/-- Every product and every quotient is right, but for those of a high byte, unless the product is
zero or the low byte is the same, and the quotients of bytes. -/
theorem mulDiv_right_iff (inst : MulDivInst) (s : CpuState) : inst.Right s ↔ inst.Fits s := by
  cases inst with
  | mul cls ow src => exact mul_right_iff cls src s
  | imul2 ow h dst src =>
    obtain ⟨s', hs', himul⟩ := translateImul_spec le_rfl dst ((ow.reg dst).view (s.gpr dst))
      (src.content s) s
    refine iff_of_true ⟨s', ?_, himul⟩ trivial
    rw [doTranslate, read_low, ok_bind,
      RegOrMem.read_eq (RegOrMem.not_isHigh ((bits_eq_iff ow).not.2 h) src), ok_bind, hs']
  | imul3 ow h dst src hn imm =>
    obtain ⟨s', hs', himul⟩ := translateImul_spec hn dst (src.content s) imm s
    refine iff_of_true ⟨s', ?_, himul⟩ trivial
    rw [doTranslate, RegOrMem.read_eq (RegOrMem.not_isHigh ((bits_eq_iff ow).not.2 h) src), ok_bind,
      hs']
  | div cls ow src =>
    by_cases hbyte : ow = .byte
    · subst hbyte
      refine iff_of_false ?_ fun h => h rfl
      rintro ⟨t, ht, -⟩
      rw [doTranslate, translateDiv, RegOrMem.read_eq_value, ok_bind, read_low, ok_bind,
        if_pos rfl] at ht
      exact nomatch ht
    · exact iff_of_true (translateDiv_spec cls hbyte src s) hbyte

/-- `MUL AH`, when `AX` is `0x0205`. What is multiplied is `AL` with itself. -/
theorem not_mulDiv_right :
    ¬(mul .unsigned .byte (.reg ⟨0, .high, fun _ => by decide⟩ rfl)).Right (fun _ => 0x0205) := by
  rw [mul_right_iff]
  intro h
  exact absurd (h rfl) (by decide +kernel)

end MulDivInst

end Arancini.X86
