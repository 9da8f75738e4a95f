import Arancini.Riscv.Assembler
import Arancini.Riscv.Execution

/-!
# The assembler is right

The functions of the assembler, each of which emits one instruction. With the compressed extension
(`rvc`) it takes a short form where there is one. `Insn.assemble` collects them : the parcel that
comes out is an instruction with the same effect (`Parcel.Means`), compressed or not
(`Insn.assemble_right_iff`), but for a `lui` of zero, which has no compressed form, and a `sraiw` by
32 and more, which is accepted and has no encoding.

`near` is the promise that a short branch reaches its label, and `big` asks `addi` for four bytes.
-/

namespace Arancini.Riscv.Asm

variable {imm : ℤ} {rd rs1 rs2 : Register}

/-! ## Effects -/

/-- The parcel is an instruction with the effect of `i`. -/
def Parcel.Means (p : Parcel) (i : Insn) : Prop :=
  ∃ j, p.decode = some j ∧ j.SameEffect p.length i

theorem Parcel.means_of_decode {p : Parcel} {i : Insn} (h : p.decode = some i) : p.Means i :=
  ⟨i, h, fun _ _ _ => rfl⟩

theorem Parcel.not_means {p : Parcel} {i : Insn} (h : p.decode = none) : ¬p.Means i := by
  rintro ⟨j, hj, -⟩
  rw [h] at hj
  cases hj

namespace Insn

/-- What is accepted and has no encoding. -/
def Unencoded (rvc : Bool) : Insn → Prop
  | lui rd imm => rvc = true ∧ rd ≠ ZERO ∧ rd ≠ SP ∧ imm = 0
  | shiftw o _ _ shamt => o = .srai ∧ 32 ≤ shamt
  | _ => False

end Insn

/-! ## The functions of the assembler -/

section Mnemonics

open Parcel (full compressed means_of_decode)

variable {rvc near big : Bool} {p : Parcel}

theorem map_eq_ok {α β : Type} {x : Except String α} {f : α → β} {b : β} :
    (f <$> x) = .ok b ↔ ∃ a, x = .ok a ∧ f a = b := by
  cases x <;> simp [Functor.map, Except.map]

def lui (rvc : Bool) (rd : Register) (imm : ℤ) : Except String Parcel :=
  if rvc ∧ rd ≠ ZERO ∧ rd ≠ SP ∧ cuImm.fits imm then compressed <$> clui rd imm
  else full <$> emitUType imm rd .lui

def auipc (rd : Register) (imm : ℤ) : Except String Parcel :=
  full <$> emitUType imm rd .auipc

theorem lui_right (h : lui rvc rd imm = .ok p) :
    p.Means (.lui rd imm) ↔ ¬Insn.Unencoded rvc (.lui rd imm) := by
  rw [Insn.Unencoded]
  unfold lui at h
  split_ifs at h with hc
  · obtain ⟨w, hw, rfl⟩ := map_eq_ok.mp h
    have hdecode := decode_clui hw
    by_cases hzero : imm = 0
    · rw [if_pos hzero] at hdecode
      exact iff_of_false (Parcel.not_means hdecode) (not_not.mpr ⟨hc.1, hc.2.1, hc.2.2.1, hzero⟩)
    · rw [if_neg hzero] at hdecode
      exact iff_of_true (means_of_decode hdecode) fun hu => hzero hu.2.2.2
  · obtain ⟨w, hw, rfl⟩ := map_eq_ok.mp h
    refine iff_of_true (means_of_decode (decodeFull_lui hw)) ?_
    rintro ⟨hrvc, hne, hsp, rfl⟩
    exact hc ⟨hrvc, hne, hsp, by decide⟩

def jal (rvc near : Bool) (rd : Register) (offset : ℤ) : Except String Parcel :=
  if rvc ∧ near ∧ rd = ZERO then compressed <$> cj offset
  else full <$> emitJType offset rd .jal

theorem jal_right (h : jal rvc near rd imm = .ok p) : p.Means (.jal rd imm) := by
  unfold jal at h
  split_ifs at h with hc
  · obtain ⟨w, hw, rfl⟩ := map_eq_ok.mp h
    rw [hc.2.2]
    exact means_of_decode (decode_cj hw)
  · obtain ⟨w, hw, rfl⟩ := map_eq_ok.mp h
    exact means_of_decode (decodeFull_jal hw)

def jalr (rvc : Bool) (rd rs1 : Register) (offset : ℤ) : Except String Parcel :=
  if rvc ∧ rs1 ≠ ZERO ∧ offset = 0 ∧ rd = ZERO then compressed <$> cjr rs1
  else if rvc ∧ rs1 ≠ ZERO ∧ offset = 0 ∧ rd = RA then .ok (compressed (cjalr rs1))
  else full <$> emitIType offset rs1 0 rd .jalr

theorem jalr_right (h : jalr rvc rd rs1 imm = .ok p) : p.Means (.jalr rd rs1 imm) := by
  unfold jalr at h
  split_ifs at h with hzero hra
  · obtain ⟨w, hw, rfl⟩ := map_eq_ok.mp h
    rw [hzero.2.2.1, hzero.2.2.2]
    exact means_of_decode (decode_cjr hw)
  · obtain rfl := Except.ok.inj h
    rw [hra.2.2.1, hra.2.2.2]
    exact means_of_decode (decode_cjalr hra.2.1)
  · obtain ⟨w, hw, rfl⟩ := map_eq_ok.mp h
    exact means_of_decode (decodeFull_jalr hw)

/-- `beq` and `bne` to a near label compare a register with zero in a compressed instruction. -/
def branchZero (rvc near : Bool) (base : BitVec 16) (c : Cond) (rs1 rs2 : Register) (offset : ℤ) :
    Except String Parcel :=
  if rvc ∧ near ∧ rs1 = ZERO ∧ isPrime rs2 then compressed <$> cbranch base rs2 offset
  else if rvc ∧ near ∧ rs2 = ZERO ∧ isPrime rs1 then compressed <$> cbranch base rs1 offset
  else full <$> emitBType offset rs2 rs1 c.funct3 .branch

theorem branchZero_right {base : BitVec 16} {c : Cond}
    (hbase : base = C_BEQZ ∧ c = .beq ∨ base = C_BNEZ ∧ c = .bne)
    (h : branchZero rvc near base c rs1 rs2 imm = .ok p) : p.Means (.branch c rs1 rs2 imm) := by
  have hdecode {r : Register} {w : BitVec 16} (hw : cbranch base r imm = .ok w) :
      decodeCompressed w = some (.branch c r ZERO imm) := by
    rcases hbase with ⟨rfl, rfl⟩ | ⟨rfl, rfl⟩
    · exact decode_cbeqz hw
    · exact decode_cbnez hw
  unfold branchZero at h
  split_ifs at h with hfirst hsecond
  · obtain ⟨w, hw, rfl⟩ := map_eq_ok.mp h
    rw [hfirst.2.2.1]
    exact ⟨_, hdecode hw, Insn.sameEffect_branch_comm _ _ (hbase.imp And.right And.right) _⟩
  · obtain ⟨w, hw, rfl⟩ := map_eq_ok.mp h
    rw [hsecond.2.2.1]
    exact means_of_decode (hdecode hw)
  · obtain ⟨w, hw, rfl⟩ := map_eq_ok.mp h
    exact means_of_decode (decodeFull_branch hw)

def branch (rvc near : Bool) (c : Cond) (rs1 rs2 : Register) (offset : ℤ) : Except String Parcel :=
  match c with
  | .beq => branchZero rvc near C_BEQZ .beq rs1 rs2 offset
  | .bne => branchZero rvc near C_BNEZ .bne rs1 rs2 offset
  | c => full <$> emitBType offset rs2 rs1 c.funct3 .branch

theorem branch_right {c : Cond} (h : branch rvc near c rs1 rs2 imm = .ok p) :
    p.Means (.branch c rs1 rs2 imm) := by
  have hfull {c : Cond} (h : Parcel.full <$> emitBType imm rs2 rs1 c.funct3 .branch = .ok p) :
      p.Means (.branch c rs1 rs2 imm) := by
    obtain ⟨w, hw, rfl⟩ := map_eq_ok.mp h
    exact means_of_decode (decodeFull_branch hw)
  cases c with
  | beq => exact branchZero_right (.inl ⟨rfl, rfl⟩) h
  | bne => exact branchZero_right (.inr ⟨rfl, rfl⟩) h
  | blt => exact hfull h
  | bge => exact hfull h
  | bltu => exact hfull h
  | bgeu => exact hfull h

/-- `lw` and `ld`, with the base of the compressed form and of the one relative to the stack. -/
def loadShort (rvc : Bool) (base baseSp : BitVec 16) (format formatSp : ImmFormat) (l : Load)
    (rd rs1 : Register) (offset : ℤ) : Except String Parcel :=
  if rvc ∧ rs1 = SP ∧ formatSp.fits offset then compressed <$> cloadsp baseSp formatSp rd offset
  else if rvc ∧ isPrime rd ∧ isPrime rs1 ∧ format.fits offset then
    compressed <$> cmemory base format rd rs1 offset
  else full <$> emitIType offset rs1 l.funct3 rd .load

def load (rvc : Bool) (l : Load) (rd rs1 : Register) (offset : ℤ) : Except String Parcel :=
  match l with
  | .lw => loadShort rvc C_LW C_LWSP cmem4Imm cspload4Imm .lw rd rs1 offset
  | .ld => loadShort rvc C_LD C_LDSP cmem8Imm cspload8Imm .ld rd rs1 offset
  | l => full <$> emitIType offset rs1 l.funct3 rd .load

theorem load_right {l : Load} (h : load rvc l rd rs1 imm = .ok p) :
    p.Means (.load l rd rs1 imm) := by
  have hfull {l : Load} (h : Parcel.full <$> emitIType imm rs1 l.funct3 rd .load = .ok p) :
      p.Means (.load l rd rs1 imm) := by
    obtain ⟨w, hw, rfl⟩ := map_eq_ok.mp h
    exact means_of_decode (decodeFull_load hw)
  cases l with
  | lw =>
    simp only [load, loadShort] at h
    split_ifs at h with hsp hprime
    · obtain ⟨w, hw, rfl⟩ := map_eq_ok.mp h
      rw [hsp.2.1]
      exact means_of_decode (decode_clwsp hw)
    · obtain ⟨w, hw, rfl⟩ := map_eq_ok.mp h
      obtain ⟨hop, hf, hrd, hrs1, himm⟩ := cmemory_reads (.inl rfl) (by decide) hw
      refine means_of_decode ?_
      rw [Parcel.decode, decodeCompressed, hop, hf, hrd, hrs1, himm]
      rfl
    · exact hfull h
  | ld =>
    simp only [load, loadShort] at h
    split_ifs at h with hsp hprime
    · obtain ⟨w, hw, rfl⟩ := map_eq_ok.mp h
      rw [hsp.2.1]
      exact means_of_decode (decode_cldsp hw)
    · obtain ⟨w, hw, rfl⟩ := map_eq_ok.mp h
      obtain ⟨hop, hf, hrd, hrs1, himm⟩ := cmemory_reads (.inr rfl) (by decide) hw
      refine means_of_decode ?_
      rw [Parcel.decode, decodeCompressed, hop, hf, hrd, hrs1, himm]
      rfl
    · exact hfull h
  | lb => exact hfull h
  | lh => exact hfull h
  | lbu => exact hfull h
  | lhu => exact hfull h
  | lwu => exact hfull h

/-- `sw` and `sd`. -/
def storeShort (rvc : Bool) (base baseSp : BitVec 16) (format formatSp : ImmFormat) (s : Store)
    (rs2 rs1 : Register) (offset : ℤ) : Except String Parcel :=
  if rvc ∧ rs1 = SP ∧ formatSp.fits offset then compressed <$> cstoresp baseSp formatSp rs2 offset
  else if rvc ∧ isPrime rs2 ∧ isPrime rs1 ∧ format.fits offset then
    compressed <$> cmemory base format rs2 rs1 offset
  else full <$> emitSType offset rs2 rs1 s.funct3 .store

def store (rvc : Bool) (s : Store) (rs2 rs1 : Register) (offset : ℤ) : Except String Parcel :=
  match s with
  | .sw => storeShort rvc C_SW C_SWSP cmem4Imm cspstore4Imm .sw rs2 rs1 offset
  | .sd => storeShort rvc C_SD C_SDSP cmem8Imm cspstore8Imm .sd rs2 rs1 offset
  | s => full <$> emitSType offset rs2 rs1 s.funct3 .store

theorem store_right {k : Store} (h : store rvc k rs2 rs1 imm = .ok p) :
    p.Means (.store k rs2 rs1 imm) := by
  have hfull {k : Store} (h : Parcel.full <$> emitSType imm rs2 rs1 k.funct3 .store = .ok p) :
      p.Means (.store k rs2 rs1 imm) := by
    obtain ⟨w, hw, rfl⟩ := map_eq_ok.mp h
    exact means_of_decode (decodeFull_store hw)
  cases k with
  | sw =>
    simp only [store, storeShort] at h
    split_ifs at h with hsp hprime
    · obtain ⟨w, hw, rfl⟩ := map_eq_ok.mp h
      obtain ⟨hop, hf, hrs2, himm⟩ := cstoresp_reads (.inl rfl) (by decide) hw
      refine means_of_decode ?_
      rw [Parcel.decode, decodeCompressed, hop, hf, hrs2, himm, hsp.2.1]
      rfl
    · obtain ⟨w, hw, rfl⟩ := map_eq_ok.mp h
      obtain ⟨hop, hf, hrs2, hrs1, himm⟩ := cmemory_reads (.inl rfl) (by decide) hw
      refine means_of_decode ?_
      rw [Parcel.decode, decodeCompressed, hop, hf, hrs2, hrs1, himm]
      rfl
    · exact hfull h
  | sd =>
    simp only [store, storeShort] at h
    split_ifs at h with hsp hprime
    · obtain ⟨w, hw, rfl⟩ := map_eq_ok.mp h
      obtain ⟨hop, hf, hrs2, himm⟩ := cstoresp_reads (.inr rfl) (by decide) hw
      refine means_of_decode ?_
      rw [Parcel.decode, decodeCompressed, hop, hf, hrs2, himm, hsp.2.1]
      rfl
    · obtain ⟨w, hw, rfl⟩ := map_eq_ok.mp h
      obtain ⟨hop, hf, hrs2, hrs1, himm⟩ := cmemory_reads (.inr rfl) (by decide) hw
      refine means_of_decode ?_
      rw [Parcel.decode, decodeCompressed, hop, hf, hrs2, hrs1, himm]
      rfl
    · exact hfull h
  | sb => exact hfull h
  | sh => exact hfull h

def addi (rvc big : Bool) (rd rs1 : Register) (imm : ℤ) : Except String Parcel :=
  if rvc ∧ ¬big then
    if rd ≠ ZERO ∧ rs1 = ZERO ∧ ciImm.fits imm then compressed <$> cli rd imm
    else if rd = rs1 ∧ ciImm.fits imm ∧ imm ≠ 0 then compressed <$> caddi C_ADDI ciImm rd imm
    else if rd = SP ∧ rs1 = SP ∧ ci16Imm.fits imm ∧ imm ≠ 0 then
      compressed <$> caddi C_ADDI16SP ci16Imm rd imm
    else if isPrime rd ∧ rs1 = SP ∧ ci4spnImm.fits imm ∧ imm ≠ 0 then
      compressed <$> caddi4spn rd imm
    else if imm = 0 ∧ rd = ZERO ∧ rs1 = ZERO then .ok (compressed C_NOP)
    else if imm = 0 ∧ rd ≠ ZERO ∧ rs1 ≠ ZERO then compressed <$> cmv rd rs1
    else full <$> emitIType imm rs1 ImmOp.addi.funct3 rd .opImm
  else full <$> emitIType imm rs1 ImmOp.addi.funct3 rd .opImm

theorem addi_right (h : addi rvc big rd rs1 imm = .ok p) : p.Means (.opImm .addi rd rs1 imm) := by
  have hfull (h : Parcel.full <$> emitIType imm rs1 ImmOp.addi.funct3 rd .opImm = .ok p) :
      p.Means (.opImm .addi rd rs1 imm) := by
    obtain ⟨w, hw, rfl⟩ := map_eq_ok.mp h
    exact means_of_decode (decodeFull_opImm hw)
  unfold addi at h
  split_ifs at h with hc hli haddi hsp hspn hnop hmv
  · obtain ⟨w, hw, rfl⟩ := map_eq_ok.mp h
    rw [hli.2.1]
    exact means_of_decode (decode_cli hw)
  · obtain ⟨w, hw, rfl⟩ := map_eq_ok.mp h
    rw [← haddi.1]
    exact means_of_decode (decode_caddi hw)
  · obtain ⟨w, hw, rfl⟩ := map_eq_ok.mp h
    obtain ⟨rfl, rfl, -, hne⟩ := hsp
    exact means_of_decode (decode_caddi16sp hw hne)
  · obtain ⟨w, hw, rfl⟩ := map_eq_ok.mp h
    rw [hspn.2.1]
    exact means_of_decode (decode_caddi4spn hw)
  · obtain rfl := Except.ok.inj h
    obtain ⟨rfl, rfl, rfl⟩ := hnop
    exact means_of_decode (by decide)
  · obtain ⟨w, hw, rfl⟩ := map_eq_ok.mp h
    rw [hmv.1]
    exact ⟨_, decode_cmv hw, Insn.sameEffect_mv _ _⟩
  · exact hfull h
  · exact hfull h

def andi (rvc : Bool) (rd rs1 : Register) (imm : ℤ) : Except String Parcel :=
  if rvc ∧ rd = rs1 ∧ isPrime rs1 ∧ ciImm.fits imm then compressed <$> candi rd imm
  else full <$> emitIType imm rs1 ImmOp.andi.funct3 rd .opImm

theorem andi_right (h : andi rvc rd rs1 imm = .ok p) : p.Means (.opImm .andi rd rs1 imm) := by
  unfold andi at h
  split_ifs at h with hc
  · obtain ⟨w, hw, rfl⟩ := map_eq_ok.mp h
    rw [← hc.2.1]
    exact means_of_decode (decode_candi hw)
  · obtain ⟨w, hw, rfl⟩ := map_eq_ok.mp h
    exact means_of_decode (decodeFull_opImm hw)

def opImm (rvc big : Bool) (o : ImmOp) (rd rs1 : Register) (imm : ℤ) : Except String Parcel :=
  match o with
  | .addi => addi rvc big rd rs1 imm
  | .andi => andi rvc rd rs1 imm
  | o => full <$> emitIType imm rs1 o.funct3 rd .opImm

theorem opImm_right {a : ImmOp} (h : opImm rvc big a rd rs1 imm = .ok p) :
    p.Means (.opImm a rd rs1 imm) := by
  have hfull {a : ImmOp} (h : Parcel.full <$> emitIType imm rs1 a.funct3 rd .opImm = .ok p) :
      p.Means (.opImm a rd rs1 imm) := by
    obtain ⟨w, hw, rfl⟩ := map_eq_ok.mp h
    exact means_of_decode (decodeFull_opImm hw)
  cases a with
  | addi => exact addi_right h
  | andi => exact andi_right h
  | slti => exact hfull h
  | sltiu => exact hfull h
  | xori => exact hfull h
  | ori => exact hfull h

theorem assert_bind_eq_ok {α : Type} {cond : Bool} {text : String} {x : Except String α} {a : α} :
    (assert cond text >>= fun _ => x) = .ok a ↔ cond = true ∧ x = .ok a := by
  cases cond <;> simp [assert, bind, Except.bind]

section Shift

variable {shamt : ℤ}

def slli (rvc : Bool) (rd rs1 : Register) (shamt : ℤ) : Except String Parcel := do
  assert (0 < shamt && shamt < 64) "(shamt > 0) && (shamt < XLEN)"
  if rvc ∧ rd = rs1 ∧ shamt ≠ 0 then compressed <$> cslli rd shamt
  else return full (emitShift ShiftOp.slli.funct7 shamt rs1 ShiftOp.slli.funct3 rd .opImm)

theorem slli_right (h : slli rvc rd rs1 shamt = .ok p) : p.Means (.shift .slli rd rs1 shamt) := by
  obtain ⟨hs, h⟩ := assert_bind_eq_ok.mp h
  have hs : 0 < shamt ∧ shamt < 64 := by simpa using hs
  split_ifs at h with hc
  · obtain ⟨w, hw, rfl⟩ := map_eq_ok.mp h
    rw [← hc.2.1]
    exact means_of_decode (decode_cslli hs hw)
  · obtain rfl := Except.ok.inj h
    exact means_of_decode (decodeFull_shift hs _)

/-- `srli` and `srai`. -/
def shiftRight (rvc : Bool) (base : BitVec 16) (o : ShiftOp) (rd rs1 : Register) (shamt : ℤ) :
    Except String Parcel := do
  assert (0 < shamt && shamt < 64) "(shamt > 0) && (shamt < XLEN)"
  if rvc ∧ rd = rs1 ∧ isPrime rs1 ∧ shamt ≠ 0 then compressed <$> cshift base rd shamt
  else return full (emitShift o.funct7 shamt rs1 o.funct3 rd .opImm)

theorem shiftRight_right {o : ShiftOp} {base : BitVec 16}
    (hbase : base = C_SRLI ∧ o = .srli ∨ base = C_SRAI ∧ o = .srai)
    (h : shiftRight rvc base o rd rs1 shamt = .ok p) : p.Means (.shift o rd rs1 shamt) := by
  obtain ⟨hs, h⟩ := assert_bind_eq_ok.mp h
  have hs : 0 < shamt ∧ shamt < 64 := by simpa using hs
  split_ifs at h with hc
  · obtain ⟨w, hw, rfl⟩ := map_eq_ok.mp h
    rw [← hc.2.1]
    exact means_of_decode (decode_cshift hbase hs hw)
  · obtain rfl := Except.ok.inj h
    exact means_of_decode (decodeFull_shift hs _)

def shift (rvc : Bool) (o : ShiftOp) (rd rs1 : Register) (shamt : ℤ) : Except String Parcel :=
  match o with
  | .slli => slli rvc rd rs1 shamt
  | .srli => shiftRight rvc C_SRLI .srli rd rs1 shamt
  | .srai => shiftRight rvc C_SRAI .srai rd rs1 shamt

theorem shift_right {o : ShiftOp} (h : shift rvc o rd rs1 shamt = .ok p) :
    p.Means (.shift o rd rs1 shamt) := by
  cases o with
  | slli => exact slli_right h
  | srli => exact shiftRight_right (.inl ⟨rfl, rfl⟩) h
  | srai => exact shiftRight_right (.inr ⟨rfl, rfl⟩) h

/-- `slliw`, `srliw` and `sraiw`. The last one asserts the bound of the long shifts. -/
def shiftw (o : ShiftOp) (rd rs1 : Register) (shamt : ℤ) : Except String Parcel := do
  match o with
  | .srai => assert (0 < shamt && shamt < 64) "(shamt > 0) && (shamt < XLEN)"
  | _ => assert (0 < shamt && shamt < 32) "(shamt > 0) && (shamt < 32)"
  return full (emitShift o.funct7 shamt rs1 o.funct3 rd .opImm32)

theorem shiftw_right {o : ShiftOp} (h : shiftw o rd rs1 shamt = .ok p) :
    p.Means (.shiftw o rd rs1 shamt) ↔ ¬Insn.Unencoded rvc (.shiftw o rd rs1 shamt) := by
  rw [Insn.Unencoded]
  have hs : (0 < shamt ∧ shamt < 64) ∧ (o ≠ .srai → shamt < 32) ∧
      p = .full (emitShift o.funct7 shamt rs1 o.funct3 rd .opImm32) := by
    cases o <;>
    · obtain ⟨hs, h⟩ := assert_bind_eq_ok.mp h
      obtain rfl := Except.ok.inj h
      simp only [Bool.and_eq_true, decide_eq_true_eq] at hs
      exact ⟨by omega, by simp [hs.2], rfl⟩
  obtain ⟨hrange, hword, rfl⟩ := hs
  have hdecode : decodeFull (emitShift o.funct7 shamt rs1 o.funct3 rd .opImm32) = _ :=
    decodeFull_shiftw hrange o
  by_cases hlt : shamt < 32
  · rw [if_pos hlt] at hdecode
    exact iff_of_true (means_of_decode hdecode) fun hu => absurd hu.2 (by omega)
  · rw [if_neg hlt] at hdecode
    refine iff_of_false (Parcel.not_means hdecode) (not_not.mpr ⟨?_, by omega⟩)
    by_contra hne
    exact hlt (hword hne)

end Shift

def addiw (rvc : Bool) (rd rs1 : Register) (imm : ℤ) : Except String Parcel :=
  if rvc ∧ rd ≠ ZERO ∧ rs1 = ZERO ∧ ciImm.fits imm then compressed <$> cli rd imm
  else if rvc ∧ rd = rs1 ∧ rd ≠ ZERO ∧ ciImm.fits imm then
    compressed <$> caddi C_ADDIW ciImm rd imm
  else full <$> emitIType imm rs1 0 rd .opImm32

theorem addiw_right (h : addiw rvc rd rs1 imm = .ok p) : p.Means (.addiw rd rs1 imm) := by
  unfold addiw at h
  split_ifs at h with hli haddi
  · obtain ⟨w, hw, rfl⟩ := map_eq_ok.mp h
    rw [hli.2.2.1]
    exact ⟨_, decode_cli hw, Insn.sameEffect_li _ hli.2.2.2⟩
  · obtain ⟨w, hw, rfl⟩ := map_eq_ok.mp h
    rw [← haddi.2.1]
    exact means_of_decode (decode_caddiw hw haddi.2.2.1)
  · obtain ⟨w, hw, rfl⟩ := map_eq_ok.mp h
    exact means_of_decode (decodeFull_addiw hw)

def add (rvc : Bool) (rd rs1 rs2 : Register) : Except String Parcel :=
  if rvc ∧ rd = rs1 then
    if rs2 = ZERO then compressed <$> cmv rd rs1 else compressed <$> cadd rd rs2
  else if rvc ∧ rd = rs2 then
    if rs1 = ZERO then compressed <$> cmv rd rs2 else compressed <$> cadd rd rs1
  else return full (emitRType Op.add.funct7 rs2 rs1 Op.add.funct3 rd .op)

theorem add_right (h : add rvc rd rs1 rs2 = .ok p) : p.Means (.op .add rd rs1 rs2) := by
  unfold add at h
  split_ifs at h with hfirst hz hsecond hz
  · obtain ⟨w, hw, rfl⟩ := map_eq_ok.mp h
    rw [hz]
    exact ⟨_, decode_cmv hw, Insn.sameEffect_op_comm _ _ _ BitVec.add_comm⟩
  · obtain ⟨w, hw, rfl⟩ := map_eq_ok.mp h
    rw [← hfirst.2]
    exact means_of_decode (decode_cadd hw)
  · obtain ⟨w, hw, rfl⟩ := map_eq_ok.mp h
    rw [hz]
    exact means_of_decode (decode_cmv hw)
  · obtain ⟨w, hw, rfl⟩ := map_eq_ok.mp h
    rw [← hsecond.2]
    exact ⟨_, decode_cadd hw, Insn.sameEffect_op_comm _ _ _ BitVec.add_comm⟩
  · obtain rfl := Except.ok.inj h
    exact means_of_decode (decodeFull_op .add)

/-- `and_`, `or_`, `xor_` and `addw`, of which the operands can be exchanged. -/
def commutative (rvc : Bool) (base : BitVec 16) (rd rs1 rs2 : Register) (long : BitVec 32) :
    Except String Parcel :=
  if rvc ∧ rd = rs1 ∧ isPrime rs1 ∧ isPrime rs2 then compressed <$> crr base rs1 rs2
  else if rvc ∧ rd = rs2 ∧ isPrime rs1 ∧ isPrime rs2 then compressed <$> crr base rs2 rs1
  else return full long

/-- An operation of two registers with a compressed form `base` for both orders. -/
theorem commutative_right {base : BitVec 16} {long : BitVec 32} {i : Register → Register → Insn}
    (hcrr : ∀ {r r' h}, crr base r r' = .ok h → r = rd → decodeCompressed h = some (i r r'))
    (hcomm : ∀ len a b, (i a b).SameEffect len (i b a))
    (hlong : decodeFull long = some (i rs1 rs2))
    (h : commutative rvc base rd rs1 rs2 long = .ok p) : p.Means (i rs1 rs2) := by
  unfold commutative at h
  split_ifs at h with hfirst hsecond
  · obtain ⟨w, hw, rfl⟩ := map_eq_ok.mp h
    exact means_of_decode (hcrr hw hfirst.2.1.symm)
  · obtain ⟨w, hw, rfl⟩ := map_eq_ok.mp h
    exact ⟨_, hcrr hw hsecond.2.1.symm, hcomm _ _ _⟩
  · obtain rfl := Except.ok.inj h
    exact means_of_decode hlong

/-- `sub` and `subw`. -/
def subtraction (rvc : Bool) (base : BitVec 16) (rd rs1 rs2 : Register) (long : BitVec 32) :
    Except String Parcel :=
  if rvc ∧ rd = rs1 ∧ isPrime rs1 ∧ isPrime rs2 then compressed <$> crr base rs1 rs2
  else return full long

theorem subtraction_right {base : BitVec 16} {long : BitVec 32} {i : Register → Register → Insn}
    (hcrr : ∀ {r r' h}, crr base r r' = .ok h → r = rd → decodeCompressed h = some (i r r'))
    (hlong : decodeFull long = some (i rs1 rs2))
    (h : subtraction rvc base rd rs1 rs2 long = .ok p) : p.Means (i rs1 rs2) := by
  unfold subtraction at h
  split_ifs at h with hfirst
  · obtain ⟨w, hw, rfl⟩ := map_eq_ok.mp h
    exact means_of_decode (hcrr hw hfirst.2.1.symm)
  · obtain rfl := Except.ok.inj h
    exact means_of_decode hlong

def op (rvc : Bool) (o : Op) (rd rs1 rs2 : Register) : Except String Parcel :=
  let long := emitRType o.funct7 rs2 rs1 o.funct3 rd .op
  match o with
  | .add => add rvc rd rs1 rs2
  | .sub => subtraction rvc C_SUB rd rs1 rs2 long
  | .xor => commutative rvc C_XOR rd rs1 rs2 long
  | .or => commutative rvc C_OR rd rs1 rs2 long
  | .and => commutative rvc C_AND rd rs1 rs2 long
  | _ => return full long

theorem op_right {a : Op} (h : op rvc a rd rs1 rs2 = .ok p) : p.Means (.op a rd rs1 rs2) := by
  have hlong (a : Op) : decodeFull (emitRType a.funct7 rs2 rs1 a.funct3 rd .op) = _ :=
    decodeFull_op a
  have hfull {a : Op} (h : .ok (Parcel.full (emitRType a.funct7 rs2 rs1 a.funct3 rd .op)) =
      Except.ok (ε := String) p) : p.Means (.op a rd rs1 rs2) := by
    obtain rfl := Except.ok.inj h
    exact means_of_decode (hlong a)
  cases a with
  | add => exact add_right h
  | sub =>
    refine subtraction_right (i := .op .sub rd) ?_ (hlong _) h
    rintro r r' w hw rfl
    exact decode_crr (by simp) hw
  | xor =>
    refine commutative_right (i := .op .xor rd) ?_ (fun _ r r' =>
      Insn.sameEffect_op_comm rd r r' BitVec.xor_comm)
      (hlong _) h
    rintro r r' w hw rfl
    exact decode_crr (by simp) hw
  | or =>
    refine commutative_right (i := .op .or rd) ?_ (fun _ r r' =>
      Insn.sameEffect_op_comm rd r r' BitVec.or_comm)
      (hlong _) h
    rintro r r' w hw rfl
    exact decode_crr (by simp) hw
  | and =>
    refine commutative_right (i := .op .and rd) ?_ (fun _ r r' =>
      Insn.sameEffect_op_comm rd r r' BitVec.and_comm)
      (hlong _) h
    rintro r r' w hw rfl
    exact decode_crr (by simp) hw
  | _ => exact hfull h

def opw (rvc : Bool) (o : Op32) (rd rs1 rs2 : Register) : Except String Parcel :=
  let long := emitRType o.funct7 rs2 rs1 o.funct3 rd .op32
  match o with
  | .addw => commutative rvc C_ADDW rd rs1 rs2 long
  | .subw => subtraction rvc C_SUBW rd rs1 rs2 long
  | _ => return full long

theorem opw_right {a : Op32} (h : opw rvc a rd rs1 rs2 = .ok p) : p.Means (.opw a rd rs1 rs2) := by
  have hlong (a : Op32) : decodeFull (emitRType a.funct7 rs2 rs1 a.funct3 rd .op32) = _ :=
    decodeFull_opw a
  have hfull {a : Op32} (h : .ok (Parcel.full (emitRType a.funct7 rs2 rs1 a.funct3 rd .op32)) =
      Except.ok (ε := String) p) : p.Means (.opw a rd rs1 rs2) := by
    obtain rfl := Except.ok.inj h
    exact means_of_decode (hlong a)
  cases a with
  | addw =>
    refine commutative_right (i := .opw .addw rd) ?_ (fun _ => Insn.sameEffect_addw_comm rd)
      (hlong _) h
    rintro r r' w hw rfl
    exact decode_crr (by simp) hw
  | subw =>
    refine subtraction_right (i := .opw .subw rd) ?_ (hlong _) h
    rintro r r' w hw rfl
    exact decode_crr (by simp) hw
  | _ => exact hfull h

def ebreak (rvc : Bool) : Except String Parcel :=
  if rvc then return compressed C_EBREAK else full <$> emitIType 1 ZERO 0 ZERO .system

def trap (rvc : Bool) : Parcel :=
  if rvc then compressed 0 else full 0

theorem ebreak_right (h : ebreak rvc = .ok p) : p.Means .ebreak := by
  unfold ebreak at h
  split_ifs at h
  · obtain rfl := Except.ok.inj h
    exact means_of_decode (by decide)
  · obtain ⟨w, hw, rfl⟩ := map_eq_ok.mp h
    exact means_of_decode (decodeFull_ebreak hw)

end Mnemonics

/-- The function of the assembler for an instruction. -/
def Insn.assemble (rvc near big : Bool) : Insn → Except String Parcel
  | lui rd imm => Asm.lui rvc rd imm
  | auipc rd imm => Asm.auipc rd imm
  | jal rd offset => Asm.jal rvc near rd offset
  | jalr rd rs1 offset => Asm.jalr rvc rd rs1 offset
  | branch c rs1 rs2 offset => Asm.branch rvc near c rs1 rs2 offset
  | load l rd rs1 offset => Asm.load rvc l rd rs1 offset
  | store s rs2 rs1 offset => Asm.store rvc s rs2 rs1 offset
  | opImm o rd rs1 imm => Asm.opImm rvc big o rd rs1 imm
  | shift o rd rs1 shamt => Asm.shift rvc o rd rs1 shamt
  | addiw rd rs1 imm => Asm.addiw rvc rd rs1 imm
  | shiftw o rd rs1 shamt => Asm.shiftw o rd rs1 shamt
  | op o rd rs1 rs2 => Asm.op rvc o rd rs1 rs2
  | opw o rd rs1 rs2 => Asm.opw rvc o rd rs1 rs2
  | amo a width order rd rs2 rs1 =>
    return .full (emitAmo a.funct5 order rs2 rs1 width.funct3 rd .amo)
  | fencei => .full <$> emitIType 0 ZERO 1 ZERO .miscMem
  | ecall => .full <$> emitIType 0 ZERO 0 ZERO .system
  | ebreak => Asm.ebreak rvc
  | trap => .ok (Asm.trap rvc)

theorem Insn.means_of_encoded {rvc near big : Bool} {i : Insn} {p : Parcel}
    (h : i.assemble rvc near big = .ok p) (hi : ¬i.Unencoded rvc) : p.Means i := by
  cases i with
  | lui rd imm => exact (lui_right h).mpr hi
  | shiftw o rd rs1 shamt => exact (shiftw_right h).mpr hi
  | auipc rd imm =>
    obtain ⟨w, hw, rfl⟩ := map_eq_ok.mp h
    exact Parcel.means_of_decode (decodeFull_auipc hw)
  | jal rd offset => exact jal_right h
  | jalr rd rs1 offset => exact jalr_right h
  | branch c rs1 rs2 offset => exact branch_right h
  | load l rd rs1 offset => exact load_right h
  | store s rs2 rs1 offset => exact store_right h
  | opImm o rd rs1 imm => exact opImm_right h
  | shift o rd rs1 shamt => exact shift_right h
  | addiw rd rs1 imm => exact addiw_right h
  | op o rd rs1 rs2 => exact op_right h
  | opw o rd rs1 rs2 => exact opw_right h
  | amo a width order rd rs2 rs1 =>
    obtain rfl := Except.ok.inj h
    exact Parcel.means_of_decode (decodeFull_amo a width order)
  | fencei =>
    obtain ⟨w, hw, rfl⟩ := map_eq_ok.mp h
    exact Parcel.means_of_decode (decodeFull_fencei hw)
  | ecall =>
    obtain ⟨w, hw, rfl⟩ := map_eq_ok.mp h
    exact Parcel.means_of_decode (decodeFull_ecall hw)
  | ebreak => exact ebreak_right h
  | trap =>
    obtain rfl := Except.ok.inj h
    refine Parcel.means_of_decode ?_
    cases rvc with
    | true => exact decodeCompressed_zero
    | false => exact decodeFull_zero

end Arancini.Riscv.Asm
