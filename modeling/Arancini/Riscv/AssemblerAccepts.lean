import Arancini.Riscv.CodeLabels

/-!
# What the assembler accepts

An assertion that fails ends the translation. The compressed forms have assertions of their own,
so the choice of the form decides what is accepted. `Insn.Accepted` says what that is : the range
of the immediate in the form of 32 bits, but for the zero register in two compressed forms
(`Insn.assemble_ok_iff`).
-/

namespace Arancini.Riscv.Asm

/-- A computation that does not fail. -/
def Succeeds {α : Type} (x : Except String α) : Prop :=
  ∃ a, x = .ok a

section Succeeds

variable {α β : Type}

@[simp] theorem succeeds_ok (a : α) : Succeeds (.ok a) :=
  ⟨a, rfl⟩

@[simp] theorem succeeds_pure (a : α) : Succeeds (pure a : Except String α) :=
  ⟨a, rfl⟩

@[simp] theorem succeeds_map {x : Except String α} {f : α → β} :
    Succeeds (f <$> x) ↔ Succeeds x := by
  cases x <;> simp [Succeeds, Functor.map, Except.map]

@[simp] theorem succeeds_assert_bind {cond : Bool} {text : String} {f : Unit → Except String α} :
    Succeeds (assert cond text >>= f) ↔ cond = true ∧ Succeeds (f ()) := by
  cases cond <;> simp [Succeeds, assert, bind, Except.bind]

@[simp] theorem succeeds_assert {cond : Bool} {text : String} :
    Succeeds (assert cond text) ↔ cond = true := by
  cases cond <;> simp [Succeeds, assert]

@[simp] theorem succeeds_encode {f : ImmFormat} {n : ℕ} {imm : ℤ} :
    Succeeds (f.encode n imm) ↔ f.fits imm = true := by
  simp [Succeeds, ImmFormat.encode_eq_ok]

@[simp] theorem succeeds_encode_bind {f : ImmFormat} {n : ℕ} {imm : ℤ} {g : BitVec n → β} :
    Succeeds (f.encode n imm >>= fun w => pure (g w)) ↔ f.fits imm = true := by
  rw [← succeeds_encode (n := n), ← succeeds_map (f := g)]
  rfl

@[simp] theorem succeeds_encodePrime_bind {pos : ℕ} {name : String} {r : Register}
    {g : BitVec 16 → Except String β} :
    Succeeds (encodePrime pos name r >>= g) ↔
      isPrime r = true ∧ Succeeds (g (put 16 pos (part 0 3 r))) := by
  rw [encodePrime, bind_assoc, succeeds_assert_bind]
  rfl

@[simp] theorem succeeds_encodePrime {pos : ℕ} {name : String} {r : Register} :
    Succeeds (encodePrime pos name r) ↔ isPrime r = true := by
  simp [encodePrime]

end Succeeds

/-- A narrower format. -/
theorem ImmFormat.fits_of_fits {f g : ImmFormat} {imm : ℤ} (halign : g.align ≤ f.align)
    (hg : g.signed = true) (hpos : 0 < f.width)
    (hwidth : if f.signed then f.width ≤ g.width else f.width < g.width)
    (h : f.fits imm = true) : g.fits imm = true := by
  obtain ⟨hdvd, hrange⟩ := fits_iff.mp h
  refine fits_iff.mpr ⟨(pow_dvd_pow 2 halign).trans hdvd, ?_⟩
  rw [if_pos hg]
  split at hwidth
  · rename_i hs
    rw [if_pos hs] at hrange
    have hpow : (2 : ℤ) ^ (f.width - 1) ≤ 2 ^ (g.width - 1) :=
      pow_le_pow_right₀ one_le_two (by omega)
    omega
  · rename_i hs
    rw [if_neg hs] at hrange
    have hpow : (2 : ℤ) ^ f.width ≤ 2 ^ (g.width - 1) := pow_le_pow_right₀ one_le_two (by omega)
    omega

/-- An amount of a shift is put into six bits with a sign. -/
theorem ciImm_fits_signExtend (x : BitVec 32) : ciImm.fits (signExtend 6 x).toInt = true := by
  have hlow := BitVec.le_toInt (x.setWidth 6)
  have hhigh := BitVec.toInt_lt (x := x.setWidth 6)
  rw [ImmFormat.toInt_signExtend (by decide) (by decide), ImmFormat.fits_iff]
  exact ⟨one_dvd _, hlow, hhigh⟩

/-- The instructions that pass the assertions. -/
def Insn.Accepted (rvc : Bool) : Insn → Prop
  | lui _ imm | auipc _ imm => utypeImm.fits imm = true
  | jal _ offset => jtypeImm.fits offset = true
  | jalr _ _ offset => itypeImm.fits offset = true
  | branch _ _ _ offset => btypeImm.fits offset = true
  | load l rd rs1 offset => itypeImm.fits offset = true ∧
    ¬(rvc = true ∧ rd = ZERO ∧ rs1 = SP ∧
      (l = .lw ∧ cspload4Imm.fits offset = true ∨ l = .ld ∧ cspload8Imm.fits offset = true))
  | store _ _ _ offset => stypeImm.fits offset = true
  | opImm _ _ _ imm | addiw _ _ imm => itypeImm.fits imm = true
  | shift _ _ _ shamt => 0 < shamt ∧ shamt < 64
  | shiftw o _ _ shamt => 0 < shamt ∧ shamt < if o = .srai then 64 else 32
  | op o rd rs1 rs2 => ¬(rvc = true ∧ o = .add ∧ rd = ZERO ∧ (rs1 = ZERO ∨ rs2 = ZERO))
  | _ => True

section Mnemonics

variable {rvc near big : Bool} {rd rs1 rs2 : Register} {imm offset shamt : ℤ}

theorem itype_of_ci (h : ciImm.fits imm = true) : itypeImm.fits imm = true :=
  ImmFormat.fits_of_fits (by decide) rfl (by decide) (by decide) h

theorem emitIType_succeeds {funct3 : BitVec 3} {o : Opcode} :
    Succeeds (emitIType imm rs1 funct3 rd o) ↔ itypeImm.fits imm = true := by
  simp [emitIType]

theorem lui_succeeds : Succeeds (lui rvc rd imm) ↔ utypeImm.fits imm = true := by
  unfold lui
  split_ifs with hc
  · obtain ⟨-, hzero, hsp, hfits⟩ := hc
    refine iff_of_true (by simp [clui, hzero, hsp, hfits]) ?_
    exact ImmFormat.fits_of_fits (by decide) rfl (by decide) (by decide) hfits
  · simp [emitUType]

theorem jal_succeeds : Succeeds (jal rvc (cjImm.fits offset) rd offset) ↔
    jtypeImm.fits offset = true := by
  unfold jal
  split_ifs with hc
  · refine iff_of_true (by simp [cj, hc.2.1]) ?_
    exact ImmFormat.fits_of_fits (by decide) rfl (by decide) (by decide) hc.2.1
  · simp [emitJType]

theorem jalr_succeeds : Succeeds (jalr rvc rd rs1 offset) ↔ itypeImm.fits offset = true := by
  unfold jalr
  split_ifs with hc hc'
  · refine iff_of_true (by simp [cjr, hc.2.1]) ?_
    rw [hc.2.2.1]
    rfl
  · refine iff_of_true (by simp) ?_
    rw [hc'.2.2.1]
    rfl
  · simp [emitIType]

theorem branchZero_succeeds {base : BitVec 16} {c : Cond} :
    Succeeds (branchZero rvc (cbImm.fits offset) base c rs1 rs2 offset) ↔
      btypeImm.fits offset = true := by
  have hb (h : cbImm.fits offset = true) : btypeImm.fits offset = true :=
    ImmFormat.fits_of_fits (by decide) rfl (by decide) (by decide) h
  unfold branchZero
  split_ifs with hc hc'
  · exact iff_of_true (by simp [cbranch, hc.2.1, hc.2.2.2]) (hb hc.2.1)
  · exact iff_of_true (by simp [cbranch, hc'.2.1, hc'.2.2.2]) (hb hc'.2.1)
  · simp [emitBType]

theorem branch_succeeds {c : Cond} :
    Succeeds (branch rvc (cbImm.fits offset) c rs1 rs2 offset) ↔ btypeImm.fits offset = true := by
  cases c with
  | beq => exact branchZero_succeeds
  | bne => exact branchZero_succeeds
  | _ => simp [branch, emitBType]

theorem loadShort_succeeds {base baseSp : BitVec 16} {format formatSp : ImmFormat} {l : Load}
    (hformat : format.fits offset = true → itypeImm.fits offset = true)
    (hformatSp : formatSp.fits offset = true → itypeImm.fits offset = true) :
    Succeeds (loadShort rvc base baseSp format formatSp l rd rs1 offset) ↔
      itypeImm.fits offset = true ∧
        ¬(rvc = true ∧ rd = ZERO ∧ rs1 = SP ∧ formatSp.fits offset = true) := by
  unfold loadShort
  split_ifs with hc hc'
  · obtain ⟨hrvc, hsp, hfits⟩ := hc
    simp [cloadsp, hfits, hrvc, hsp, hformatSp hfits]
  · obtain ⟨hrvc, hrd, hrs1, hfits⟩ := hc'
    refine iff_of_true (by simp [cmemory, hrd, hrs1, hfits]) ⟨hformat hfits, ?_⟩
    rintro ⟨-, rfl, -⟩
    exact absurd hrd (by decide)
  · simp only [succeeds_map, emitIType_succeeds]
    tauto

theorem load_succeeds {l : Load} :
    Succeeds (load rvc l rd rs1 offset) ↔ (Insn.load l rd rs1 offset).Accepted rvc := by
  have hformat {f : ImmFormat} (halign : 0 ≤ f.align) (hpos : 0 < f.width)
      (hwidth : if f.signed then f.width ≤ 12 else f.width < 12) (h : f.fits offset = true) :
      itypeImm.fits offset = true := ImmFormat.fits_of_fits halign rfl hpos hwidth h
  cases l with
  | lw =>
    refine (loadShort_succeeds (hformat (f := cmem4Imm) (by decide) (by decide) (by decide))
      (hformat (f := cspload4Imm) (by decide) (by decide) (by decide))).trans ?_
    simp [Insn.Accepted]
  | ld =>
    refine (loadShort_succeeds (hformat (f := cmem8Imm) (by decide) (by decide) (by decide))
      (hformat (f := cspload8Imm) (by decide) (by decide) (by decide))).trans ?_
    simp [Insn.Accepted]
  | _ => simp [load, Insn.Accepted, emitIType]

theorem storeShort_succeeds {base baseSp : BitVec 16} {format formatSp : ImmFormat} {k : Store}
    (hformat : format.fits offset = true → stypeImm.fits offset = true)
    (hformatSp : formatSp.fits offset = true → stypeImm.fits offset = true) :
    Succeeds (storeShort rvc base baseSp format formatSp k rs2 rs1 offset) ↔
      stypeImm.fits offset = true := by
  unfold storeShort
  split_ifs with hc hc'
  · exact iff_of_true (by simp [cstoresp, hc.2.2]) (hformatSp hc.2.2)
  · obtain ⟨-, hrs2, hrs1, hfits⟩ := hc'
    exact iff_of_true (by simp [cmemory, hrs2, hrs1, hfits]) (hformat hfits)
  · simp [emitSType]

theorem store_succeeds {k : Store} :
    Succeeds (store rvc k rs2 rs1 offset) ↔ stypeImm.fits offset = true := by
  have hformat {f : ImmFormat} (halign : 0 ≤ f.align) (hpos : 0 < f.width)
      (hwidth : if f.signed then f.width ≤ 12 else f.width < 12) (h : f.fits offset = true) :
      stypeImm.fits offset = true := ImmFormat.fits_of_fits halign rfl hpos hwidth h
  cases k with
  | sw =>
    exact storeShort_succeeds (hformat (f := cmem4Imm) (by decide) (by decide) (by decide))
      (hformat (f := cspstore4Imm) (by decide) (by decide) (by decide))
  | sd =>
    exact storeShort_succeeds (hformat (f := cmem8Imm) (by decide) (by decide) (by decide))
      (hformat (f := cspstore8Imm) (by decide) (by decide) (by decide))
  | _ => simp [store, emitSType]

theorem addi_succeeds : Succeeds (addi rvc big rd rs1 imm) ↔ itypeImm.fits imm = true := by
  unfold addi
  split_ifs with hrvc hli haddi hsp hspn hnop hmv
  · exact iff_of_true (by simp [cli, hli.1, hli.2.2]) (itype_of_ci hli.2.2)
  · exact iff_of_true (by simp [caddi, haddi.2.1]) (itype_of_ci haddi.2.1)
  · exact iff_of_true (by simp [caddi, hsp.2.2.1])
      (ImmFormat.fits_of_fits (by decide) rfl (by decide) (by decide) hsp.2.2.1)
  · exact iff_of_true (by simp [caddi4spn, hspn.1, hspn.2.2.1, hspn.2.2.2])
      (ImmFormat.fits_of_fits (by decide) rfl (by decide) (by decide) hspn.2.2.1)
  · refine iff_of_true (by simp) ?_
    rw [hnop.1]
    rfl
  · refine iff_of_true (by simp [cmv, hmv.2.1, hmv.2.2]) ?_
    rw [hmv.1]
    rfl
  · simp [emitIType]
  · simp [emitIType]

theorem andi_succeeds : Succeeds (andi rvc rd rs1 imm) ↔ itypeImm.fits imm = true := by
  unfold andi
  split_ifs with hc
  · obtain ⟨-, rfl, hprime, hfits⟩ := hc
    exact iff_of_true (by simp [candi, hprime, hfits]) (itype_of_ci hfits)
  · simp [emitIType]

theorem opImm_succeeds {o : ImmOp} :
    Succeeds (opImm rvc big o rd rs1 imm) ↔ itypeImm.fits imm = true := by
  cases o with
  | addi => exact addi_succeeds
  | andi => exact andi_succeeds
  | _ => simp [opImm, emitIType]

theorem addiw_succeeds : Succeeds (addiw rvc rd rs1 imm) ↔ itypeImm.fits imm = true := by
  unfold addiw
  split_ifs with hli haddi
  · exact iff_of_true (by simp [cli, hli.2.1, hli.2.2.2]) (itype_of_ci hli.2.2.2)
  · exact iff_of_true (by simp [caddi, haddi.2.2.2]) (itype_of_ci haddi.2.2.2)
  · simp [emitIType]

theorem shift_succeeds {o : ShiftOp} : Succeeds (shift rvc o rd rs1 shamt) ↔
    0 < shamt ∧ shamt < 64 := by
  have hright {base : BitVec 16} {o : ShiftOp} :
      Succeeds (shiftRight rvc base o rd rs1 shamt) ↔ 0 < shamt ∧ shamt < 64 := by
    unfold shiftRight
    split_ifs with hc
    · obtain ⟨-, rfl, hprime, -⟩ := hc
      simp [cshift, hprime, ciImm_fits_signExtend]
    · simp
  cases o with
  | slli =>
    simp only [shift, slli]
    split_ifs <;> simp [cslli, ciImm_fits_signExtend]
  | _ => exact hright

theorem shiftw_succeeds {o : ShiftOp} : Succeeds (shiftw o rd rs1 shamt) ↔
    0 < shamt ∧ shamt < if o = .srai then 64 else 32 := by
  cases o <;> simp [shiftw]

theorem add_succeeds : Succeeds (add rvc rd rs1 rs2) ↔
    ¬(rvc = true ∧ rd = ZERO ∧ (rs1 = ZERO ∨ rs2 = ZERO)) := by
  unfold add
  split_ifs with hfirst hzero hsecond hzero'
  · obtain ⟨hrvc, rfl⟩ := hfirst
    simp [cmv, hrvc, hzero]
  · obtain ⟨hrvc, rfl⟩ := hfirst
    simp [cadd, hrvc, hzero]
  · obtain ⟨hrvc, rfl⟩ := hsecond
    simp [cmv, hrvc, hzero']
  · obtain ⟨hrvc, rfl⟩ := hsecond
    simp [cadd, hrvc, hzero']
  · simp only [succeeds_pure, true_iff]
    rintro ⟨hrvc, rfl, rfl | rfl⟩
    · exact hfirst ⟨hrvc, rfl⟩
    · exact hsecond ⟨hrvc, rfl⟩

theorem commutative_succeeds {base : BitVec 16} {long : BitVec 32} :
    Succeeds (commutative rvc base rd rs1 rs2 long) := by
  unfold commutative
  split_ifs with hfirst hsecond
  · simp [crr, hfirst.2.2.1, hfirst.2.2.2]
  · simp [crr, hsecond.2.2.1, hsecond.2.2.2]
  · simp

theorem subtraction_succeeds {base : BitVec 16} {long : BitVec 32} :
    Succeeds (subtraction rvc base rd rs1 rs2 long) := by
  unfold subtraction
  split_ifs with hfirst
  · simp [crr, hfirst.2.2.1, hfirst.2.2.2]
  · simp

theorem op_succeeds {o : Op} :
    Succeeds (op rvc o rd rs1 rs2) ↔ (Insn.op o rd rs1 rs2).Accepted rvc := by
  cases o with
  | add => exact add_succeeds.trans (by simp [Insn.Accepted])
  | sub => exact iff_of_true subtraction_succeeds (by simp [Insn.Accepted])
  | xor | or | and => exact iff_of_true commutative_succeeds (by simp [Insn.Accepted])
  | _ => exact iff_of_true (by simp [op]) (by simp [Insn.Accepted])

theorem opw_succeeds {o : Op32} : Succeeds (opw rvc o rd rs1 rs2) := by
  cases o with
  | addw => exact commutative_succeeds
  | subw => exact subtraction_succeeds
  | _ => exact succeeds_pure _

theorem ebreak_succeeds : Succeeds (ebreak rvc) := by
  cases rvc with
  | true => exact succeeds_pure _
  | false => exact succeeds_map.mpr (emitIType_succeeds.mpr rfl)

end Mnemonics

/-- The assertions of the assembler, whichever form it takes. -/
theorem Insn.assemble_ok_iff (rvc big : Bool) (i : Insn) :
    (∃ p, i.assemble rvc i.reaches big = .ok p) ↔ i.Accepted rvc := by
  cases i with
  | lui rd imm => exact lui_succeeds
  | auipc rd imm => exact succeeds_map.trans succeeds_encode_bind
  | jal rd offset => exact jal_succeeds
  | jalr rd rs1 offset => exact jalr_succeeds
  | branch c rs1 rs2 offset => exact branch_succeeds
  | load l rd rs1 offset => exact load_succeeds
  | store k rs2 rs1 offset => exact store_succeeds
  | opImm o rd rs1 imm => exact opImm_succeeds
  | shift o rd rs1 shamt => exact shift_succeeds
  | addiw rd rs1 imm => exact addiw_succeeds
  | shiftw o rd rs1 shamt => exact shiftw_succeeds
  | op o rd rs1 rs2 => exact op_succeeds
  | opw o rd rs1 rs2 => exact iff_of_true opw_succeeds trivial
  | amo a width order rd rs2 rs1 => exact iff_of_true (succeeds_pure _) trivial
  | fencei => exact iff_of_true (succeeds_map.mpr (emitIType_succeeds.mpr rfl)) trivial
  | ecall => exact iff_of_true (succeeds_map.mpr (emitIType_succeeds.mpr rfl)) trivial
  | ebreak => exact iff_of_true ebreak_succeeds trivial
  | trap => exact iff_of_true (succeeds_ok _) trivial

end Arancini.Riscv.Asm
