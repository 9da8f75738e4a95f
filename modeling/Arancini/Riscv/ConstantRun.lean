import Arancini.Riscv.AssemblerAccepts
import Arancini.Riscv.CodeRun

/-!
# Constants on the processor

The instructions of `gen_constant` go through the assembler, compressed or not, and run on the
processor. The register has the number then, and nothing else is changed
(`genConstant_on_processor`).
-/

namespace Arancini.Riscv

namespace ConstInstr

/-- The instruction for the assembler, in one register. `li` is an `addi`. -/
def insn (r : Asm.Register) : ConstInstr → Asm.Insn
  | lui _ imm => .lui r imm.toInt
  | li _ imm => .opImm .addi r Asm.ZERO imm.toInt
  | addi _ _ imm => .opImm .addi r r imm.toInt
  | addiw _ _ imm => .addiw r r imm.toInt
  | slli _ _ shamt => .shift .slli r r shamt

/-- The only register is `reg`, and `lui` does not load zero. -/
def Within (reg : ℕ) : ConstInstr → Prop
  | lui rd imm => rd = reg ∧ imm ≠ 0
  | li rd _ => rd = reg
  | addi rd rs1 _ | addiw rd rs1 _ | slli rd rs1 _ => rd = reg ∧ rs1 = reg

end ConstInstr

theorem within_genConstant (reg : ℕ) (imm : BitVec 64) :
    ∀ i ∈ genConstant reg imm, i.Within reg := by
  fun_induction genConstant reg imm with
  | case1 imm himm =>
    have hlui (h : immLo32 imm - immLo12 imm ≠ 0) :
        (immLo32 imm - immLo12 imm).signExtend 64 ≠ 0 := by
      intro hzero
      have hwidth := congrArg (BitVec.setWidth 32) hzero
      rw [setWidth_signExtend (by decide)] at hwidth
      exact h (by simpa using hwidth)
    intro i hi
    rw [genConstant32] at hi
    split_ifs at hi with h hlo <;> simp only [List.mem_cons, List.not_mem_nil, or_false] at hi
    · rcases hi with rfl | rfl
      · exact ⟨rfl, hlui h⟩
      · exact ⟨rfl, rfl⟩
    · subst hi
      exact ⟨rfl, hlui h⟩
    · subst hi
      rfl
  | case2 imm himm ih =>
    intro i hi
    rcases List.mem_append.mp hi with hi | hi
    · rcases List.mem_append.mp hi with hi | hi
      · exact ih i hi
      · split_ifs at hi
        · obtain rfl := List.mem_singleton.mp hi
          exact ⟨rfl, rfl⟩
        · cases hi
    · split_ifs at hi
      · obtain rfl := List.mem_singleton.mp hi
        exact ⟨rfl, rfl⟩
      · cases hi

namespace Asm

variable {M : Type} {mem : MemOps M} {r : Register} {c : Cpu M} {reg : ℕ} {i : ConstInstr}

/-! ## One instruction -/

theorem fits_itype {imm : ℤ} (h : isITypeImm imm = true) : itypeImm.fits imm = true := by
  simp only [isITypeImm, Bool.and_eq_true, decide_eq_true_eq] at h
  exact ImmFormat.fits_iff.mpr ⟨one_dvd _, h.1, Int.lt_add_one_of_le h.2⟩

theorem eq_sext_of_itype {imm : BitVec 64} (h : isITypeImm imm.toInt = true) :
    sext 12 imm = imm := by
  simp only [isITypeImm, Bool.and_eq_true, decide_eq_true_eq] at h
  exact (sext_eq_self_iff (by decide) (by decide)).mpr
    ⟨h.1, Int.lt_add_one_of_le h.2⟩

theorem fits_utype {imm : ℤ} (h : isUTypeImm imm = true) : utypeImm.fits imm = true := by
  rw [isUTypeImm, Bool.and_eq_true] at h
  rw [ImmFormat.fits, Bool.and_eq_true]
  exact h

/-- `lui` has all of the number in its field. -/
theorem eq_sext_of_utype {imm : BitVec 64} (h : isUTypeImm imm.toInt = true) :
    sext 32 (imm >>> 12 <<< 12) = imm := by
  simp only [isUTypeImm, isInt, Bool.and_eq_true, decide_eq_true_eq, beq_iff_eq] at h
  have hlow : imm.setWidth 12 = 0 := by
    refine BitVec.eq_of_toNat_eq ?_
    have hnat : (imm.toNat : ℤ) % 2 ^ 12 = 0 := by
      have hmod := h.2
      rw [BitVec.toInt_eq_toNat_cond] at hmod
      split_ifs at hmod <;> omega
    rw [BitVec.toNat_setWidth]
    exact_mod_cast hnat
  rw [shiftLeft_ushiftRight_of_setWidth_eq_zero hlow]
  exact (sext_eq_self_iff (by decide) (by decide)).mpr h.1

theorem constInstr_accepted (hfits : i.fits = true) :
    ∃ p, (i.insn r).assemble true (i.insn r).reaches false = .ok p := by
  cases i with
  | lui rd imm => exact lui_succeeds.mpr (fits_utype hfits)
  | li rd imm =>
    exact show Succeeds (opImm true false .addi r ZERO imm.toInt) from
      opImm_succeeds.mpr (fits_itype hfits)
  | addi rd rs1 imm =>
    exact show Succeeds (opImm true false .addi r r imm.toInt) from
      opImm_succeeds.mpr (fits_itype hfits)
  | addiw rd rs1 imm => exact addiw_succeeds.mpr (fits_itype hfits)
  | slli rd rs1 shamt =>
    simp only [ConstInstr.fits, Bool.and_eq_true, decide_eq_true_eq] at hfits
    exact show Succeeds (shift true .slli r r (shamt : ℤ)) from
      shift_succeeds.mpr (by exact_mod_cast hfits)

theorem constInstr_encoded (hwithin : i.Within reg) : ¬(i.insn r).Unencoded true := by
  cases i with
  | lui rd imm =>
    rintro ⟨-, -, -, hzero⟩
    exact hwithin.2 (BitVec.eq_of_toInt_eq hzero)
  | _ => exact id

theorem exec_constInstr (hr : r ≠ ZERO) (hfits : i.fits = true) (hwithin : i.Within reg)
    (len : ℕ) : (i.insn r).exec mem len c =
      .next { c with
        regs := Function.update c.regs r (i.exec (fun _ => c.regs r) reg)
        pc := c.pc + len } := by
  have hget : c.get r = c.regs r := if_neg hr
  have hset (v : BitVec 64) : c.set r v = { c with regs := Function.update c.regs r v } := if_neg hr
  cases i with
  | lui rd imm =>
    obtain ⟨rfl, -⟩ := hwithin
    simp only [ConstInstr.insn, Insn.exec, Insn.exec.advance, hset, ConstInstr.exec,
      Function.update_self, BitVec.ofInt_toInt, eq_sext_of_utype hfits]
  | li rd imm =>
    obtain rfl : rd = reg := hwithin
    have hzero : c.get ZERO = 0 := if_pos rfl
    simp only [ConstInstr.insn, Insn.exec, Insn.exec.advance, hset, ConstInstr.exec,
      Function.update_self, BitVec.ofInt_toInt, eq_sext_of_itype hfits, ImmOp.value, hzero]
    rw [show (0 : BitVec 64) + imm = imm from BitVec.zero_add imm]
  | addi rd rs1 imm =>
    obtain ⟨rfl, rfl⟩ := hwithin
    simp only [ConstInstr.insn, Insn.exec, Insn.exec.advance, hset, ConstInstr.exec, hget,
      Function.update_self, BitVec.ofInt_toInt, eq_sext_of_itype hfits, ImmOp.value]
  | addiw rd rs1 imm =>
    obtain ⟨rfl, rfl⟩ := hwithin
    simp only [ConstInstr.insn, Insn.exec, Insn.exec.advance, hset, ConstInstr.exec, hget,
      Function.update_self, BitVec.ofInt_toInt, eq_sext_of_itype hfits]
    rfl
  | slli rd rs1 shamt =>
    obtain ⟨rfl, rfl⟩ := hwithin
    simp only [ConstInstr.fits, Bool.and_eq_true, decide_eq_true_eq] at hfits
    simp only [ConstInstr.insn, Insn.exec, Insn.exec.advance, hset, ConstInstr.exec, hget,
      Function.update_self, ShiftOp.value, Int.toNat_natCast, Riscv.slli,
      Nat.mod_eq_of_lt hfits.2]

/-! ## The sequence -/

/-- Only the register itself is read. -/
theorem execAll_congr {is : List ConstInstr} (his : ∀ i ∈ is, i.Within reg)
    {regs regs' : ℕ → BitVec 64} (h : regs reg = regs' reg) :
    execAll is regs reg = execAll is regs' reg := by
  induction is generalizing regs regs' with
  | nil => exact h
  | cons i is ih =>
    refine ih (fun i hi => his i (List.mem_cons_of_mem _ hi)) ?_
    have hi := his i List.mem_cons_self
    cases i with
    | lui rd imm =>
      obtain ⟨rfl, -⟩ := hi
      simp [ConstInstr.exec]
    | li rd imm =>
      obtain rfl : rd = reg := hi
      simp [ConstInstr.exec]
    | addi rd rs1 imm | addiw rd rs1 imm | slli rd rs1 shamt =>
      obtain ⟨rfl, rfl⟩ := hi
      simp [ConstInstr.exec, h]

/-- Instructions without labels are assembled one behind the other. -/
theorem assemble_insns {is : List Insn}
    (his : ∀ i ∈ is, ∃ p, i.assemble true i.reaches false = .ok p)
    (s : State) : ∃ ps, List.Forall₂ (fun i p => i.assemble true i.reaches false = .ok p) is ps ∧
      (is.map (Item.insn · false)).foldlM (Item.emit true) s =
        .ok ⟨s.code ++ ps.flatMap Parcel.halfwords, s.labels⟩ := by
  induction is generalizing s with
  | nil => exact ⟨[], .nil, by simp [pure, Except.pure]⟩
  | cons i is ih =>
    obtain ⟨p, hp⟩ := his i List.mem_cons_self
    obtain ⟨ps, hps, hrun⟩ := ih (fun i hi => his i (List.mem_cons_of_mem _ hi)) (s.emit p)
    have hemit : (Item.insn i false).emit true s = .ok (s.emit p) := by
      rw [Item.emit, hp]
      rfl
    refine ⟨p :: ps, .cons hp hps, ?_⟩
    rw [List.map_cons, List.foldlM_cons, hemit, ok_bind, hrun]
    simp [State.emit]

/-- The run through instructions for a constant. -/
theorem visits_constant (mem : MemOps M) {is : List ConstInstr} {code : List (BitVec 16)}
    {base : BitVec 64} (before ps : List Parcel) (hr : r ≠ ZERO)
    (his : ∀ i ∈ is, i.fits = true ∧ i.Within reg)
    (hps : List.Forall₂ (fun i p => i.assemble true i.reaches false = .ok p)
      (is.map (ConstInstr.insn r)) ps)
    (hcode : code = (before ++ ps).flatMap Parcel.halfwords) (hsize : 2 * code.length < 2 ^ 31)
    (hpc : c.pc = base + BitVec.ofNat 64 (size before)) :
    (processor mem code base).Visits c { c with
      regs := Function.update c.regs r (execAll is (fun _ => c.regs r) reg)
      pc := base + BitVec.ofNat 64 (size before + size ps) } := by
  induction is generalizing before c ps with
  | nil =>
    obtain rfl := List.forall₂_nil_left_iff.mp hps
    rw [execAll_nil, Function.update_eq_self, show size [] = 0 from rfl, Nat.add_zero, ← hpc]
    exact .refl c
  | cons i is ih =>
    obtain ⟨p, ps, hp, hrest, rfl⟩ := List.forall₂_cons_left_iff.mp hps
    obtain ⟨hfits, hwithin⟩ := his i List.mem_cons_self
    have hencoded : ¬(i.insn r).Unencoded true := constInstr_encoded hwithin
    have hstep := processor_step mem before ps hcode hsize (insn_tagged hp hencoded)
      (Insn.means_of_encoded hp hencoded) hpc
    rw [exec_constInstr hr hfits hwithin] at hstep
    have hlen : size (before ++ [p]) = size before + p.length := by simp [size]
    have hvisits := ih (c := { c with
        regs := Function.update c.regs r (i.exec (fun _ => c.regs r) reg)
        pc := c.pc + p.length }) (before ++ [p]) ps
      (fun i hi => his i (List.mem_cons_of_mem _ hi)) hrest (by simpa using hcode) (by
        rw [hlen, hpc, BitVec.ofNat_add, BitVec.add_assoc]
        rfl)
    have hcons : size (p :: ps) = p.length + size ps := rfl
    rw [hlen, Nat.add_assoc, ← hcons] at hvisits
    simp only [Function.update_self, Function.update_idem] at hvisits
    have hsame : execAll is (i.exec fun _ => c.regs r) reg =
        execAll is (fun _ => i.exec (fun _ => c.regs r) reg) reg :=
      execAll_congr (fun i hi => (his i (List.mem_cons_of_mem _ hi)).2) rfl
    rw [execAll_cons, hsame]
    exact .move hstep hvisits

theorem size_le (ps : List Parcel) : size ps ≤ 4 * ps.length := by
  induction ps with
  | nil => exact le_rfl
  | cons p ps ih =>
    have hp : p.length ≤ 4 := by cases p <;> simp [Parcel.length]
    rw [size, List.map_cons, List.sum_cons, ← size, List.length_cons]
    omega

/-- A number that `gen_constant` puts into a register is there after at most 32 bytes of code, and
nothing else is changed. -/
theorem genConstant_on_processor (reg : ℕ) (imm : BitVec 64) (r : Register) (hr : r ≠ ZERO) :
    ∃ s, assemble true ((genConstant reg imm).map fun i => .insn (i.insn r) false) = .ok s ∧
      s.position ≤ 32 ∧ ∀ (M : Type) (mem : MemOps M) (c : Cpu M),
        (processor mem s.code c.pc).Visits c { c with
          regs := Function.update c.regs r imm
          pc := c.pc + BitVec.ofNat 64 s.position } := by
  have hall (i : ConstInstr) (hi : i ∈ genConstant reg imm) : i.fits = true ∧ i.Within reg :=
    ⟨fits_genConstant reg imm i hi, within_genConstant reg imm i hi⟩
  have haccepted : ∀ i ∈ (genConstant reg imm).map (ConstInstr.insn r),
      ∃ p, i.assemble true i.reaches false = .ok p := by
    intro i hi
    obtain ⟨j, hj, rfl⟩ := List.mem_map.mp hi
    exact constInstr_accepted (hall j hj).1
  obtain ⟨ps, hps, hrun⟩ := assemble_insns haccepted .empty
  have hlength : ps.length ≤ 8 := by
    rw [← hps.length_eq, List.length_map]
    refine length_genConstant_le (n := 3) reg ?_
    have hl := BitVec.le_toInt imm
    have hu := BitVec.toInt_lt (x := imm)
    omega
  have hposition : 2 * (ps.flatMap Parcel.halfwords).length ≤ 32 := by
    rw [← size_eq]
    exact (size_le ps).trans (by omega)
  have hassemble : assemble true ((genConstant reg imm).map fun i => .insn (i.insn r) false) =
      .ok ⟨ps.flatMap Parcel.halfwords, fun _ => 0⟩ := by
    rw [List.map_map] at hrun
    exact hrun
  refine ⟨_, hassemble, hposition, fun M mem c => ?_⟩
  have hpc : c.pc = c.pc + BitVec.ofNat 64 (size []) := (BitVec.add_zero c.pc).symm
  have hvisits := visits_constant mem [] ps hr hall hps rfl (lt_of_le_of_lt hposition (by decide))
    hpc
  rwa [execAll_genConstant, Function.update_self, show size [] = 0 from rfl, Nat.zero_add,
    size_eq] at hvisits

/-- A number of which no part is a short immediate, in `a0`. -/
theorem genConstant_on_processor_a0 :
    ∃ s, assemble true ((genConstant 0 0x123456789abcdef0).map
        fun i => .insn (i.insn 10) false) = .ok s ∧
      s.position ≤ 32 ∧ ∀ (M : Type) (mem : MemOps M) (c : Cpu M),
        (processor mem s.code c.pc).Visits c { c with
          regs := Function.update c.regs 10 0x123456789abcdef0
          pc := c.pc + BitVec.ofNat 64 s.position } :=
  genConstant_on_processor 0 0x123456789abcdef0 10 (by decide)

end Asm

end Arancini.Riscv
