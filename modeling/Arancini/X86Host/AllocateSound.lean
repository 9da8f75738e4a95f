import Arancini.X86Host.Allocate

/-!
# Soundness of the x86 register allocation

A state of the code before allocation and one of the code after it are related (`Rel`) when memory,
the flags and the reserved registers are equal, and each live virtual register agrees with its
physical one on its width. A kept instruction, a dropped one and a `MOV` of a register to itself
keep that (`rel_of_kept`, `rel_of_dropped`, `rel_of_movesToSelf`), so allocated code does what the
code did.
-/

namespace Arancini.X86Host

open Ir RegAlloc

/-! ## Values of a width -/

/-- The register contents agree, for a virtual register of width `w`. A write of a double word
clears the upper half, so one of 32 bits is equal to its physical one and below `2 ^ 32`. -/
def Agree (w : ℕ) (a b : BitVec 64) : Prop :=
  if 32 ≤ w then a = b ∧ (w = 32 → a.toNat < 2 ^ 32) else a.toNat % 2 ^ w = b.toNat % 2 ^ w

theorem Agree.eq {w : ℕ} {a b : BitVec 64} (h : Agree w a b) (hw : 32 ≤ w) : a = b := by
  rw [Agree, if_pos hw] at h
  exact h.1

theorem Agree.mod {w : ℕ} {a b : BitVec 64} (h : Agree w a b) :
    a.toNat % 2 ^ w = b.toNat % 2 ^ w := by
  by_cases hw : 32 ≤ w
  · rw [h.eq hw]
  · rwa [Agree, if_neg hw] at h

/-- The low bits of a register that was written in part. -/
theorem toNat_merge_mod {w : ℕ} (hw : ¬32 ≤ w) (old : BitVec 64) (v : ℕ) :
    (merge w old v).toNat % 2 ^ w = v % 2 ^ w := by
  rw [merge, if_neg hw, BitVec.toNat_ofNat]
  have hdvd : 2 ^ w ∣ 2 ^ 64 := Nat.pow_dvd_pow 2 (by omega)
  rw [Nat.mod_mod_of_dvd _ hdvd]
  have hsub : old.toNat - old.toNat % 2 ^ w = 2 ^ w * (old.toNat / 2 ^ w) := by
    have := Nat.div_add_mod old.toNat (2 ^ w)
    omega
  rw [hsub, Nat.mul_add_mod, Nat.mod_mod]

/-- A write of the width of a virtual register, or of a double word to one of 64 bits. -/
theorem agree_merge {w wd : ℕ} (hw : w = wd ∨ w = 32 ∧ wd = 64) (a b : BitVec 64) (v : ℕ) :
    Agree wd (merge w a v) (merge w b v) := by
  unfold Agree
  split
  · next hwd =>
    have hw32 : 32 ≤ w := by omega
    refine ⟨by simp [merge, hw32], fun h32 => ?_⟩
    obtain rfl : w = 32 := by omega
    rw [merge, if_pos le_rfl, BitVec.toNat_ofNat]
    exact (Nat.mod_le ..).trans_lt (Nat.mod_lt _ (by decide))
  · next hwd =>
    obtain rfl : w = wd := by omega
    rw [toNat_merge_mod hwd, toNat_merge_mod hwd]

/-- To write what a register of the same width agrees with changes nothing. -/
theorem agree_merge_self {w wd : ℕ} (hw : w = wd ∨ w = 32 ∧ wd = 64) (hle : w ≤ 32 ∨ w = 64)
    {a b : BitVec 64} (h : Agree w a b) (old : BitVec 64) :
    Agree wd (merge w old (a.toNat % 2 ^ w)) b := by
  by_cases hw32 : 32 ≤ w
  · obtain rfl := h.eq hw32
    have hlt : a.toNat < 2 ^ w := by
      rcases hle with hle | rfl
      · obtain rfl : w = 32 := by omega
        rw [Agree, if_pos hw32] at h
        exact h.2 rfl
      · exact a.isLt
    have hmerge : merge w old (a.toNat % 2 ^ w) = a := by
      rw [merge, if_pos hw32, Nat.mod_mod, Nat.mod_eq_of_lt hlt, BitVec.ofNat_toNat,
        BitVec.setWidth_eq]
    rw [hmerge, Agree, if_pos (by omega)]
    exact ⟨rfl, fun h32 => by rw [show w = 32 by omega] at hlt; exact hlt⟩
  · obtain rfl : w = wd := by omega
    rw [Agree, if_neg hw32, toNat_merge_mod hw32, Nat.mod_mod]
    exact h.mod

/-! ## Related states -/

theorem assign_injective : Function.Injective assign := by
  decide

/-- Memory, the flags and the reserved registers are equal, and the live virtual registers agree
with their registers. -/
structure Rel (wd : ℕ → ℕ) (T : Alloc) (live : Set ℕ) (s t : State) : Prop where
  mem : s.mem = t.mem
  flags : s.flags = t.flags
  reserved : ∀ r, Reserved r → s.regs (.preg r) = t.regs (.preg r)
  agree : ∀ v ∈ live, ∀ p, T.map v = some p →
    Agree (wd v) (s.regs (.vreg v)) (t.regs (.preg (assign p)))

variable {cpu : Cpu} {wd : ℕ → ℕ} {T : Alloc} {live : Set ℕ} {s t : State}

theorem renamed_of_defReg {o : Operand} {v : ℕ} {p : Fin 6} (h : o.defReg = some v)
    (hp : T.map v = some p) : o.renamed T = o.on p := by
  simp [Operand.renamed, h, hp]

theorem renamed_of_useReg {o : Operand} {v : ℕ} {p : Fin 6} (hd : o.defReg = none)
    (hu : o.useReg = some v) (hp : T.map v = some p) : o.renamed T = o.on p := by
  simp [Operand.renamed, hd, hu, hp]

theorem renamed_of_none {o : Operand} (hd : o.defReg = none) (hu : o.useReg = none) :
    o.renamed T = o := by
  simp [Operand.renamed, hd, hu]

/-- Memory operands on related states have one address. -/
theorem address_on {d : ℕ} {gs : Bool} {v : ℕ} {p : Fin 6} (h : Rel wd T live s t) (hv : v ∈ live)
    (hp : T.map v = some p) (hw : 32 ≤ wd v) :
    MemoryOperand.address cpu ⟨.vreg v, d, gs⟩ s =
      MemoryOperand.address cpu ⟨.preg (assign p), d, gs⟩ t := by
  simp only [MemoryOperand.address, (h.agree v hv p hp).eq hw]

theorem address_reserved {d : ℕ} {gs : Bool} {r : RegName} (h : Rel wd T live s t)
    (hr : Reserved r) :
    MemoryOperand.address cpu ⟨.preg r, d, gs⟩ s =
      MemoryOperand.address cpu ⟨.preg r, d, gs⟩ t := by
  simp only [MemoryOperand.address, h.reserved r hr]

/-- An operand reads the same on related states. -/
theorem read_renamed {o : Operand} {w : ℕ} (h : Rel wd T live s t)
    (hused : ∀ v, o.useReg = some v → v ∈ live) (hplaced : ∀ v, o.useReg = some v → T.map v ≠ none)
    (hdef : o.defReg = none)
    (hfits : match o.kind with
      | .reg (.vreg v) => o.use = true ∧ w = wd v
      | .reg (.preg r) => Reserved r
      | .mem ⟨.vreg v, _, _⟩ => 32 ≤ wd v
      | .mem ⟨.preg r, _, _⟩ => Reserved r
      | .imm _ => True) :
    o.kind.read cpu w s = (o.renamed T).kind.read cpu w t := by
  obtain ⟨kind, width, use, defn⟩ := o
  rcases kind with (r | v) | ⟨r | v, d, gs⟩ | v
  · rw [renamed_of_none hdef rfl]
    simp only [OperandKind.read, h.reserved r hfits]
  · obtain ⟨huse, rfl⟩ := hfits
    obtain rfl : use = true := huse
    have hu : Operand.useReg ⟨.reg (.vreg v), width, true, defn⟩ = some v := rfl
    obtain ⟨p, hp⟩ := Option.ne_none_iff_exists'.1 (hplaced v hu)
    rw [renamed_of_useReg hdef hu hp]
    exact (h.agree v (hused v hu) p hp).mod
  · rw [renamed_of_none hdef rfl]
    simp only [OperandKind.read, h.mem, address_reserved h hfits]
  · have hu : Operand.useReg ⟨.mem ⟨.vreg v, d, gs⟩, width, use, defn⟩ = some v := rfl
    obtain ⟨p, hp⟩ := Option.ne_none_iff_exists'.1 (hplaced v hu)
    rw [renamed_of_useReg hdef hu hp]
    simp only [Operand.on, OperandKind.read, h.mem, address_on h (hused v hu) hp hfits]
  · rw [renamed_of_none hdef rfl]
    rfl

theorem Rel.setFlags (h : Rel wd T live s t) (f : Flags) :
    Rel wd T live { s with flags := f } { t with flags := f } :=
  ⟨h.mem, rfl, h.reserved, h.agree⟩

theorem Rel.mono {T' : Alloc} {live' : Set ℕ} (h : Rel wd T' live' s t) (hsub : live ⊆ live')
    (hgrows : Extends T T') : Rel wd T live s t :=
  ⟨h.mem, h.flags, h.reserved, fun v hv p hp => h.agree v (hsub hv) p (hgrows v p hp)⟩

/-- A reserved register is written on both sides. -/
theorem Rel.writeReserved (h : Rel wd T live s t) {r : RegName} (hr : Reserved r) (w x : ℕ) :
    Rel wd T live { s with regs := Function.update s.regs (.preg r) (merge w (s.regs (.preg r)) x) }
      { t with regs := Function.update t.regs (.preg r) (merge w (t.regs (.preg r)) x) } := by
  refine ⟨h.mem, h.flags, fun r' hr' => ?_, fun v hv p hp => ?_⟩
  · by_cases hrr : r' = r
    · subst hrr
      simp only [Function.update_self, h.reserved r' hr']
    · have hne : Reg.preg r' ≠ .preg r := fun he => hrr (Reg.preg.inj he)
      simp only [Function.update_of_ne hne, h.reserved r' hr']
  · have hne : Reg.preg (assign p) ≠ .preg r := fun he => hr p (Reg.preg.inj he)
    have hv' : Reg.vreg v ≠ .preg r := nofun
    simp only [Function.update_of_ne hne, Function.update_of_ne hv']
    exact h.agree v hv p hp

/-- A virtual register is written on the one side, and its register on the other. -/
theorem Rel.writeVreg {T' : Alloc} {live' : Set ℕ} (h : Rel wd T' live' s t) {u : ℕ} {p : Fin 6}
    (hp : T'.map u = some p) (hgrows : Extends T T') (hsub : live \ {u} ⊆ live')
    (hothers : ∀ v ∈ live, v ≠ u → T'.map v ≠ some p) {a b : BitVec 64} (hab : Agree (wd u) a b) :
    Rel wd T live { s with regs := Function.update s.regs (.vreg u) a }
      { t with regs := Function.update t.regs (.preg (assign p)) b } := by
  refine ⟨h.mem, h.flags, fun r hr => ?_, fun v hv q hq => ?_⟩
  · have hne : Reg.preg r ≠ .preg (assign p) := fun he => hr p (Reg.preg.inj he).symm
    have hu : Reg.preg r ≠ .vreg u := nofun
    simp only [Function.update_of_ne hne, Function.update_of_ne hu]
    exact h.reserved r hr
  · have hq' := hgrows v q hq
    by_cases hvu : v = u
    · subst hvu
      obtain rfl := Option.some.inj (hq'.symm.trans hp)
      simpa only [Function.update_self] using hab
    · have hne : Reg.preg (assign q) ≠ .preg (assign p) := fun he =>
        hothers v hv hvu (assign_injective (Reg.preg.inj he) ▸ hq')
      have hv' : Reg.vreg v ≠ .vreg u := fun he => hvu (Reg.vreg.inj he)
      simp only [Function.update_of_ne hne, Function.update_of_ne hv']
      exact h.agree v (hsub ⟨hv, hvu⟩) q hq'

/-- A virtual register is written, and its register already holds that. -/
theorem Rel.writeLeft {T' : Alloc} {live' : Set ℕ} (h : Rel wd T' live' s t) {u : ℕ}
    (hgrows : Extends T T') (hsub : live \ {u} ⊆ live') {a : BitVec 64}
    (hu : u ∈ live → ∀ p, T'.map u = some p → Agree (wd u) a (t.regs (.preg (assign p)))) :
    Rel wd T live { s with regs := Function.update s.regs (.vreg u) a } t := by
  refine ⟨h.mem, h.flags, fun r hr => ?_, fun v hv p hp => ?_⟩
  · have hr' : Reg.preg r ≠ .vreg u := nofun
    simpa only [Function.update_of_ne hr'] using h.reserved r hr
  · have hp' := hgrows v p hp
    by_cases hvu : v = u
    · subst hvu
      simpa only [Function.update_self] using hu hv p hp'
    · have hv' : Reg.vreg v ≠ .vreg u := fun he => hvu (Reg.vreg.inj he)
      simpa only [Function.update_of_ne hv'] using h.agree v (hsub ⟨hv, hvu⟩) p hp'

theorem Rel.writeMem (h : Rel wd T live s t) {a b : ℕ} (hab : a = b) (x n : ℕ) :
    Rel wd T live { s with mem := Guest.store s.mem a x n }
      { t with mem := Guest.store t.mem b x n } := by
  subst hab
  exact ⟨by simp only [h.mem], h.flags, h.reserved, h.agree⟩

/-! ## One instruction -/

section Step

variable {i i' : Instruction} {code : List Instruction} {T' : Alloc}

theorem Kept.uses_live (h : Kept i i' code T T') : uses i ⊆ Live uses defs (i :: code) :=
  fun _ hv => .inr ⟨h.defs_live, hv⟩

theorem live_diff_subset : Live uses defs code \ defs i ⊆ Live uses defs (i :: code) :=
  fun _ hv => .inl hv

variable (cpu) in
/-- The write of the first operand. -/
theorem Kept.rel_write (hkept : Kept i i' code T T') (hholds : T.Holds (Live uses defs code))
    (hholds' : T'.Holds (Live uses defs (i :: code))) {d : Operand} {rest : List Operand}
    (hops : i.operands = d :: rest) (hrest : ∀ o ∈ rest, o.defReg = none)
    (hd : FitsDst wd i.opcode d) (h : Rel wd T' (Live uses defs (i :: code)) s t) (x : ℕ) :
    Rel wd T (Live uses defs code) (d.kind.write cpu i.opcode.dstWidth x s)
      ((d.renamed T').kind.write cpu i.opcode.dstWidth x t) := by
  have hdefs := defs_of_operands hops hrest
  have hsub : Live uses defs code \ defs i ⊆ Live uses defs (i :: code) := live_diff_subset
  have hused : ∀ v, d.useReg = some v → v ∈ uses i := fun v hv =>
    ⟨d, hops ▸ List.mem_cons_self, hv⟩
  obtain ⟨kind, width, use, defn⟩ := d
  obtain ⟨rfl, hfits⟩ := hd
  rcases kind with (r | u) | ⟨r | u, dis, gs⟩ | v
  · rw [hdefs] at hsub
    rw [renamed_of_none rfl rfl]
    exact (h.mono (fun v hv => hsub ⟨hv, nofun⟩) hkept.grows).writeReserved hfits _ _
  · obtain ⟨huse, hwidth⟩ := hfits
    obtain rfl : use = i.opcode.readsDst := huse
    have hw : i.opcode.dstWidth = wd u ∨ i.opcode.dstWidth = 32 ∧ wd u = 64 :=
      hwidth.imp_right fun hw => ⟨hw.1, hw.2.1⟩
    cases hreads : i.opcode.readsDst with
    | false =>
      rw [hreads] at hdefs
      have hdef : Operand.defReg ⟨.reg (.vreg u), width, false, true⟩ = some u := rfl
      have hlive : u ∈ Live uses defs code := hkept.defs_live (hdefs ▸ hdef)
      obtain ⟨p, hp, -⟩ := hholds.taken u hlive
      rw [renamed_of_defReg hdef (hkept.grows u p hp)]
      refine h.writeVreg (hkept.grows u p hp) hkept.grows ?_ ?_ (agree_merge hw _ _ _)
      · rintro v ⟨hv, hvu⟩
        refine hsub ⟨hv, fun hvd => hvu ?_⟩
        rw [hdefs] at hvd
        exact (Option.some.inj hvd).symm
      · intro v hv hvu hvp
        obtain ⟨q, hq, -⟩ := hholds.taken v hv
        obtain rfl := Option.some.inj ((hkept.grows v q hq).symm.trans hvp)
        exact hvu (hholds.injOn hv hlive (hq.trans hp.symm))
    | true =>
      rw [hreads] at hdefs hused
      have huse : Operand.useReg ⟨.reg (.vreg u), width, true, true⟩ = some u := rfl
      have hlive := hkept.uses_live (hused u huse)
      obtain ⟨p, hp⟩ := Option.ne_none_iff_exists'.1 (hkept.uses_placed u (hused u huse))
      have hsub' : Live uses defs code ⊆ Live uses defs (i :: code) := fun v hv =>
        hsub ⟨hv, hdefs ▸ nofun⟩
      rw [renamed_of_useReg rfl huse hp]
      refine h.writeVreg hp hkept.grows (Set.sdiff_subset.trans hsub') ?_ (agree_merge hw _ _ _)
      intro v hv hvu hvp
      exact hvu (hholds'.injOn (hsub' hv) hlive (hvp.trans hp.symm))
  · rw [hdefs] at hsub
    rw [renamed_of_none rfl rfl]
    exact (h.mono (fun v hv => hsub ⟨hv, nofun⟩) hkept.grows).writeMem
      (address_reserved h hfits) _ _
  · rw [hdefs] at hsub
    have huse : Operand.useReg ⟨.mem ⟨.vreg u, dis, gs⟩, width, use, true⟩ = some u := rfl
    obtain ⟨p, hp⟩ := Option.ne_none_iff_exists'.1 (hkept.uses_placed u (hused u huse))
    rw [renamed_of_useReg rfl huse hp]
    exact (h.mono (fun v hv => hsub ⟨hv, nofun⟩) hkept.grows).writeMem
      (address_on h (hkept.uses_live (hused u huse)) hp hfits) _ _
  · exact hfits.elim

/-- The operand that is read first is the same on related states. -/
theorem Kept.read_dst (hkept : Kept i i' code T T') {d : Operand} {rest : List Operand}
    (hops : i.operands = d :: rest) (hd : FitsDst wd i.opcode d)
    (h : Rel wd T' (Live uses defs (i :: code)) s t) (hreads : i.opcode.readsDst = true) :
    d.kind.read cpu i.opcode.dstWidth s = (d.renamed T').kind.read cpu i.opcode.dstWidth t := by
  have hused : ∀ v, d.useReg = some v → v ∈ uses i := fun v hv =>
    ⟨d, hops ▸ List.mem_cons_self, hv⟩
  obtain ⟨kind, width, use, defn⟩ := d
  obtain ⟨rfl, hfits⟩ := hd
  refine read_renamed h (fun v hv => hkept.uses_live (hused v hv))
    (fun v hv => hkept.uses_placed v (hused v hv)) ?_ ?_
  · rcases kind with (r | v) | m | v
    · rfl
    · obtain rfl : use = true := hfits.1.trans hreads
      rfl
    · rfl
    · rfl
  · rcases kind with (r | v) | ⟨r | v, dis, gs⟩ | v
    · exact hfits
    · refine ⟨hfits.1.trans hreads, hfits.2.resolve_right fun hnot => ?_⟩
      rw [hreads] at hnot
      exact absurd hnot.2.2 (by decide)
    · exact hfits
    · exact hfits
    · exact hfits.elim

/-- So is the other. -/
theorem Kept.read_src (hkept : Kept i i' code T T') {d a : Operand}
    (hops : i.operands = [d, a]) (ha : FitsSrc wd i.opcode a)
    (h : Rel wd T' (Live uses defs (i :: code)) s t) :
    a.kind.read cpu i.opcode.srcWidth s = (a.renamed T').kind.read cpu i.opcode.srcWidth t := by
  have hused : ∀ v, a.useReg = some v → v ∈ uses i := fun v hv => ⟨a, by simp [hops], hv⟩
  refine read_renamed h (fun v hv => hkept.uses_live (hused v hv))
    (fun v hv => hkept.uses_placed v (hused v hv)) (defReg_of_fitsSrc ha) ?_
  obtain ⟨kind, width, use, defn⟩ := a
  obtain ⟨huse, -, hfits⟩ := ha
  rcases kind with (r | v) | ⟨r | v, dis, gs⟩ | v
  · exact hfits.elim
  · exact ⟨huse, hfits⟩
  · exact hfits
  · exact hfits
  · trivial

/-- A kept instruction does on registers what the instruction did. -/
theorem rel_of_kept (hfits : Fits wd i) (hkept : Kept i i' code T T')
    (hholds : T.Holds (Live uses defs code)) (hholds' : T'.Holds (Live uses defs (i :: code)))
    (h : Rel wd T' (Live uses defs (i :: code)) s t) :
    Rel wd T (Live uses defs code) (exec cpu i s) (exec cpu i' t) := by
  obtain ⟨-, -, -, d, rest, hops, hd, hrest⟩ := hfits
  have hrestDef := Fits.rest_defReg hrest
  have hdst : (if i.opcode.readsDst then d.kind.read cpu i.opcode.dstWidth s else 0) =
      if i.opcode.readsDst then (d.renamed T').kind.read cpu i.opcode.dstWidth t else 0 := by
    split
    · next hreads => exact hkept.read_dst hops hd h hreads
    · rfl
  have hwrite := fun f x => hkept.rel_write cpu hholds hholds' hops hrestDef hd
    (h.setFlags f) x
  unfold exec
  rw [hkept.operands, hkept.opcode, hops, List.map_cons]
  rcases hrest with rfl | ⟨a, rfl, ha⟩
  · simp only [List.map_nil, hdst, h.flags]
    exact hwrite _ _
  · simp only [List.map_cons, hdst, hkept.read_src hops ha h, h.flags]
    exact hwrite _ _

/-- An opcode that does not read its first operand leaves the flags. -/
theorem eval_flags {op : Opcode} (h : op.readsDst = false) (x y : ℕ) (f : Flags) :
    (op.eval cpu x y f).2 = f := by
  rcases op with ⟨m, w, dst, src⟩ | _ | _ | _ | _
  · cases m <;> first | rfl | cases h
  all_goals rfl

variable (cpu) in
/-- An instruction that only defines a virtual register does nothing else. -/
theorem exec_of_defs (hfits : Fits wd i) {v : ℕ} (hdef : v ∈ defs i) (s : State) :
    ∃ x, exec cpu i s = { s with regs := Function.update s.regs (.vreg v) x } := by
  obtain ⟨-, -, -, d, rest, hops, ⟨hdefn, hd⟩, hrest⟩ := hfits
  rw [defs_of_operands hops (Fits.rest_defReg hrest)] at hdef
  obtain ⟨kind, width, use, defn⟩ := d
  obtain rfl : defn = true := hdefn
  rcases kind with (r | u) | m | x
  · cases hdef
  · obtain rfl : use = i.opcode.readsDst := hd.1
    have hreads : i.opcode.readsDst = false := by
      by_contra hreads
      simp [Operand.defReg, hreads] at hdef
    obtain rfl : v = u := by simpa [Operand.defReg, hreads] using hdef
    unfold exec
    rw [hops]
    simp only [OperandKind.write, eval_flags hreads]
    exact ⟨_, rfl⟩
  · cases hdef
  · cases hdef

/-- A dropped instruction changes no live virtual register, and nothing else. -/
theorem rel_of_dropped (hfits : Fits wd i) (hdropped : Dropped i i' code T T')
    (h : Rel wd T' (Live uses defs (i :: code)) s t) :
    Rel wd T (Live uses defs code) (exec cpu i s) t := by
  obtain ⟨-, -, rfl, v, hdefs, hunused⟩ := hdropped
  obtain ⟨x, hx⟩ := exec_of_defs cpu hfits (hdefs ▸ Set.mem_singleton v) s
  rw [hx]
  refine h.writeLeft (fun _ _ hp => hp) ?_ fun hv => absurd hv hunused
  rintro u ⟨hu, huv⟩
  exact live_diff_subset ⟨hu, hdefs ▸ huv⟩

/-- A source that turns out to be a register is a virtual one. -/
theorem FitsSrc.vreg_of_renamed {op : Opcode} {a : Operand} (ha : FitsSrc wd op a)
    (hplaced : ∀ v, a.useReg = some v → T.map v ≠ none) {r : RegName}
    (h : (a.renamed T).kind = .reg (.preg r)) :
    ∃ v p, a.kind = .reg (.vreg v) ∧ a.useReg = some v ∧ T.map v = some p ∧ r = assign p ∧
      op.srcWidth = wd v := by
  obtain ⟨kind, width, use, defn⟩ := a
  obtain ⟨rfl, rfl, hfits⟩ := ha
  rcases kind with (r' | v) | ⟨r' | v, dis, gs⟩ | x
  · exact hfits.elim
  · obtain ⟨p, hp⟩ := Option.ne_none_iff_exists'.1 (hplaced v rfl)
    rw [renamed_of_useReg rfl rfl hp] at h
    exact ⟨v, p, rfl, rfl, hp, (Reg.preg.inj (OperandKind.reg.inj h)).symm, hfits⟩
  · cases h
  · obtain ⟨p, hp⟩ := Option.ne_none_iff_exists'.1 (hplaced v rfl)
    rw [renamed_of_useReg rfl rfl hp] at h
    cases h
  · cases h

/-- A destination that is not read and turns out to be a register is reserved or a virtual one. -/
theorem FitsDst.vreg_of_renamed {op : Opcode} {d : Operand} (hd : FitsDst wd op d)
    (hreads : op.readsDst = false) (hplaced : ∀ v, d.defReg = some v → T.map v ≠ none)
    {p : Fin 6} (h : (d.renamed T).kind = .reg (.preg (assign p))) :
    ∃ v, d.kind = .reg (.vreg v) ∧ d.defReg = some v ∧ T.map v = some p ∧
      (op.dstWidth = wd v ∨ op.dstWidth = 32 ∧ wd v = 64) := by
  obtain ⟨kind, width, use, defn⟩ := d
  obtain ⟨rfl, hfits⟩ := hd
  rcases kind with (r | v) | ⟨r | v, dis, gs⟩ | x
  · exact absurd (Reg.preg.inj (OperandKind.reg.inj h)).symm (hfits p)
  · obtain rfl : use = false := hfits.1.trans hreads
    obtain ⟨q, hq⟩ := Option.ne_none_iff_exists'.1 (hplaced v rfl)
    rw [renamed_of_defReg rfl hq] at h
    obtain rfl := assign_injective (Reg.preg.inj (OperandKind.reg.inj h))
    exact ⟨v, rfl, rfl, hq, hfits.2.imp_right fun hw => ⟨hw.1, hw.2.1⟩⟩
  · cases h
  · cases hmap : T.map v <;> simp [Operand.renamed, Operand.defReg, Operand.useReg, Operand.on,
      hmap] at h
  · cases h

/-- A `MOV` between two virtual registers of one register copies what that register holds. -/
theorem rel_of_movesToSelf (hfits : Fits wd i) (hkept : Kept i i' code T T')
    (hholds : T.Holds (Live uses defs code)) (hself : i'.movesToSelf = true)
    (h : Rel wd T' (Live uses defs (i :: code)) s t) :
    Rel wd T (Live uses defs code) (exec cpu i s) t := by
  obtain ⟨-, -, hwidth, d, rest, hops, hd, hrest⟩ := hfits
  unfold Instruction.movesToSelf at hself
  split at hself
  · next opcode operands w r wd₁ u₁ d₁ r' wd₂ u₂ d₂ hopcode hoperands =>
    obtain rfl : r = r' := of_decide_eq_true hself
    rw [hkept.opcode] at hopcode
    rw [hkept.operands, hops] at hoperands
    obtain ⟨a, rfl, ha⟩ := hrest.resolve_left fun hnil => by simp [hnil] at hoperands
    obtain ⟨hdr, har⟩ : d.renamed T' = ⟨.reg (.preg r), wd₁, u₁, d₁⟩ ∧
        a.renamed T' = ⟨.reg (.preg r), wd₂, u₂, d₂⟩ := by simpa using hoperands
    have hreads : i.opcode.readsDst = false := by rw [hopcode]; rfl
    have hdefs := defs_of_operands hops (Fits.rest_defReg (.inr ⟨a, rfl, ha⟩))
    have hdefined : ∀ v, d.defReg = some v → v ∈ defs i := fun v hv => by rwa [hdefs]
    have hused : ∀ v, a.useReg = some v → v ∈ uses i := fun v hv => ⟨a, by simp [hops], hv⟩
    have hmapped : ∀ v ∈ defs i, ∃ p, T'.map v = some p := fun v hv => by
      obtain ⟨p, hp, -⟩ := hholds.taken v (hkept.defs_live hv)
      exact ⟨p, hkept.grows v p hp⟩
    obtain ⟨u, p, hakind, hu, hp, rfl, hwu⟩ := ha.vreg_of_renamed
      (fun v hv => hkept.uses_placed v (hused v hv)) (congrArg Operand.kind har)
    obtain ⟨v, hdkind, hv, hq, hwv⟩ := hd.vreg_of_renamed hreads
      (fun v hv => by obtain ⟨p, hp⟩ := hmapped v (hdefined v hv); simp [hp])
      (congrArg Operand.kind hdr)
    have hexec : exec cpu i s = { s with
        regs := Function.update s.regs (.vreg v)
          (merge w (s.regs (.vreg v)) ((s.regs (.vreg u)).toNat % 2 ^ w)) } := by
      unfold exec
      rw [hops, hopcode]
      simp only [hakind, hdkind, OperandKind.read, OperandKind.write, Opcode.eval, Opcode.srcWidth,
        Opcode.dstWidth]
    rw [hexec]
    rw [hopcode] at hwu hwv hwidth
    have hle : w ≤ 32 ∨ w = 64 := by
      simp only [Opcode.dstWidth, List.mem_cons, List.not_mem_nil, or_false] at hwidth
      omega
    refine h.writeLeft hkept.grows (fun x hx => live_diff_subset ⟨hx.1, fun hxd => hx.2 ?_⟩)
      fun hlive q hq' => ?_
    · rw [hdefs] at hxd
      exact Option.some.inj (hxd.symm.trans hv)
    · obtain rfl := Option.some.inj (hq.symm.trans hq')
      have hagree := h.agree u (hkept.uses_live (hused u hu)) p hp
      rw [← show w = wd u from hwu] at hagree
      exact agree_merge_self hwv hle hagree _
  · cases hself

end Step

/-! ## Code -/

/-- What the scan makes of code, instruction by instruction. -/
inductive Allocation (wd : ℕ → ℕ) : List Instruction → List Instruction → Alloc → Prop
  | nil : Allocation wd [] [] .empty
  | kept {i i' : Instruction} {code code' : List Instruction} {T T' : Alloc} :
      Fits wd i → Kept i i' code T T' → Invariant (i :: code) T' → Allocation wd code code' T →
        Allocation wd (i :: code) (i' :: code') T'
  | dropped {i i' : Instruction} {code code' : List Instruction} {T T' : Alloc} :
      Fits wd i → Dropped i i' code T T' → Invariant (i :: code) T' → Allocation wd code code' T →
        Allocation wd (i :: code) (i' :: code') T'

namespace Allocation

variable {code code' : List Instruction}

/-- The scan keeps its invariant. -/
theorem invariant (h : Allocation wd code code' T) : Invariant code T := by
  cases h with
  | nil => exact ⟨⟨by simp [Live], by simp [Live]⟩, by simp [Alloc.empty]⟩
  | kept _ _ hinv _ => exact hinv
  | dropped _ _ hinv _ => exact hinv

variable (cpu) in
/-- At its end memory, the flags and the reserved registers are equal. -/
theorem run (h : Allocation wd code code' T) : ∀ {s t : State},
    Rel wd T (Live uses defs code) s t →
      Rel wd .empty ∅ (run cpu code s) (run cpu code' t) := by
  induction h with
  | nil => exact id
  | @kept i i' code code' T T' hfits hkept hinv hrest ih =>
    intro s t hst
    have hopcode : i'.opcode ≠ .ret := hkept.opcode ▸ hfits.no_ret
    rw [X86Host.run, X86Host.run, hfits.alive, if_neg Bool.false_ne_true, if_neg hfits.no_ret,
      hkept.dead]
    cases hself : i'.movesToSelf with
    | true => exact ih (rel_of_movesToSelf hfits hkept hrest.invariant.holds hself hst)
    | false =>
      rw [if_neg Bool.false_ne_true, if_neg hopcode]
      exact ih (rel_of_kept hfits hkept hrest.invariant.holds hinv.holds hst)
  | @dropped i i' code code' T T' hfits hdropped hinv hrest ih =>
    intro s t hst
    rw [X86Host.run, X86Host.run, hfits.alive, if_neg Bool.false_ne_true, if_neg hfits.no_ret,
      hdropped.dead, if_pos rfl]
    exact ih (rel_of_dropped hfits hdropped hst)

end Allocation

theorem allocate_invariant : ∀ {code code' : List Instruction} {T : Alloc},
    (∀ i ∈ code, Fits wd i) → Fresh uses defs code → allocate code = .ok (code', T) →
      Allocation wd code code' T
  | [], code', T, _, _, h => by
    obtain ⟨rfl, rfl⟩ := Prod.mk.inj (Except.ok.inj h)
    exact .nil
  | i :: code, code', T, hfits, hfresh, h => by
    obtain ⟨⟨code₁, T₁⟩, hcode, h⟩ := bind_eq_ok.1 h
    obtain ⟨⟨i', T₂⟩, hi, h⟩ := bind_eq_ok.1 h
    obtain ⟨rfl, rfl⟩ := Prod.mk.inj (pure_eq_ok.1 h)
    have hrest := allocate_invariant (fun j hj => hfits j (List.mem_cons_of_mem i hj)) hfresh.2.2
      hcode
    have hfit := hfits i List.mem_cons_self
    rcases allocateOne_spec hfit hfresh hrest.invariant hi with ⟨hkept, hinv⟩ | ⟨hdropped, hinv⟩
    · exact .kept hfit hkept hinv hrest
    · exact .dropped hfit hdropped hinv hrest


/-! ## Sound allocation -/

/-- The instruction only defines a virtual register that no instruction left of `rest` uses, and
does nothing else. -/
def Unused (i : Instruction) (rest : List Instruction) : Prop :=
  ∃ v, defs i = {v} ∧ v ∉ Live uses defs rest ∧ ∀ cpu s, ∃ x,
    exec cpu i s = { s with regs := Function.update s.regs (.vreg v) x }

/-- The states agree on all but virtual registers and the registers for allocation. -/
structure Same (s t : State) : Prop where
  mem : s.mem = t.mem
  flags : s.flags = t.flags
  reserved : ∀ r, Reserved r → s.regs (.preg r) = t.regs (.preg r)

/-- The tables have a register for each virtual register that is live, never one for two of them,
and the instructions left are those of the code on these registers. -/
structure OnRegisters (code code' : List Instruction) (table : ℕ → Alloc) : Prop where
  holds : ∀ k, (table k).Holds (Live uses defs (code.drop k))
  grows : ∀ k, Extends (table (k + 1)) (table k)
  renamed : ∀ (k : ℕ) (i i' : Instruction), code[k]? = some i → code'[k]? = some i' →
    i'.dead = false → i'.opcode = i.opcode ∧
      i'.operands = i.operands.map (Operand.renamed (table k))

/-- What allocation has made of the code is sound : live virtual registers have registers of their
own, the instructions removed are those whose definition is not used and those that move a
register to itself, and the rest computes what the code does. -/
structure Sound (code code' : List Instruction) : Prop where
  length : code'.length = code.length
  registers : ∃ table, OnRegisters code code' table
  removed : ∀ (k : ℕ) (i i' : Instruction), code[k]? = some i → code'[k]? = some i' →
    i.dead = false → i'.dead = true → Unused i (code.drop (k + 1)) ∨ i'.movesToSelf = true
  computes : ∀ cpu s, Same (run cpu code s) (run cpu code' s)

/-- The tables of a longer code. -/
def consTable (T : Alloc) (table : ℕ → Alloc) : ℕ → Alloc
  | 0 => T
  | k + 1 => table k

theorem OnRegisters.cons {i i' : Instruction} {code code' : List Instruction} {table : ℕ → Alloc}
    {T' : Alloc} (h : OnRegisters code code' table) (hholds : T'.Holds (Live uses defs (i :: code)))
    (hgrows : Extends (table 0) T') (hi : i'.dead = false →
      i'.opcode = i.opcode ∧ i'.operands = i.operands.map (Operand.renamed T')) :
    OnRegisters (i :: code) (i' :: code') (consTable T' table) := by
  refine ⟨fun k => ?_, fun k => ?_, fun k j j' hj hj' hdead => ?_⟩
  · cases k with
    | zero => exact hholds
    | succ k => exact h.holds k
  · cases k with
    | zero => exact hgrows
    | succ k => exact h.grows k
  · cases k with
    | zero =>
      obtain rfl := Option.some.inj hj
      obtain rfl := Option.some.inj hj'
      exact hi hdead
    | succ k => exact h.renamed k j j' hj hj' hdead

/-- An instruction that an earlier allocation has left : it has no virtual register, or it is
dead. -/
structure Settled (i : Instruction) : Prop where
  alive : i.dead = false → i.movesToSelf = false ∧
    ∀ o ∈ i.operands, o.defReg = none ∧ o.useReg = none
  dead : i.dead = true → uses i = ∅ ∨ (defs i).Nonempty

namespace Allocation

variable {code code' : List Instruction}

theorem onRegisters (h : Allocation wd code code' T) :
    ∃ table, table 0 = T ∧ OnRegisters code code' table := by
  induction h with
  | nil =>
    refine ⟨fun _ => .empty, rfl, fun k => ?_, fun _ _ _ hv => hv, by simp⟩
    rw [List.drop_nil]
    exact ⟨by simp [Live], by simp [Live]⟩
  | kept hfits hkept hinv hrest ih =>
    obtain ⟨table, rfl, htable⟩ := ih
    exact ⟨_, rfl, htable.cons hinv.holds hkept.grows fun _ => ⟨hkept.opcode, hkept.operands⟩⟩
  | dropped hfits hdropped hinv hrest ih =>
    obtain ⟨table, rfl, htable⟩ := ih
    refine ⟨_, rfl, htable.cons hinv.holds (hdropped.table ▸ fun _ _ hv => hv) fun halive => ?_⟩
    rw [hdropped.dead] at halive
    cases halive

theorem length (h : Allocation wd code code' T) : code'.length = code.length := by
  induction h with
  | nil => rfl
  | kept _ _ _ _ ih => simp [ih]
  | dropped _ _ _ _ ih => simp [ih]

theorem removed (h : Allocation wd code code' T) : ∀ (k : ℕ) (i i' : Instruction),
    code[k]? = some i → code'[k]? = some i' → i'.dead = true →
      Unused i (code.drop (k + 1)) ∨ i'.movesToSelf = true := by
  induction h with
  | nil => simp
  | kept _ hkept _ _ ih =>
    intro k j j' hj hj' hdead
    cases k with
    | zero =>
      obtain rfl := Option.some.inj hj'
      exact .inr (hkept.dead.symm.trans hdead)
    | succ k => exact ih k j j' hj hj' hdead
  | dropped hfits hdropped _ _ ih =>
    intro k j j' hj hj' hdead
    cases k with
    | zero =>
      obtain rfl := Option.some.inj hj
      obtain ⟨v, hdefs, hunused⟩ := hdropped.unused
      exact .inl ⟨v, hdefs, hunused, fun cpu s =>
        exec_of_defs cpu hfits (hdefs ▸ Set.mem_singleton v) s⟩
    | succ k => exact ih k j j' hj hj' hdead


/-- An operand whose virtual register has a register has none after allocation. -/
theorem settled_renamed {o : Operand} (hd : ∀ v, o.defReg = some v → T.map v ≠ none)
    (hu : ∀ v, o.useReg = some v → T.map v ≠ none) :
    (o.renamed T).defReg = none ∧ (o.renamed T).useReg = none := by
  obtain ⟨kind, width, use, defn⟩ := o
  rcases kind with (r | v) | ⟨r | v, dis, gs⟩ | x
  · exact ⟨rfl, rfl⟩
  · cases hdef : Operand.defReg ⟨.reg (.vreg v), width, use, defn⟩ with
    | some w =>
      obtain ⟨p, hp⟩ := Option.ne_none_iff_exists'.1 (hd w hdef)
      rw [renamed_of_defReg hdef hp]
      exact ⟨rfl, rfl⟩
    | none =>
      cases huse : Operand.useReg ⟨.reg (.vreg v), width, use, defn⟩ with
      | some w =>
        obtain ⟨p, hp⟩ := Option.ne_none_iff_exists'.1 (hu w huse)
        rw [renamed_of_useReg hdef huse hp]
        exact ⟨rfl, rfl⟩
      | none =>
        rw [renamed_of_none hdef huse]
        exact ⟨hdef, huse⟩
  · exact ⟨rfl, rfl⟩
  · obtain ⟨p, hp⟩ := Option.ne_none_iff_exists'.1 (hu v rfl)
    rw [renamed_of_useReg rfl rfl hp]
    exact ⟨rfl, rfl⟩
  · exact ⟨rfl, rfl⟩

/-- Allocated code needs no second allocation. -/
theorem settled (h : Allocation wd code code' T) :
    ∀ i' ∈ code', Settled i' ∧ defs i' ⊆ Mentioned uses defs code := by
  induction h with
  | nil => simp
  | @kept i i' code code' T T' hfits hkept hinv hrest ih =>
    intro j hj
    rcases List.mem_cons.1 hj with rfl | hj
    · have hops : ∀ o' ∈ j.operands, o'.defReg = none ∧ o'.useReg = none := by
        intro o' ho'
        rw [hkept.operands] at ho'
        obtain ⟨o, ho, rfl⟩ := List.mem_map.1 ho'
        refine settled_renamed (fun v hv => ?_) fun v hv => hkept.uses_placed v ⟨o, ho, hv⟩
        obtain ⟨p, hp, -⟩ := hrest.invariant.holds.taken v (hkept.defs_live ⟨o, ho, hv⟩)
        rw [hkept.grows v p hp]
        exact Option.some_ne_none p
      refine ⟨⟨fun halive => ⟨hkept.dead.symm.trans halive, hops⟩, fun _ => .inl ?_⟩, ?_⟩
      · refine Set.eq_empty_of_forall_notMem ?_
        rintro v ⟨o, ho, hv⟩
        rw [(hops o ho).2] at hv
        cases hv
      · rintro v ⟨o, ho, hv⟩
        rw [(hops o ho).1] at hv
        cases hv
    · obtain ⟨hset, hdefs⟩ := ih j hj
      refine ⟨hset, fun v hv => ?_⟩
      obtain ⟨k, hk, hv⟩ := hdefs hv
      exact ⟨k, List.mem_cons_of_mem i hk, hv⟩
  | @dropped i i' code code' T T' hfits hdropped hinv hrest ih =>
    intro j hj
    rcases List.mem_cons.1 hj with rfl | hj
    · have hsame : defs j = defs i := by rw [defs, hdropped.operands, defs]
      obtain ⟨v, hv, -⟩ := hdropped.unused
      refine ⟨⟨fun halive => ?_, fun _ => .inr ⟨v, ?_⟩⟩, fun w hw =>
        ⟨i, List.mem_cons_self, .inr ?_⟩⟩
      · rw [hdropped.dead] at halive
        cases halive
      · rw [hsame, hv]
        exact Set.mem_singleton v
      · rwa [← hsame]
    · obtain ⟨hset, hdefs⟩ := ih j hj
      refine ⟨hset, fun v hv => ?_⟩
      obtain ⟨k, hk, hv⟩ := hdefs hv
      exact ⟨k, List.mem_cons_of_mem i hk, hv⟩

end Allocation

/-! ## Code after allocated code -/

theorem killDefs_of_unmapped : ∀ {os : List Operand}, (∀ o ∈ os, ∀ v, o.defReg = some v →
    T.map v = none) → ∃ dead, killDefs os T = (os, T, dead)
  | [], _ => ⟨false, rfl⟩
  | o :: os, h => by
    obtain ⟨dead, hos⟩ := killDefs_of_unmapped fun o' ho' => h o' (List.mem_cons_of_mem o ho')
    cases hd : o.defReg with
    | none => exact ⟨dead, by simp [killDefs, hd, hos]⟩
    | some v => exact ⟨true, by simp [killDefs, hd, h o List.mem_cons_self v hd]⟩

theorem allocUses_of_none : ∀ {os : List Operand}, (∀ o ∈ os, o.useReg = none) →
    allocUses os T = .ok (os, T)
  | [], _ => rfl
  | o :: os, h => by
    have hos := allocUses_of_none fun o' ho' => h o' (List.mem_cons_of_mem o ho')
    simp [allocUses, h o List.mem_cons_self, hos]

/-- The scan leaves what is settled. -/
theorem allocateOne_of_settled {i : Instruction} (h : Settled i)
    (hunmapped : ∀ v ∈ defs i, T.map v = none) : allocateOne i T = .ok (i, T) := by
  unfold allocateOne
  obtain ⟨opcode, operands, _ | _⟩ := i
  · obtain ⟨hself, hops⟩ := h.alive rfl
    rw [killDefs_of_none fun o ho => (hops o ho).1]
    simp only [Bool.or_self, Bool.false_eq_true, if_false]
    rw [allocUses_of_none fun o ho => (hops o ho).2]
    change Except.ok ((⟨opcode, operands, Instruction.movesToSelf ⟨opcode, operands, false⟩⟩ :
      Instruction), T) = _
    rw [hself]
  · obtain ⟨dead, hkill⟩ := killDefs_of_unmapped (T := T) fun o ho v hv => hunmapped v ⟨o, ho, hv⟩
    rw [hkill]
    rfl

variable {old code code' : List Instruction}

theorem allocate_append (hold : ∀ i ∈ old, Settled i)
    (hunmapped : ∀ i ∈ old, ∀ v ∈ defs i, T.map v = none) (h : allocate code = .ok (code', T)) :
    allocate (old ++ code) = .ok (old ++ code', T) := by
  induction old with
  | nil => exact h
  | cons i old ih =>
    have hrest := ih (fun j hj => hold j (List.mem_cons_of_mem i hj))
      fun j hj => hunmapped j (List.mem_cons_of_mem i hj)
    have hi := allocateOne_of_settled (hold i List.mem_cons_self) (hunmapped i List.mem_cons_self)
    rw [List.cons_append, allocate, hrest]
    exact bind_eq_ok.2 ⟨_, rfl, bind_eq_ok.2 ⟨_, hi, rfl⟩⟩

/-- What was live before allocated code is live before the code. -/
theorem live_append (hold : ∀ i ∈ old, Settled i) (hcode : Live uses defs code = ∅) :
    Live uses defs (old ++ code) = ∅ := by
  induction old with
  | nil => exact hcode
  | cons i old ih =>
    have hrest := ih fun j hj => hold j (List.mem_cons_of_mem i hj)
    have hi := hold i List.mem_cons_self
    refine Set.eq_empty_of_forall_notMem ?_
    rintro v (⟨hv, -⟩ | ⟨hdefs, hv⟩)
    · rw [List.append_eq, hrest] at hv
      exact hv
    · rw [List.append_eq, hrest, Set.subset_empty_iff] at hdefs
      cases hdead : i.dead with
      | false =>
        obtain ⟨o, ho, hv⟩ := hv
        rw [((hi.alive hdead).2 o ho).2] at hv
        cases hv
      | true =>
        rcases hi.dead hdead with huses | hdef
        · rw [huses] at hv
          exact hv
        · rw [hdefs] at hdef
          exact hdef.ne_empty rfl

theorem run_append (h : ∀ s, Same (run cpu code s) (run cpu code' s)) (s : State) :
    Same (run cpu (old ++ code) s) (run cpu (old ++ code') s) := by
  induction old generalizing s with
  | nil => exact h s
  | cons i old ih =>
    rw [List.cons_append, List.cons_append, run, run]
    split
    · exact ih s
    · split
      · exact ⟨rfl, rfl, fun _ _ => rfl⟩
      · exact ih _

/-- Allocation after allocated code. -/
theorem Allocation.sound (h : Allocation wd code code' T) (hclosed : Closed uses defs ∅ code)
    (hold : ∀ i ∈ old, Settled i) : Sound (old ++ code) (old ++ code') := by
  have hlive := live_eq_empty hclosed
  refine ⟨by simp [h.length], ?_, ?_, fun cpu => run_append fun s => ?_⟩
  · suffices hregs : ∃ table, table 0 = T ∧ OnRegisters (old ++ code) (old ++ code') table from
      hregs.imp fun _ ht => ht.2
    induction old with
    | nil => exact h.onRegisters
    | cons i old ih =>
      have hold' := fun j hj => hold j (List.mem_cons_of_mem i hj)
      obtain ⟨table, rfl, htable⟩ := ih hold'
      refine ⟨consTable (table 0) table, rfl, htable.cons ?_ (fun _ _ hv => hv) fun halive => ?_⟩
      · have hnone : Live uses defs (i :: old ++ code) = ∅ := live_append hold hlive
        rw [← List.cons_append, hnone]
        exact ⟨by simp, by simp⟩
      · have hops := ((hold i List.mem_cons_self).alive halive).2
        refine ⟨rfl, ((List.map_congr_left fun o ho => ?_).trans (List.map_id _)).symm⟩
        exact renamed_of_none (hops o ho).1 (hops o ho).2
  · intro k i i' hi hi' halive hdead
    rcases Nat.lt_or_ge k old.length with hk | hk
    · rw [List.getElem?_append_left hk] at hi hi'
      obtain rfl := Option.some.inj (hi.symm.trans hi')
      rw [halive] at hdead
      cases hdead
    · rw [List.getElem?_append_right hk] at hi hi'
      have hdrop : (old ++ code).drop (k + 1) = code.drop (k - old.length + 1) := by
        rw [List.drop_append, List.drop_eq_nil_of_le (by omega), List.nil_append]
        congr 1
        omega
      rw [hdrop]
      exact h.removed _ i i' hi hi' hdead
  · have hrel := h.run cpu (s := s) (t := s)
      ⟨rfl, rfl, fun _ _ => rfl, by simp [hlive]⟩
    exact ⟨hrel.mem, hrel.flags, hrel.reserved⟩

end Arancini.X86Host
