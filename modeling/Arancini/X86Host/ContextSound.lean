import Arancini.X86Host.Context

/-!
# Soundness of the code of the x86 translation context

`Lowering` is what holds of a context in the middle of a block : the code so far is closed, fresh
and fits the widths of the ports, and the ports of a materialised node are defined by it. To append
an instruction keeps that when its sources are defined and its destination is new
(`Lowering.append`), and so does materialising a node (`materialise_spec`). `allocate_sound` is
about the code of all blocks.
-/

namespace Arancini.X86Host

open Ir RegAlloc

/-! ## Widths -/

/-- The width of the virtual register of a port. -/
def regWidth (w : ℕ) : ℕ :=
  if w = 1 then 8 else w

theorem regWidth_regWidth (w : ℕ) : regWidth (regWidth w) = regWidth w := by
  unfold regWidth
  split <;> simp_all

/-- The virtual register an operand is. -/
def Operand.target (o : Operand) : Set ℕ :=
  {v | o.kind = .reg (.vreg v)}

/-- The virtual register its address is in. -/
def Operand.bases (o : Operand) : Set ℕ :=
  {v | ∃ d gs, o.kind = .mem ⟨.vreg v, d, gs⟩}

/-- An operand of an instruction that is not marked yet has the width of its register. -/
structure Operand.Sized (wd : ℕ → ℕ) (o : Operand) : Prop where
  unmarked : o.use = false ∧ o.defn = false
  target : ∀ v ∈ o.target, o.width = wd v
  bases : ∀ v ∈ o.bases, 32 ≤ wd v
  reserved : ∀ r, o.kind = .reg (.preg r) → Reserved r
  base_reserved : ∀ r d gs, o.kind = .mem ⟨.preg r, d, gs⟩ → Reserved r

section Operands

variable {wd : ℕ → ℕ} {v w : ℕ}

theorem sized_vreg (h : wd v = regWidth w) : (Operand.vreg v w).Sized wd := by
  refine ⟨⟨rfl, rfl⟩, ?_, ?_, nofun, nofun⟩
  · rintro u hu
    obtain rfl : v = u := Reg.vreg.inj (OperandKind.reg.inj hu)
    exact h.symm
  · rintro u ⟨d, gs, hu⟩
    cases hu

theorem sized_imm (k : ℕ) : (⟨.imm k, w, false, false⟩ : Operand).Sized wd := by
  refine ⟨⟨rfl, rfl⟩, ?_, ?_, nofun, nofun⟩
  · rintro u hu
    cases hu
  · rintro u ⟨d, gs, hu⟩
    cases hu

theorem reserved_bp : Reserved .BP := by
  unfold Reserved
  decide

theorem reserved_r15 : Reserved .R15 := by
  unfold Reserved
  decide

theorem sized_guestreg (off : ℕ) : (Operand.guestreg w off).Sized wd := by
  refine ⟨⟨rfl, rfl⟩, ?_, ?_, nofun, ?_⟩
  · rintro u hu
    cases hu
  · rintro u ⟨d, gs, hu⟩
    cases hu
  · rintro r d gs hr
    cases hr
    exact reserved_bp

theorem sized_guestmem (h : 32 ≤ wd v) : (Operand.guestmem v w).Sized wd := by
  refine ⟨⟨rfl, rfl⟩, ?_, ?_, nofun, nofun⟩
  · rintro u hu
    cases hu
  · rintro u ⟨d, gs, hu⟩
    cases hu
    exact h

theorem sized_r15 : (Operand.preg .R15 w).Sized wd := by
  refine ⟨⟨rfl, rfl⟩, ?_, ?_, ?_, nofun⟩
  · rintro u hu
    cases hu
  · rintro u ⟨d, gs, hu⟩
    cases hu
  · rintro r hr
    cases hr
    exact reserved_r15

end Operands

/-! ## Instructions -/

/-- The instruction writes `dst`, which it reads if `read`, and reads the operands `srcs`. -/
structure Instruction.Is (i : Instruction) (read : Bool) (dst : Operand) (srcs : List Operand) :
    Prop where
  alive : i.dead = false
  no_ret : i.opcode ≠ .ret
  operands : i.operands = (if read then dst.asUseDef else dst.asDef) :: srcs.map Operand.asUse
  reads : i.opcode.readsDst = read
  width : i.opcode.dstWidth ∈ [8, 16, 32, 64]
  dst_width : i.opcode.dstWidth = dst.width ∨
    i.opcode.dstWidth = 32 ∧ dst.width = 64 ∧ read = false
  src_width : ∀ a ∈ srcs, i.opcode.srcWidth = a.width
  dst_form : dst.kind.form ≠ .i
  srcs_length : srcs.length ≤ 1

theorem form_of_mem {a b : Form} (h : (a, b) ∈ [(Form.r, Form.r), (.r, .m), (.m, .r), (.r, .i),
    (.m, .i)]) : a ≠ .i := by
  rintro rfl
  simp at h

theorem is_mov {dst src : Operand} {i : Instruction} (h : Instruction.mov dst src = .ok i) :
    i.Is false dst [src] := by
  unfold Instruction.mov Instruction.std at h
  split at h
  · next hok =>
    obtain rfl := Except.ok.inj h
    exact ⟨rfl, nofun, rfl, rfl, hok.2.1, .inl rfl,
      fun a ha => List.mem_singleton.1 ha ▸ hok.1, form_of_mem hok.2.2, le_rfl⟩
  · cases h

theorem is_std {m : Mnemonic} (hm : m ≠ .MOV) {dst src : Operand} {i : Instruction}
    (h : Instruction.std m .asUseDef dst src = .ok i) : i.Is true dst [src] := by
  unfold Instruction.std at h
  split at h
  · next hok =>
    obtain rfl := Except.ok.inj h
    refine ⟨rfl, nofun, rfl, ?_, hok.2.1, .inl rfl,
      fun a ha => List.mem_singleton.1 ha ▸ hok.1, form_of_mem hok.2.2, le_rfl⟩
    cases m <;> first | rfl | exact absurd rfl hm
  · cases h

theorem is_mul {dst src : Operand} {i : Instruction} (h : Instruction.mul dst src = .ok i) :
    i.Is true dst [src] := by
  unfold Instruction.mul at h
  split at h
  · next hok =>
    obtain rfl := Except.ok.inj h
    obtain ⟨hdst, hsrc, hform, -⟩ := hok
    refine ⟨rfl, nofun, rfl, rfl, by simp [Opcode.dstWidth], .inl hdst.symm,
      fun a ha => List.mem_singleton.1 ha ▸ hsrc.symm, ?_, le_rfl⟩
    rw [hform]
    decide
  · cases h

theorem is_movz {dst src : Operand} {i : Instruction} (h : Instruction.movz dst src = .ok i) :
    i.Is false dst [src] := by
  unfold Instruction.movz at h
  split at h
  · next hok =>
    obtain rfl := Except.ok.inj h
    refine ⟨rfl, nofun, rfl, rfl, ?_, .inl rfl, fun a ha => List.mem_singleton.1 ha ▸ rfl, ?_,
      le_rfl⟩
    · have hforms := hok.2
      simp only [Instruction.extendForms, List.mem_cons, Prod.mk.injEq, List.not_mem_nil,
        or_false] at hforms
      change dst.width ∈ _
      simp only [List.mem_cons, List.not_mem_nil, or_false]
      omega
    · rw [hok.1]
      decide
  · split at h
    · next hok =>
      obtain rfl := Except.ok.inj h
      obtain ⟨hform, hwidths⟩ := hok
      obtain ⟨hdst, hsrc, -⟩ : dst.width = 64 ∧ src.width = 32 ∧ src.kind.form = .r := by
        simpa using hwidths
      refine ⟨rfl, nofun, rfl, rfl, by simp [Opcode.dstWidth], .inr ⟨rfl, hdst, rfl⟩,
        fun a ha => List.mem_singleton.1 ha ▸ hsrc.symm, ?_, le_rfl⟩
      rw [hform]
      decide
    · cases h

theorem is_movs {dst src : Operand} {i : Instruction} (h : Instruction.movs dst src = .ok i) :
    i.Is false dst [src] := by
  unfold Instruction.movs at h
  split at h
  · next hok =>
    obtain rfl := Except.ok.inj h
    refine ⟨rfl, nofun, rfl, rfl, ?_, .inl rfl, fun a ha => List.mem_singleton.1 ha ▸ rfl, ?_,
      le_rfl⟩
    · have hforms := hok.2
      simp only [Instruction.extendForms, List.cons_append, List.nil_append, List.mem_cons,
        Prod.mk.injEq, List.not_mem_nil, or_false] at hforms
      change dst.width ∈ _
      simp only [List.mem_cons, List.not_mem_nil, or_false]
      omega
    · rw [hok.1]
      decide
  · cases h

theorem is_setcc {c : Cond} {dst : Operand} {i : Instruction}
    (h : Instruction.setcc c dst = .ok i) : i.Is false dst [] := by
  unfold Instruction.setcc at h
  split at h
  · next hok =>
    obtain rfl := Except.ok.inj h
    refine ⟨rfl, nofun, rfl, rfl, by simp [Opcode.dstWidth], .inl hok.1.symm, nofun, ?_,
      Nat.zero_le _⟩
    rintro hform
    rw [hform] at hok
    simp at hok
  · cases h

theorem is_arithOp {op : BinaryArithOp} {f : Operand → Operand → Except String Instruction}
    (hf : arithOp op = .ok f) {dst src : Operand} {i : Instruction} (h : f dst src = .ok i) :
    i.Is true dst [src] := by
  cases op <;> cases hf
  case mul => exact is_mul h
  all_goals exact is_std (by decide) h

theorem is_castOp {op : CastOp} {f : Operand → Operand → Except String Instruction}
    (hf : castOp op = .ok f) {dst src : Operand} {i : Instruction} (h : f dst src = .ok i) :
    i.Is false dst [src] := by
  cases op <;> cases hf
  case zx => exact is_movz h
  case sx => exact is_movs h
  case bitcast => exact is_mov h

namespace Operand

variable {o : Operand} {v : ℕ}

theorem useReg_asUse (h : o.asUse.useReg = some v) : v ∈ o.target ∪ o.bases := by
  obtain ⟨(r | u) | ⟨r | u, dis, gs⟩ | x, w, use, defn⟩ := o
  · cases h
  · cases h
    exact .inl rfl
  · cases h
  · cases h
    exact .inr ⟨dis, gs, rfl⟩
  · cases h

theorem defReg_asUse (hdefn : o.defn = false) : o.asUse.defReg = none := by
  obtain ⟨(r | u) | m | x, w, use, defn⟩ := o
  · rfl
  · obtain rfl : defn = false := hdefn
    rfl
  · rfl
  · rfl

theorem useReg_asUseDef (h : o.asUseDef.useReg = some v) : v ∈ o.target ∪ o.bases :=
  useReg_asUse (o := { o with defn := true }) h

theorem defReg_asUseDef : o.asUseDef.defReg = none := by
  obtain ⟨(r | u) | m | x, w, use, defn⟩ := o <;> rfl

theorem useReg_asDef (huse : o.use = false) (h : o.asDef.useReg = some v) : v ∈ o.bases := by
  obtain ⟨(r | u) | ⟨r | u, dis, gs⟩ | x, w, use, defn⟩ := o
  · cases h
  · obtain rfl : use = false := huse
    cases h
  · cases h
  · cases h
    exact ⟨dis, gs, rfl⟩
  · cases h

theorem defReg_asDef (huse : o.use = false) : o.asDef.defReg = some v ↔ v ∈ o.target := by
  obtain ⟨(r | u) | m | x, w, use, defn⟩ := o
  · exact ⟨nofun, nofun⟩
  · obtain rfl : use = false := huse
    constructor
    · rintro h
      cases h
      rfl
    · rintro h
      cases h
      rfl
  · exact ⟨nofun, nofun⟩
  · exact ⟨nofun, nofun⟩

end Operand

namespace Instruction.Is

variable {i : Instruction} {read : Bool} {dst : Operand} {srcs : List Operand} {wd : ℕ → ℕ}

/-- The instruction fits the widths when its operands do. -/
theorem fits (h : i.Is read dst srcs) (hdst : dst.Sized wd) (hsrcs : ∀ a ∈ srcs, a.Sized wd)
    (hvirtual : ∀ a ∈ srcs, ∀ r, a.kind ≠ .reg (.preg r)) : Fits wd i := by
  refine ⟨h.alive, h.no_ret, h.width, _, _, h.operands, ?_, ?_⟩
  · have hform := h.dst_form
    have hwidth := h.dst_width
    have hreads := h.reads
    obtain ⟨⟨huse, -⟩, htarget, hbases, hreserved, hbase⟩ := hdst
    obtain ⟨kind, w, use, defn⟩ := dst
    obtain rfl : use = false := huse
    rcases kind with (r | v) | ⟨r | v, dis, gs⟩ | x
    · cases read <;> exact ⟨rfl, hreserved r rfl⟩
    · rw [htarget v rfl] at hwidth
      cases read
      · exact ⟨rfl, hreads.symm, hwidth.imp_right fun hw => ⟨hw.1, hw.2.1, hreads⟩⟩
      · exact ⟨rfl, hreads.symm, .inl (hwidth.resolve_right fun hw => by simp at hw)⟩
    · cases read <;> exact ⟨rfl, hbase r dis gs rfl⟩
    · cases read <;> exact ⟨rfl, hbases v ⟨dis, gs, rfl⟩⟩
    · exact absurd rfl hform
  · rcases srcs with _ | ⟨a, _ | ⟨b, srcs⟩⟩
    · exact .inl rfl
    · refine .inr ⟨_, rfl, ?_⟩
      have hwidth := h.src_width a List.mem_cons_self
      have hpreg := hvirtual a List.mem_cons_self
      obtain ⟨⟨-, hdefn⟩, htarget, hbases, -, hbase⟩ := hsrcs a List.mem_cons_self
      obtain ⟨kind, w, use, defn⟩ := a
      obtain rfl : defn = false := hdefn
      rcases kind with (r | v) | ⟨r | v, dis, gs⟩ | x
      · exact absurd rfl (hpreg r)
      · exact ⟨rfl, rfl, hwidth.trans (htarget v rfl)⟩
      · exact ⟨rfl, rfl, hbase r dis gs rfl⟩
      · exact ⟨rfl, rfl, hbases v ⟨dis, gs, rfl⟩⟩
      · exact ⟨rfl, rfl, trivial⟩
    · exact absurd h.srcs_length (by simp)

/-- What the instruction reads. -/
theorem mem_uses (h : i.Is read dst srcs) (huse : dst.use = false) {v : ℕ}
    (hv : v ∈ X86Host.uses i) : v ∈ dst.bases ∨ read = true ∧ v ∈ dst.target ∨
      ∃ a ∈ srcs, v ∈ a.target ∪ a.bases := by
  obtain ⟨o, ho, hv⟩ := hv
  rw [h.operands] at ho
  rcases List.mem_cons.1 ho with rfl | ho
  · cases read
    · exact .inl (Operand.useReg_asDef huse hv)
    · rcases Operand.useReg_asUseDef hv with hv | hv
      · exact .inr (.inl ⟨rfl, hv⟩)
      · exact .inl hv
  · obtain ⟨a, ha, rfl⟩ := List.mem_map.1 ho
    exact .inr (.inr ⟨a, ha, Operand.useReg_asUse hv⟩)

/-- What it defines. -/
theorem defs_eq (h : i.Is read dst srcs) (huse : dst.use = false)
    (hsrcs : ∀ a ∈ srcs, a.defn = false) :
    X86Host.defs i = if read then ∅ else dst.target := by
  have hrest : ∀ o ∈ srcs.map Operand.asUse, o.defReg = none := by
    rintro o ho
    obtain ⟨a, ha, rfl⟩ := List.mem_map.1 ho
    exact Operand.defReg_asUse (hsrcs a ha)
  rw [defs_of_operands h.operands hrest]
  ext v
  cases read
  · exact Operand.defReg_asDef huse
  · simp [Operand.defReg_asUseDef]

end Instruction.Is

/-! ## Code of a block -/

/-- What holds of a context in the middle of a block, whose code so far is `code` and which found
the builder at `old` and the first free virtual register at `lo`. -/
structure Lowering (g : Graph) (old : List Instruction) (lo : ℕ) (wd : ℕ → ℕ) (c : Context)
    (code : List Instruction) : Prop where
  builder : c.builder = old ++ code
  closed : Closed uses defs ∅ code
  fresh : Fresh uses defs code
  fits : ∀ i ∈ code, Fits wd i
  lo_le : lo ≤ c.next
  bounds : ∀ v ∈ Defined defs code, lo ≤ v ∧ v < c.next
  ports : ∀ n k v, c.ports (n, k) = some v → v < c.next ∧
    ∃ node vt, g.nodes[n]? = some node ∧ portType node k = some vt ∧
      wd v = regWidth vt.elementWidth
  done : ∀ n ∈ c.materialised, ∀ k v, c.ports (n, k) = some v → v ∈ Defined defs code

/-- An operand that can be read after code that defines `known`. -/
structure Operand.Readable (wd : ℕ → ℕ) (known : Set ℕ) (o : Operand) : Prop where
  sized : o.Sized wd
  defined : o.target ∪ o.bases ⊆ known
  no_preg : ∀ r, o.kind ≠ .reg (.preg r)

/-- Closed code mentions what it defines. -/
theorem mentioned_subset_defined {known : Set ℕ} : ∀ {code : List Instruction},
    Closed uses defs known code → Mentioned uses defs code ⊆ known ∪ Defined defs code
  | code, h, v, ⟨i, hi, hv⟩ => by
    obtain ⟨l, r, rfl⟩ := List.append_of_mem hi
    obtain ⟨-, huses, -⟩ := closed_append.1 h
    rw [defined_append, Defined]
    rcases hv with hv | hv
    · exact (huses hv).imp_right .inl
    · exact .inr (.inr (.inl hv))

section Lowering

variable {g : Graph} {old : List Instruction} {lo : ℕ} {wd : ℕ → ℕ} {c c' : Context}
  {code : List Instruction}

/-- Append an instruction that reads what is defined, and defines a new register if any. -/
theorem Lowering.append (h : Lowering g old lo wd c code) {i : Instruction} {read : Bool}
    {dst : Operand} {srcs : List Operand} (hi : i.Is read dst srcs) (hdst : dst.Sized wd)
    (hbases : dst.bases ⊆ Defined defs code)
    (hread : read = true → dst.target ⊆ Defined defs code)
    (hwrite : read = false → ∀ v ∈ dst.target, v ∉ Defined defs code ∧ lo ≤ v ∧ v < c.next)
    (hsrcs : ∀ a ∈ srcs, a.Readable wd (Defined defs code)) :
    Lowering g old lo wd { c with builder := c.builder ++ [i] } (code ++ [i]) ∧
      Defined defs (code ++ [i]) = Defined defs code ∪ if read then ∅ else dst.target := by
  have huses : uses i ⊆ Defined defs code := by
    intro v hv
    rcases hi.mem_uses hdst.unmarked.1 hv with hv | ⟨rfl, hv⟩ | ⟨a, ha, hv⟩
    · exact hbases hv
    · exact hread rfl hv
    · exact (hsrcs a ha).defined hv
  have hdefs := hi.defs_eq hdst.unmarked.1 fun a ha => (hsrcs a ha).sized.unmarked.2
  have hnew : ∀ v ∈ defs i, v ∉ Defined defs code ∧ lo ≤ v ∧ v < c.next := by
    rw [hdefs]
    cases read
    · exact hwrite rfl
    · exact fun v hv => absurd hv (Set.notMem_empty v)
  have hdisj : Disjoint (Defined defs code) (defs i) :=
    Set.disjoint_right.2 fun v hv => (hnew v hv).1
  have hdefined : Defined defs (code ++ [i]) = Defined defs code ∪ defs i := by
    rw [defined_append, Defined, Defined, Set.union_empty]
  have hmentioned := mentioned_subset_defined h.closed
  rw [Set.empty_union] at hmentioned
  refine ⟨⟨by simp [h.builder], ?_, ?_, ?_, h.lo_le, ?_, h.ports, fun n hn k v hv => ?_⟩,
    hdefs ▸ hdefined⟩
  · rw [closed_append]
    exact ⟨h.closed, by rwa [Set.empty_union], trivial⟩
  · exact fresh_concat h.fresh (hdisj.mono_left huses) (hdisj.mono_left hmentioned)
  · intro j hj
    rcases List.mem_append.1 hj with hj | hj
    · exact h.fits j hj
    · rw [List.mem_singleton.1 hj]
      exact hi.fits hdst (fun a ha => (hsrcs a ha).sized) fun a ha => (hsrcs a ha).no_preg
  · intro v hv
    rw [hdefined] at hv
    exact hv.elim (h.bounds v) fun hv => (hnew v hv).2
  · rw [hdefined]
    exact .inl (h.done n hn k v hv)

/-- A width matters to instructions that mention its register. -/
theorem Fits.congr {wd wd' : ℕ → ℕ} {i : Instruction} (h : Fits wd i)
    (heq : ∀ v ∈ uses i ∪ defs i, wd' v = wd v) : Fits wd' i := by
  obtain ⟨halive, hret, hwidth, d, rest, hops, hd, hrest⟩ := h
  have hmem : ∀ o ∈ i.operands, ∀ v, o.useReg = some v ∨ o.defReg = some v → wd' v = wd v :=
    fun o ho v hv => heq v (hv.imp (fun hv => ⟨o, ho, hv⟩) fun hv => ⟨o, ho, hv⟩)
  refine ⟨halive, hret, hwidth, d, rest, hops, ?_, hrest.imp_right ?_⟩
  · have hd' := hmem d (hops ▸ List.mem_cons_self)
    obtain ⟨kind, w, use, defn⟩ := d
    obtain ⟨rfl, hd⟩ := hd
    rcases kind with (r | v) | ⟨r | v, dis, gs⟩ | x
    · exact ⟨rfl, hd⟩
    · have hv : wd' v = wd v := hd' v (by cases use <;> simp [Operand.useReg, Operand.defReg])
      exact ⟨rfl, by simpa only [hv] using hd⟩
    · exact ⟨rfl, hd⟩
    · exact ⟨rfl, le_of_le_of_eq hd (hd' v (.inl rfl)).symm⟩
    · exact hd.elim
  · rintro ⟨a, rfl, ha⟩
    refine ⟨a, rfl, ?_⟩
    have ha' := hmem a (by simp [hops])
    obtain ⟨kind, w, use, defn⟩ := a
    obtain ⟨rfl, rfl, ha⟩ := ha
    rcases kind with (r | v) | ⟨r | v, dis, gs⟩ | x
    · exact ha.elim
    · exact ⟨rfl, rfl, Eq.trans ha (ha' v (.inl rfl)).symm⟩
    · exact ⟨rfl, rfl, ha⟩
    · exact ⟨rfl, rfl, le_of_le_of_eq ha (ha' v (.inl rfl)).symm⟩
    · exact ⟨rfl, rfl, trivial⟩

/-- Only nodes before `n` that have been materialised have registers. -/
def Vacant (n : NodeId) (c : Context) : Prop :=
  ∀ m < n, m ∉ c.materialised → ∀ k, c.ports (m, k) = none

/-- What code that materialises nodes before `n` leaves as it was : the widths of registers below
`b`, whether they are defined, and the registers of the nodes from `n` on. -/
structure Runs (b : ℕ) (n : NodeId) (c c' : Context) (wd wd' : ℕ → ℕ)
    (code code' : List Instruction) : Prop where
  next : c.next ≤ c'.next
  width : ∀ v < b, wd' v = wd v
  defined : Defined defs code ⊆ Defined defs code'
  new : ∀ v < b, v ∈ Defined defs code' → v ∈ Defined defs code
  ports : ∀ m, n ≤ m → ∀ k, c'.ports (m, k) = c.ports (m, k)
  materialised : c.materialised ⊆ c'.materialised

theorem Runs.refl (b : ℕ) (n : NodeId) (c : Context) (wd : ℕ → ℕ) (code : List Instruction) :
    Runs b n c c wd wd code code :=
  ⟨le_rfl, fun _ _ => rfl, subset_rfl, fun _ _ h => h, fun _ _ _ => rfl, fun _ h => h⟩

theorem Runs.trans {b : ℕ} {n : NodeId} {c₁ c₂ c₃ : Context} {wd₁ wd₂ wd₃ : ℕ → ℕ}
    {code₁ code₂ code₃ : List Instruction} (h : Runs b n c₁ c₂ wd₁ wd₂ code₁ code₂)
    (h' : Runs b n c₂ c₃ wd₂ wd₃ code₂ code₃) : Runs b n c₁ c₃ wd₁ wd₃ code₁ code₃ :=
  ⟨h.next.trans h'.next, fun v hv => (h'.width v hv).trans (h.width v hv),
    h.defined.trans h'.defined, fun v hv hd => h.new v hv (h'.new v hv hd),
    fun m hm k => (h'.ports m hm k).trans (h.ports m hm k),
    fun _ hm => h'.materialised (h.materialised hm)⟩

theorem Runs.mono {b b' : ℕ} {n n' : NodeId} {wd' : ℕ → ℕ} {code' : List Instruction}
    (h : Runs b n c c' wd wd' code code') (hb : b' ≤ b) (hn : n ≤ n') :
    Runs b' n' c c' wd wd' code code' :=
  ⟨h.next, fun v hv => h.width v (hv.trans_le hb), h.defined, fun v hv => h.new v (hv.trans_le hb),
    fun m hm => h.ports m (hn.trans hm), h.materialised⟩

theorem Vacant.of_runs {n m : NodeId} {b : ℕ} {wd' : ℕ → ℕ} {code' : List Instruction}
    (h : Vacant n c) (hruns : Runs b m c c' wd wd' code code') (hm : Vacant m c') :
    Vacant n c' := by
  intro x hx hnot k
  rcases Nat.lt_or_ge x m with hxm | hxm
  · exact hm x hxm hnot k
  · rw [hruns.ports x hxm k]
    exact h x hx (fun hmem => hnot (hruns.materialised hmem)) k

/-- A register that has been taken and is to be defined. -/
structure Pending (lo : ℕ) (wd : ℕ → ℕ) (c : Context) (code : List Instruction) (v w : ℕ) :
    Prop where
  undefined : v ∉ Defined defs code
  lo_le : lo ≤ v
  lt_next : v < c.next
  width : wd v = regWidth w

theorem Pending.of_runs {b v w : ℕ} {n : NodeId} {wd' : ℕ → ℕ} {code' : List Instruction}
    (h : Pending lo wd c code v w) (hruns : Runs b n c c' wd wd' code code') (hb : v < b) :
    Pending lo wd' c' code' v w :=
  ⟨fun hd => h.undefined (hruns.new v hb hd), h.lo_le, h.lt_next.trans_le hruns.next,
    (hruns.width v hb).trans h.width⟩

theorem allocVreg_ports_self (n : NodeId) (k : PortKind) (c : Context) :
    (c.allocVreg n k).2.ports (n, k) = some (c.allocVreg n k).1 :=
  Function.update_self ..

theorem allocVreg_ports_of_ne {n : NodeId} {k : PortKind} {q : NodeId × PortKind} (h : q ≠ (n, k))
    (c : Context) : (c.allocVreg n k).2.ports q = c.ports q :=
  Function.update_of_ne h ..

/-- Take a register for a port. -/
theorem Lowering.allocVreg (h : Lowering g old lo wd c code) {n : NodeId} {k : PortKind}
    (hn : n ∉ c.materialised) {node : Node} {vt : ValueType} (hnode : g.nodes[n]? = some node)
    (hvt : portType node k = some vt) :
    ∃ wd', Lowering g old lo wd' (c.allocVreg n k).2 code ∧
      Pending lo wd' (c.allocVreg n k).2 code (c.allocVreg n k).1 vt.elementWidth ∧
        Runs (c.allocVreg n k).1 (n + 1) c (c.allocVreg n k).2 wd wd' code code := by
  have hbelow : ∀ v < c.next, Function.update wd c.next (regWidth vt.elementWidth) v = wd v :=
    fun v hv => Function.update_of_ne hv.ne ..
  have hnew : c.next ∉ Defined defs code := fun hd => (h.bounds _ hd).2.false
  have hother : ∀ m, n ≠ m → ∀ k', (c.allocVreg n k).2.ports (m, k') = c.ports (m, k') :=
    fun m hm k' => allocVreg_ports_of_ne (fun he => hm (Prod.mk.inj he).1.symm) c
  have hmentioned := mentioned_subset_defined h.closed
  rw [Set.empty_union] at hmentioned
  refine ⟨_, ⟨h.builder, h.closed, h.fresh, fun i hi => ?_, h.lo_le.trans (Nat.le_succ _),
    fun v hv => ⟨(h.bounds v hv).1, (h.bounds v hv).2.trans (Nat.lt_succ_self _)⟩,
    fun m k' v hv => ?_, fun m hm k' v hv => ?_⟩,
    ⟨hnew, h.lo_le, Nat.lt_succ_self _, Function.update_self ..⟩,
    ⟨Nat.le_succ _, hbelow, subset_rfl, fun _ _ hd => hd,
      fun m hm k' => hother m (Nat.ne_of_lt hm) k', fun _ hm => hm⟩⟩
  · refine (h.fits i hi).congr fun v hv => hbelow v (h.bounds v (hmentioned ⟨i, hi, hv⟩)).2
  · by_cases hkey : (m, k') = (n, k)
    · obtain ⟨rfl, rfl⟩ := Prod.mk.inj hkey
      obtain rfl : c.next = v := Option.some.inj ((allocVreg_ports_self m k' c).symm.trans hv)
      exact ⟨Nat.lt_succ_self _, node, vt, hnode, hvt, Function.update_self ..⟩
    · have hv' : c.ports (m, k') = some v := (allocVreg_ports_of_ne hkey c).symm.trans hv
      obtain ⟨hlt, node', vt', hnode', hvt', hw⟩ := h.ports m k' v hv'
      exact ⟨hlt.trans (Nat.lt_succ_self _), node', vt', hnode', hvt', (hbelow v hlt).trans hw⟩
  · have hne : n ≠ m := fun he => hn (he ▸ hm)
    exact h.done m hm k' v ((hother m hne k').symm.trans hv)

/-- Define a register that has been taken. -/
theorem Lowering.define (h : Lowering g old lo wd c code) {i : Instruction} {v w : ℕ}
    {srcs : List Operand} (hv : Pending lo wd c code v w) (hi : i.Is false (.vreg v w) srcs)
    (hsrcs : ∀ a ∈ srcs, a.Readable wd (Defined defs code)) (n : NodeId) :
    Lowering g old lo wd { c with builder := c.builder ++ [i] } (code ++ [i]) ∧
      v ∈ Defined defs (code ++ [i]) ∧
        (∀ b ≤ v, Runs b n c { c with builder := c.builder ++ [i] } wd wd code (code ++ [i])) ∧
          ∀ u w', u ≠ v → Pending lo wd c code u w' →
            Pending lo wd { c with builder := c.builder ++ [i] } (code ++ [i]) u w' := by
  have htarget : ∀ u ∈ (Operand.vreg v w).target, u = v := fun u hu =>
    (Reg.vreg.inj (OperandKind.reg.inj hu)).symm
  obtain ⟨hlow, hdefined⟩ := h.append hi (sized_vreg hv.width) (fun u ⟨_, _, hu⟩ => by cases hu)
    nofun (fun _ u hu => htarget u hu ▸ ⟨hv.undefined, hv.lo_le, hv.lt_next⟩) hsrcs
  have hnew : ∀ u, u ≠ v → u ∈ Defined defs (code ++ [i]) → u ∈ Defined defs code := by
    intro u hu hd
    rw [hdefined] at hd
    exact hd.resolve_right fun hu' => hu (htarget u hu')
  refine ⟨hlow, hdefined ▸ .inr rfl, fun b hb => ⟨le_rfl, fun _ _ => rfl,
    hdefined ▸ Set.subset_union_left, fun u hu => hnew u (hu.trans_le hb).ne, fun _ _ _ => rfl,
    fun _ hm => hm⟩, fun u w' hu hp => ⟨fun hd => hp.undefined (hnew u hu hd), hp.lo_le,
    hp.lt_next, hp.width⟩⟩

/-- Append an instruction that defines no register. -/
theorem Lowering.effect (h : Lowering g old lo wd c code) {i : Instruction} {read : Bool}
    {dst : Operand} {srcs : List Operand} (hi : i.Is read dst srcs) (hdst : dst.Sized wd)
    (hbases : dst.bases ⊆ Defined defs code)
    (htarget : ∀ v ∈ dst.target, read = true ∧ v ∈ Defined defs code)
    (hsrcs : ∀ a ∈ srcs, a.Readable wd (Defined defs code)) (b : ℕ) (n : NodeId) :
    Lowering g old lo wd { c with builder := c.builder ++ [i] } (code ++ [i]) ∧
      Runs b n c { c with builder := c.builder ++ [i] } wd wd code (code ++ [i]) := by
  obtain ⟨hlow, hdefined⟩ := h.append hi hdst hbases (fun _ v hv => (htarget v hv).2)
    (fun hread v hv => by rw [(htarget v hv).1] at hread; cases hread) hsrcs
  have hsame : Defined defs (code ++ [i]) = Defined defs code := by
    rw [hdefined]
    cases read
    · refine Set.union_eq_left.2 fun v hv => ?_
      cases (htarget v hv).1
    · exact Set.union_empty _
  exact ⟨hlow, le_rfl, fun _ _ => rfl, hsame ▸ subset_rfl, fun _ _ hd => hsame ▸ hd,
    fun _ _ _ => rfl, fun _ hm => hm⟩

/-! ## Nodes -/

theorem append_eq_ok {i : Except String Instruction} :
    c.append i = .ok c' ↔ ∃ j, i = .ok j ∧ c' = { c with builder := c.builder ++ [j] } := by
  constructor
  · intro h
    obtain ⟨j, hj, h⟩ := bind_eq_ok.1 h
    exact ⟨j, hj, (pure_eq_ok.1 h).symm⟩
  · rintro ⟨j, rfl, rfl⟩
    rfl

variable {n : NodeId} {node : Node} {mat : NodeId → Context → Except String Context}

/-- `mat` materialises the nodes before `n`. -/
def Materialises (g : Graph) (old : List Instruction) (lo : ℕ) (n : NodeId)
    (mat : NodeId → Context → Except String Context) : Prop :=
  ∀ m < n, ∀ c c' wd code, mat m c = .ok c' → Lowering g old lo wd c code → Vacant n c →
    ∃ wd' code', Lowering g old lo wd' c' code' ∧ Vacant n c' ∧
      Runs c.next n c c' wd wd' code code' ∧ m ∈ c'.materialised

/-- The register of a port that a node reads. -/
theorem port_spec (hmat : Materialises g old lo n mat) (hnode : g.nodes[n]? = some node) {p : Port}
    (hp : p ∈ node.operands) {v : ℕ} (h : mat p.owner c = .ok c') (hv : c'.vregForPort p = .ok v)
    (hlow : Lowering g old lo wd c code) (hvacant : Vacant n c) :
    ∃ wd' code', Lowering g old lo wd' c' code' ∧ Vacant n c' ∧
      Runs c.next n c c' wd wd' code code' ∧ v ∈ Defined defs code' ∧
        wd' v = regWidth p.type.elementWidth := by
  obtain ⟨wd', code', hlow', hvacant', hruns, hdone⟩ :=
    hmat p.owner (g.operand_lt n node hnode p hp) c c' wd code h hlow hvacant
  have hport : c'.ports (p.owner, p.kind) = some v := by
    unfold Context.vregForPort at hv
    split at hv
    · next u hu => rw [hu, Except.ok.inj hv]
    · cases hv
  obtain ⟨-, m, vt, hm, hvt, hw⟩ := hlow'.ports _ _ _ hport
  refine ⟨wd', code', hlow', hvacant', hruns, hlow'.done _ hdone _ _ hport, ?_⟩
  rw [g.typed n node hnode p hp m vt hm hvt, hw]

theorem vregOperand_spec (hmat : Materialises g old lo n mat) (hnode : g.nodes[n]? = some node)
    {p : Port} (hp : p ∈ node.operands) {o : Operand} (h : vregOperand mat p c = .ok (o, c'))
    (hlow : Lowering g old lo wd c code) (hvacant : Vacant n c) :
    ∃ wd' code', Lowering g old lo wd' c' code' ∧ Vacant n c' ∧
      Runs c.next n c c' wd wd' code code' ∧ o.Readable wd' (Defined defs code') := by
  obtain ⟨c₁, hc, h⟩ := bind_eq_ok.1 h
  obtain ⟨v, hv, h⟩ := bind_eq_ok.1 h
  obtain ⟨rfl, rfl⟩ := Prod.mk.inj (pure_eq_ok.1 h)
  obtain ⟨wd', code', hlow', hvacant', hruns, hdef, hw⟩ :=
    port_spec hmat hnode hp hc hv hlow hvacant
  refine ⟨wd', code', hlow', hvacant', hruns, sized_vreg hw, ?_, nofun⟩
  rintro u (hu | ⟨d, gs, hu⟩)
  · obtain rfl : v = u := Reg.vreg.inj (OperandKind.reg.inj hu)
    exact hdef
  · cases hu

/-- What the code of a node does. -/
def Emits (g : Graph) (old : List Instruction) (lo : ℕ) (n : NodeId) (c c' : Context)
    (wd : ℕ → ℕ) (code : List Instruction) : Prop :=
  ∃ wd' code', Lowering g old lo wd' c' code' ∧ Vacant n c' ∧
    Runs c.next (n + 1) c c' wd wd' code code' ∧
      ∀ k v, c'.ports (n, k) = some v → v ∈ Defined defs code'

theorem Vacant.allocVreg (h : Vacant n c) (k : PortKind) : Vacant n (c.allocVreg n k).2 := by
  intro m hm hnot k'
  exact (allocVreg_ports_of_ne (fun he => hm.ne (Prod.mk.inj he).1) c).trans (h m hm hnot k')

/-- A node with one port. -/
theorem emits_value (hlow : Lowering g old lo wd c code) (hvacant : Vacant (n + 1) c)
    (hn : n ∉ c.materialised) (hnode : g.nodes[n]? = some node) {vt : ValueType}
    (hvt : portType node .value = some vt)
    (h : ∀ wd₁, Lowering g old lo wd₁ (c.allocVreg n .value).2 code →
      Pending lo wd₁ (c.allocVreg n .value).2 code (c.allocVreg n .value).1 vt.elementWidth →
        Vacant n (c.allocVreg n .value).2 →
          ∃ wd' code', Lowering g old lo wd' c' code' ∧ Vacant n c' ∧
            Runs c.next n (c.allocVreg n .value).2 c' wd₁ wd' code code' ∧
              (c.allocVreg n .value).1 ∈ Defined defs code') :
    Emits g old lo n c c' wd code := by
  obtain ⟨wd₁, hlow₁, hpending, hruns₁⟩ := hlow.allocVreg hn hnode hvt
  have hvacant₁ : Vacant n c := fun m hm => hvacant m (hm.trans (Nat.lt_succ_self n))
  obtain ⟨wd', code', hlow', hvacant', hruns, hdef⟩ := h wd₁ hlow₁ hpending (hvacant₁.allocVreg _)
  refine ⟨wd', code', hlow', hvacant', hruns₁.trans (hruns.mono le_rfl (Nat.le_succ n)),
    fun k v hv => ?_⟩
  rw [hruns.ports n le_rfl k] at hv
  by_cases hk : k = .value
  · subst hk
    rw [← Option.some.inj ((allocVreg_ports_self n .value c).symm.trans hv)]
    exact hdef
  · have hkey : (n, k) ≠ (n, .value) := fun he => hk (Prod.mk.inj he).2
    have hv' : c.ports (n, k) = some v := (allocVreg_ports_of_ne hkey c).symm.trans hv
    rw [hvacant n (Nat.lt_succ_self n) hn k] at hv'
    cases hv'

theorem readable_imm (k w : ℕ) (known : Set ℕ) :
    (⟨.imm k, w, false, false⟩ : Operand).Readable wd known := by
  refine ⟨sized_imm k, ?_, nofun⟩
  rintro v (hv | ⟨d, gs, hv⟩) <;> cases hv

theorem readable_guestreg (w off : ℕ) (known : Set ℕ) :
    (Operand.guestreg w off).Readable wd known := by
  refine ⟨sized_guestreg off, ?_, nofun⟩
  rintro v (hv | ⟨d, gs, hv⟩) <;> cases hv

theorem readable_guestmem {v w : ℕ} {known : Set ℕ} (hw : 32 ≤ wd v) (hv : v ∈ known) :
    (Operand.guestmem v w).Readable wd known := by
  refine ⟨sized_guestmem hw, ?_, nofun⟩
  rintro u (hu | ⟨d, gs, hu⟩) <;> cases hu
  exact hv

/-- A node whose code is one move from a source that needs no other node. -/
theorem emits_move {w : ℕ} {o : Operand} (hlow : Lowering g old lo wd c code)
    (hvacant : Vacant (n + 1) c) (hn : n ∉ c.materialised) (hnode : g.nodes[n]? = some node)
    {vt : ValueType} (hvt : portType node .value = some vt)
    (hw : regWidth w = regWidth vt.elementWidth) (ho : ∀ wd, o.Readable wd (Defined defs code))
    (h : (c.allocVreg n .value).2.append (Instruction.mov (.vreg (c.allocVreg n .value).1 w) o) =
      .ok c') :
    Emits g old lo n c c' wd code := by
  obtain ⟨i, hi, rfl⟩ := append_eq_ok.1 h
  refine emits_value hlow hvacant hn hnode hvt fun wd₁ hlow₁ hpending hvacant₁ => ?_
  have hpending' : Pending lo wd₁ (c.allocVreg n .value).2 code (c.allocVreg n .value).1 w :=
    ⟨hpending.undefined, hpending.lo_le, hpending.lt_next, hpending.width.trans hw.symm⟩
  obtain ⟨hlow', hdef, hruns, -⟩ := hlow₁.define hpending' (is_mov hi)
    (fun a ha => List.mem_singleton.1 ha ▸ ho wd₁) n
  exact ⟨wd₁, _, hlow', hvacant₁, hruns _ le_rfl, hdef⟩

theorem emits_readReg {vt : ValueType} {off idx : ℕ} {name : String}
    (hlow : Lowering g old lo wd c code) (hvacant : Vacant (n + 1) c) (hn : n ∉ c.materialised)
    (hnode : g.nodes[n]? = some (.readReg vt off idx name))
    (h : materialiseReadReg n vt off c = .ok c') : Emits g old lo n c c' wd code :=
  emits_move hlow hvacant hn hnode rfl (regWidth_regWidth _) (fun _ => readable_guestreg _ _ _) h

theorem emits_constant {vt : ValueType} {val : ℕ} (hlow : Lowering g old lo wd c code)
    (hvacant : Vacant (n + 1) c) (hn : n ∉ c.materialised)
    (hnode : g.nodes[n]? = some (.constant vt val)) (h : materialiseConstant n vt val c = .ok c') :
    Emits g old lo n c c' wd code :=
  emits_move hlow hvacant hn hnode rfl rfl (fun _ => readable_imm _ _ _) h

theorem emits_readPc (hlow : Lowering g old lo wd c code) (hvacant : Vacant (n + 1) c)
    (hn : n ∉ c.materialised) (hnode : g.nodes[n]? = some .readPc)
    (h : materialiseReadPc n c = .ok c') : Emits g old lo n c c' wd code :=
  emits_move hlow hvacant hn hnode rfl rfl (fun _ => readable_imm _ _ _) h

theorem emits_cast (hmat : Materialises g old lo n mat) {op : CastOp} {vt : ValueType}
    {source : Port} {convert : FpConvertType} (hlow : Lowering g old lo wd c code)
    (hvacant : Vacant (n + 1) c) (hn : n ∉ c.materialised)
    (hnode : g.nodes[n]? = some (.cast op vt source convert))
    (h : materialiseCast mat n op vt source c = .ok c') : Emits g old lo n c c' wd code := by
  obtain ⟨f, hf, h⟩ := bind_eq_ok.1 h
  obtain ⟨⟨o, c₂⟩, ho, h⟩ := bind_eq_ok.1 h
  obtain ⟨i, hi, rfl⟩ := append_eq_ok.1 h
  refine emits_value hlow hvacant hn hnode rfl fun wd₁ hlow₁ hpending hvacant₁ => ?_
  obtain ⟨wd₂, code₂, hlow₂, hvacant₂, hruns₂, hread⟩ :=
    vregOperand_spec hmat hnode List.mem_cons_self ho hlow₁ hvacant₁
  have hpending₂ := hpending.of_runs hruns₂ hpending.lt_next
  obtain ⟨hlow', hdef, hruns, -⟩ := hlow₂.define hpending₂ (is_castOp hf hi)
    (fun a ha => List.mem_singleton.1 ha ▸ hread) n
  exact ⟨wd₂, _, hlow', hvacant₂, (hruns₂.mono (Nat.le_succ _) le_rfl).trans (hruns _ le_rfl), hdef⟩

theorem emits_readMem (hmat : Materialises g old lo n mat) {vt : ValueType} {address : Port}
    (hlow : Lowering g old lo wd c code) (hvacant : Vacant (n + 1) c) (hn : n ∉ c.materialised)
    (hnode : g.nodes[n]? = some (.readMem vt address))
    (h : materialiseReadMem mat n vt address c = .ok c') : Emits g old lo n c c' wd code := by
  obtain ⟨c₂, hc, h⟩ := bind_eq_ok.1 h
  obtain ⟨u, hu, h⟩ := bind_eq_ok.1 h
  obtain ⟨i, hi, rfl⟩ := append_eq_ok.1 h
  refine emits_value hlow hvacant hn hnode rfl fun wd₁ hlow₁ hpending hvacant₁ => ?_
  obtain ⟨wd₂, code₂, hlow₂, hvacant₂, hruns₂, hdef, hw⟩ :=
    port_spec hmat hnode List.mem_cons_self hc hu hlow₁ hvacant₁
  have hwide : 32 ≤ wd₂ u := by
    rw [hw, g.address n address (.inl ⟨vt, hnode⟩)]
    decide
  have hpending₂ := hpending.of_runs hruns₂ hpending.lt_next
  obtain ⟨hlow', hdef', hruns, -⟩ := hlow₂.define hpending₂ (is_mov hi)
    (fun a ha => List.mem_singleton.1 ha ▸ readable_guestmem hwide hdef) n
  exact ⟨wd₂, _, hlow', hvacant₂, (hruns₂.mono (Nat.le_succ _) le_rfl).trans (hruns _ le_rfl),
    hdef'⟩

/-- A node without ports. -/
theorem emits_effect (hvacant : Vacant (n + 1) c) (hn : n ∉ c.materialised) {wd' : ℕ → ℕ}
    {code' : List Instruction} (hlow' : Lowering g old lo wd' c' code') (hvacant' : Vacant n c')
    (hruns : Runs c.next n c c' wd wd' code code') : Emits g old lo n c c' wd code := by
  refine ⟨wd', code', hlow', hvacant', hruns.mono le_rfl (Nat.le_succ n), fun k v hv => ?_⟩
  rw [hruns.ports n le_rfl k, hvacant n (Nat.lt_succ_self n) hn k] at hv
  cases hv

theorem Vacant.pred (h : Vacant (n + 1) c) : Vacant n c :=
  fun m hm => h m (hm.trans (Nat.lt_succ_self n))

/-- A node whose code is one move to a place outside the virtual registers. -/
theorem emits_store (hmat : Materialises g old lo n mat) {value : Port} {dst o : Operand}
    {c₂ : Context} (hlow : Lowering g old lo wd c code) (hvacant : Vacant (n + 1) c)
    (hn : n ∉ c.materialised) (hnode : g.nodes[n]? = some node) (hp : value ∈ node.operands)
    (hdst : ∀ wd, dst.Sized wd) (htarget : dst.target = ∅) (hbases : dst.bases = ∅)
    (ho : vregOperand mat value c = .ok (o, c₂)) (h : c₂.append (Instruction.mov dst o) = .ok c') :
    Emits g old lo n c c' wd code := by
  obtain ⟨i, hi, rfl⟩ := append_eq_ok.1 h
  obtain ⟨wd₂, code₂, hlow₂, hvacant₂, hruns₂, hread⟩ :=
    vregOperand_spec hmat hnode hp ho hlow hvacant.pred
  obtain ⟨hlow', hruns⟩ := hlow₂.effect (is_mov hi) (hdst wd₂) (hbases ▸ Set.empty_subset _)
    (fun v hv => by rw [htarget] at hv; cases hv)
    (fun a ha => List.mem_singleton.1 ha ▸ hread) c.next n
  exact emits_effect hvacant hn hlow' hvacant₂ (hruns₂.trans hruns)

theorem target_guestreg (w off : ℕ) : (Operand.guestreg w off).target = ∅ :=
  Set.eq_empty_of_forall_notMem fun _ => nofun

theorem bases_guestreg (w off : ℕ) : (Operand.guestreg w off).bases = ∅ :=
  Set.eq_empty_of_forall_notMem fun _ ⟨_, _, hu⟩ => by cases hu

/-- A node whose code is one instruction on a guest register and a constant. -/
theorem emits_guestreg {i : Instruction} {read : Bool} {k w w' off : ℕ}
    (hlow : Lowering g old lo wd c code) (hvacant : Vacant (n + 1) c) (hn : n ∉ c.materialised)
    (hi : i.Is read (.guestreg w off) [⟨.imm k, w', false, false⟩]) :
    Emits g old lo n c { c with builder := c.builder ++ [i] } wd code := by
  obtain ⟨hlow', hruns⟩ := hlow.effect hi (sized_guestreg off)
    (bases_guestreg w off ▸ Set.empty_subset _)
    (fun v hv => by rw [target_guestreg] at hv; cases hv)
    (fun a ha => List.mem_singleton.1 ha ▸ readable_imm _ _ _) c.next n
  exact emits_effect hvacant hn hlow' hvacant.pred hruns

theorem emits_writeReg (hmat : Materialises g old lo n mat) {off idx : ℕ} {name : String}
    {value : Port} (hlow : Lowering g old lo wd c code) (hvacant : Vacant (n + 1) c)
    (hn : n ∉ c.materialised) (hnode : g.nodes[n]? = some (.writeReg off idx name value))
    (h : materialiseWriteReg g.nodes mat off value c = .ok c') :
    Emits g old lo n c c' wd code := by
  unfold materialiseWriteReg at h
  split at h
  · obtain ⟨i, hi, rfl⟩ := append_eq_ok.1 h
    exact emits_guestreg hlow hvacant hn (is_std (by decide) hi)
  · split at h
    · obtain ⟨i, hi, rfl⟩ := append_eq_ok.1 h
      exact emits_guestreg hlow hvacant hn (is_mov hi)
    · obtain ⟨⟨o, c₂⟩, ho, h⟩ := bind_eq_ok.1 h
      exact emits_store hmat hlow hvacant hn hnode List.mem_cons_self
        (fun _ => sized_guestreg off) (target_guestreg _ _) (bases_guestreg _ _) ho h

theorem emits_writePc (hmat : Materialises g old lo n mat) {value : Port} {t : BrType} {k : ℕ}
    (hlow : Lowering g old lo wd c code) (hvacant : Vacant (n + 1) c)
    (hn : n ∉ c.materialised) (hnode : g.nodes[n]? = some (.writePc value t k))
    (h : materialiseWritePc mat value c = .ok c') : Emits g old lo n c c' wd code := by
  obtain ⟨⟨o, c₂⟩, ho, h⟩ := bind_eq_ok.1 h
  exact emits_store hmat hlow hvacant hn hnode List.mem_cons_self (fun _ => sized_r15)
    (Set.eq_empty_of_forall_notMem fun _ => nofun)
    (Set.eq_empty_of_forall_notMem fun _ ⟨_, _, hu⟩ => by cases hu) ho h

theorem emits_writeMem (hmat : Materialises g old lo n mat) {address value : Port}
    (hlow : Lowering g old lo wd c code) (hvacant : Vacant (n + 1) c)
    (hn : n ∉ c.materialised) (hnode : g.nodes[n]? = some (.writeMem address value))
    (h : materialiseWriteMem mat address value c = .ok c') : Emits g old lo n c c' wd code := by
  obtain ⟨c₁, hc, h⟩ := bind_eq_ok.1 h
  obtain ⟨u, hu, h⟩ := bind_eq_ok.1 h
  obtain ⟨⟨o, c₂⟩, ho, h⟩ := bind_eq_ok.1 h
  obtain ⟨i, hi, rfl⟩ := append_eq_ok.1 h
  obtain ⟨wd₁, code₁, hlow₁, hvacant₁, hruns₁, hdef, hw⟩ :=
    port_spec hmat hnode List.mem_cons_self hc hu hlow hvacant.pred
  obtain ⟨wd₂, code₂, hlow₂, hvacant₂, hruns₂, hread⟩ :=
    vregOperand_spec hmat hnode (List.mem_cons_of_mem _ List.mem_cons_self) ho hlow₁ hvacant₁
  have hlt : u < c₁.next := (hlow₁.bounds u hdef).2
  have hwide : 32 ≤ wd₂ u := by
    rw [hruns₂.width u hlt, hw, g.address n address (.inr ⟨value, hnode⟩)]
    decide
  have hbases : (Operand.guestmem u value.type.elementWidth).bases ⊆ Defined defs code₂ := by
    rintro v ⟨d, gs, hv⟩
    cases hv
    exact hruns₂.defined hdef
  obtain ⟨hlow', hruns⟩ := hlow₂.effect (is_mov hi) (sized_guestmem hwide) hbases
    (fun v hv => by cases hv) (fun a ha => List.mem_singleton.1 ha ▸ hread) c.next n
  exact emits_effect hvacant hn hlow' hvacant₂
    ((hruns₁.trans (hruns₂.mono hruns₁.next le_rfl)).trans hruns)

/-- Take a register for each of several ports. -/
def Context.allocVregs (n : NodeId) : List (PortKind × ValueType) → Context → Context
  | [], c => c
  | (k, _) :: ks, c => Context.allocVregs n ks (c.allocVreg n k).2

theorem Lowering.allocVregs {node : Node} (hnode : g.nodes[n]? = some node) :
    ∀ {ks : List (PortKind × ValueType)} {wd : ℕ → ℕ} {c : Context},
      (∀ q ∈ ks, portType node q.1 = some q.2) → n ∉ c.materialised → Vacant n c →
        Lowering g old lo wd c code → ∃ wd', Lowering g old lo wd' (c.allocVregs n ks) code ∧
          Vacant n (c.allocVregs n ks) ∧
          Runs c.next (n + 1) c (c.allocVregs n ks) wd wd' code code ∧
          (∀ (j : ℕ) q, ks[j]? = some q →
            Pending lo wd' (c.allocVregs n ks) code (c.next + j) q.2.elementWidth) ∧
          ∀ k v, (c.allocVregs n ks).ports (n, k) = some v →
            c.ports (n, k) = some v ∨ ∃ j < ks.length, v = c.next + j
  | [], wd, c, _, _, hvacant, hlow =>
    ⟨wd, hlow, hvacant, .refl .., by simp, fun _ _ hv => .inl hv⟩
  | (k, vt) :: ks, wd, c, htypes, hn, hvacant, hlow => by
    obtain ⟨wd₁, hlow₁, hpending, hruns₁⟩ :=
      hlow.allocVreg (k := k) hn hnode (htypes _ List.mem_cons_self)
    obtain ⟨wd', hlow', hvacant', hruns, hpendings, hports⟩ := Lowering.allocVregs hnode
      (fun q hq => htypes q (List.mem_cons_of_mem _ hq))
      (show n ∉ (c.allocVreg n k).2.materialised from hn) (hvacant.allocVreg k) hlow₁
    have hnext : (c.allocVreg n k).2.next = c.next + 1 := rfl
    rw [hnext] at hruns hpendings hports
    refine ⟨wd', hlow', hvacant', hruns₁.trans (hruns.mono (Nat.le_succ _) le_rfl),
      fun j q hq => ?_, fun k' v hv => ?_⟩
    · cases j with
      | zero =>
        obtain rfl := Option.some.inj hq
        exact hpending.of_runs hruns (Nat.lt_succ_self _)
      | succ j =>
        have hj := hpendings j q hq
        rwa [show c.next + 1 + j = c.next + (j + 1) by omega] at hj
    · rcases hports k' v hv with hv | ⟨j, hj, rfl⟩
      · by_cases hk : k' = k
        · subst hk
          refine .inr ⟨0, by simp, ?_⟩
          exact (Option.some.inj ((allocVreg_ports_self n k' c).symm.trans hv)).symm
        · have hkey : (n, k') ≠ (n, k) := fun he => hk (Prod.mk.inj he).2
          exact .inl ((allocVreg_ports_of_ne hkey c).symm.trans hv)
      · exact .inr ⟨j + 1, by simpa using hj, by omega⟩

/-- Five registers are taken, the operands are materialised, and then each register is defined. -/
theorem emits_binaryArith (hmat : Materialises g old lo n mat) {op : BinaryArithOp} {lhs rhs : Port}
    (hlow : Lowering g old lo wd c code) (hvacant : Vacant (n + 1) c) (hn : n ∉ c.materialised)
    (hnode : g.nodes[n]? = some (.binaryArith op lhs rhs))
    (h : materialiseBinaryArith mat n op lhs rhs c = .ok c') : Emits g old lo n c c' wd code := by
  obtain ⟨⟨l, c₆⟩, hl, h⟩ := bind_eq_ok.1 h
  obtain ⟨c₇, hmov, h⟩ := bind_eq_ok.1 h
  obtain ⟨f, hf, h⟩ := bind_eq_ok.1 h
  obtain ⟨⟨r, c₈⟩, hr, h⟩ := bind_eq_ok.1 h
  obtain ⟨c₉, hop, h⟩ := bind_eq_ok.1 h
  obtain ⟨c₁₀, hz, h⟩ := bind_eq_ok.1 h
  obtain ⟨c₁₁, ho, h⟩ := bind_eq_ok.1 h
  obtain ⟨c₁₂, hc, h⟩ := bind_eq_ok.1 h
  obtain ⟨imov, himov, rfl⟩ := append_eq_ok.1 hmov
  obtain ⟨iop, hiop, rfl⟩ := append_eq_ok.1 hop
  obtain ⟨iz, hiz, rfl⟩ := append_eq_ok.1 hz
  obtain ⟨io, hio, rfl⟩ := append_eq_ok.1 ho
  obtain ⟨ic, hic, rfl⟩ := append_eq_ok.1 hc
  obtain ⟨is, his, rfl⟩ := append_eq_ok.1 h
  let ks : List (PortKind × ValueType) :=
    [(.value, lhs.type), (.zero, .u 1), (.negative, .u 1), (.overflow, .u 1), (.carry, .u 1)]
  have htypes : ∀ q ∈ ks, portType (.binaryArith op lhs rhs) q.1 = some q.2 := by
    simp [ks, portType]
  obtain ⟨wd₅, hlow₅, hvacant₅, hruns₅, hpendings, hports⟩ :=
    Lowering.allocVregs hnode htypes hn hvacant.pred hlow
  generalize hc₅ : c.allocVregs n ks = c₅ at hlow₅ hvacant₅ hruns₅ hpendings hports
  replace hl : vregOperand mat lhs c₅ = .ok (l, c₆) := hc₅ ▸ hl
  have hnext : c.next + 5 ≤ c₅.next := hc₅ ▸ le_rfl
  -- The left operand, moved to the register of the value.
  obtain ⟨wd₆, code₆, hlow₆, hvacant₆, hruns₆, hread⟩ :=
    vregOperand_spec hmat hnode List.mem_cons_self hl hlow₅ hvacant₅
  have hpend₆ : ∀ (j : ℕ) q, ks[j]? = some q →
      Pending lo wd₆ c₆ code₆ (c.next + j) q.2.elementWidth := by
    intro j q hq
    have hj : j < 5 := (List.getElem?_eq_some_iff.1 hq).1
    exact (hpendings j q hq).of_runs hruns₆ (by omega)
  obtain ⟨hlow₇, hdef₇, hruns₇, hkeep₇⟩ := hlow₆.define (hpend₆ 0 _ rfl) (is_mov himov)
    (fun a ha => List.mem_singleton.1 ha ▸ hread) n
  -- The right operand, and the operation.
  obtain ⟨wd₈, code₈, hlow₈, hvacant₈, hruns₈, hread₈⟩ :=
    vregOperand_spec hmat hnode (List.mem_cons_of_mem _ List.mem_cons_self) hr hlow₇ hvacant₆
  have hlt : ∀ j < 5, c.next + j < c₆.next := fun j hj => by
    have := hruns₆.next
    omega
  have hpend₈ : ∀ (j : ℕ) q, j ≠ 0 → ks[j]? = some q →
      Pending lo wd₈ c₈ code₈ (c.next + j) q.2.elementWidth := by
    intro j q hj0 hq
    have hj : j < 5 := (List.getElem?_eq_some_iff.1 hq).1
    exact (hkeep₇ _ _ (by omega) (hpend₆ j q hq)).of_runs hruns₈ (hlt j hj)
  have hvalue : ∀ v ∈ (Operand.vreg c.next lhs.type.elementWidth).target, true = true ∧
      v ∈ Defined defs code₈ := by
    rintro v hv
    obtain rfl : c.next = v := Reg.vreg.inj (OperandKind.reg.inj hv)
    exact ⟨rfl, hruns₈.defined hdef₇⟩
  have hsized : (Operand.vreg c.next lhs.type.elementWidth).Sized wd₈ :=
    sized_vreg ((hruns₈.width _ (hlt 0 (by decide))).trans (hpend₆ 0 _ rfl).width)
  obtain ⟨hlow₉, hruns₉⟩ := hlow₈.effect (is_arithOp hf hiop) hsized
    (fun v ⟨_, _, hv⟩ => by cases hv) hvalue (fun a ha => List.mem_singleton.1 ha ▸ hread₈)
    (c.next + 5) n
  have hpend₉ := fun j q hj0 hq => (hpend₈ j q hj0 hq).of_runs hruns₉
    (Nat.add_lt_add_left (List.getElem?_eq_some_iff.1 hq).1 _)
  -- The flags.
  obtain ⟨hlowz, hdefz, hrunsz, hkeepz⟩ :=
    hlow₉.define (hpend₉ 1 _ (by decide) rfl) (is_setcc hiz) nofun n
  have ho₁ := hkeepz _ _ (by omega) (hpend₉ 3 _ (by decide) rfl)
  have hc₁ := hkeepz _ _ (by omega) (hpend₉ 4 _ (by decide) rfl)
  have hs₁ := hkeepz _ _ (by omega) (hpend₉ 2 _ (by decide) rfl)
  obtain ⟨hlowo, hdefo, hrunso, hkeepo⟩ := hlowz.define ho₁ (is_setcc hio) nofun n
  have hc₂ := hkeepo _ _ (by omega) hc₁
  have hs₂ := hkeepo _ _ (by omega) hs₁
  obtain ⟨hlowc, hdefc, hrunsc, hkeepc⟩ := hlowo.define hc₂ (is_setcc hic) nofun n
  have hs₃ := hkeepc _ _ (by omega) hs₂
  obtain ⟨hlows, hdefs, hrunss, -⟩ := hlowc.define hs₃ (is_setcc his) nofun n
  replace hrunso := hrunso c.next (by omega)
  replace hrunsc := hrunsc c.next (by omega)
  replace hrunss := hrunss c.next (by omega)
  have hflags := (hrunsz c.next (by omega)).trans (hrunso.trans (hrunsc.trans hrunss))
  have hops := (hruns₈.mono (hlt 0 (by decide)).le le_rfl).trans
    (hruns₉.mono (Nat.add_le_add_left (by decide) _) le_rfl)
  have hc₅₆ : c.next ≤ c₅.next := by omega
  have hall := ((hruns₆.mono hc₅₆ le_rfl).trans (hruns₇ c.next le_rfl)).trans (hops.trans hflags)
  refine ⟨wd₈, _, hlows, hvacant₈, hruns₅.trans (hall.mono le_rfl (Nat.le_succ n)),
    fun k v hv => ?_⟩
  rw [hall.ports n le_rfl k] at hv
  rcases hports k v hv with hv | ⟨j, hj, rfl⟩
  · rw [hvacant n (Nat.lt_succ_self n) hn k] at hv
    cases hv
  · have hj' : j = 0 ∨ j = 1 ∨ j = 2 ∨ j = 3 ∨ j = 4 := by
      change j < 5 at hj
      omega
    rcases hj' with rfl | rfl | rfl | rfl | rfl
    · exact hflags.defined (hops.defined hdef₇)
    · exact hrunss.defined (hrunsc.defined (hrunso.defined hdefz))
    · exact hdefs
    · exact hrunss.defined (hrunsc.defined hdefo)
    · exact hrunss.defined hdefc

theorem emits_node (hmat : Materialises g old lo n mat) (hlow : Lowering g old lo wd c code)
    (hvacant : Vacant (n + 1) c) (hn : n ∉ c.materialised)
    (h : materialiseNode g.nodes mat n g.nodes[n]? c = .ok c') : Emits g old lo n c c' wd code := by
  rcases hnode : g.nodes[n]? with _ | node
  · rw [hnode] at h
    cases h
  rw [hnode] at h
  cases node with
  | readReg => exact emits_readReg hlow hvacant hn hnode h
  | binaryArith => exact emits_binaryArith hmat hlow hvacant hn hnode h
  | cast => exact emits_cast hmat hlow hvacant hn hnode h
  | writeReg => exact emits_writeReg hmat hlow hvacant hn hnode h
  | constant => exact emits_constant hlow hvacant hn hnode h
  | readMem => exact emits_readMem hmat hlow hvacant hn hnode h
  | writeMem => exact emits_writeMem hmat hlow hvacant hn hnode h
  | readPc => exact emits_readPc hlow hvacant hn hnode h
  | writePc => exact emits_writePc hmat hlow hvacant hn hnode h
  | _ => cases h

/-- The code of a node and of the nodes it reads. The induction is on the depth. -/
theorem materialise_spec : ∀ {depth : ℕ} {n : NodeId} {c c' : Context} {wd : ℕ → ℕ}
    {code : List Instruction}, materialise g.nodes depth n c = .ok c' →
      Lowering g old lo wd c code → Vacant (n + 1) c →
        ∃ wd' code', Lowering g old lo wd' c' code' ∧ Vacant (n + 1) c' ∧
          Runs c.next (n + 1) c c' wd wd' code code' ∧ n ∈ c'.materialised
  | 0, _, _, _, _, _, h, _, _ => by cases h
  | depth + 1, n, c, c', wd, code, h, hlow, hvacant => by
    unfold materialise at h
    split at h
    · next hn =>
      obtain rfl := Except.ok.inj h
      exact ⟨wd, code, hlow, hvacant, .refl .., hn⟩
    · next hn =>
      have hmat : Materialises g old lo n (materialise g.nodes depth) := by
        intro m hm c₁ c₂ wd₁ code₁ h₁ hlow₁ hvacant₁
        obtain ⟨wd₂, code₂, hlow₂, hvacant₂, hruns, hdone⟩ := materialise_spec h₁ hlow₁
          fun x hx => hvacant₁ x (hx.trans_le hm)
        exact ⟨wd₂, code₂, hlow₂, hvacant₁.of_runs hruns hvacant₂, hruns.mono le_rfl hm, hdone⟩
      obtain ⟨c₁, hnode, h⟩ := bind_eq_ok.1 h
      obtain rfl := pure_eq_ok.1 h
      obtain ⟨wd', code', hlow', hvacant', hruns, hports⟩ := emits_node hmat hlow hvacant hn hnode
      refine ⟨wd', code', ⟨hlow'.builder, hlow'.closed, hlow'.fresh, hlow'.fits, hlow'.lo_le,
        hlow'.bounds, hlow'.ports, fun m hm => ?_⟩, fun m hm hnot => ?_,
        ⟨hruns.next, hruns.width, hruns.defined, hruns.new, hruns.ports,
          fun m hm => List.mem_cons_of_mem n (hruns.materialised hm)⟩, List.mem_cons_self⟩
      · rcases List.mem_cons.1 hm with rfl | hm
        · exact hports
        · exact hlow'.done m hm
      · have hne : m ≠ n := fun he => hnot (he ▸ List.mem_cons_self)
        exact hvacant' m ((Nat.lt_succ_iff_lt_or_eq.1 hm).resolve_right hne) fun hm' =>
          hnot (List.mem_cons_of_mem n hm')

/-- What holds of a context between two guest instructions. -/
def Midway (g : Graph) (old : List Instruction) (lo : ℕ) (c : Context) : Prop :=
  (∃ wd code, Lowering g old lo wd c code) ∧ ∀ n, Vacant n c

theorem midway_lowerPacket {p : GuestInstr} (h : lowerPacket g.nodes p c = .ok c')
    (hc : Midway g old lo c) : Midway g old lo c' := by
  obtain ⟨address, actions⟩ := p
  have hstart : Midway g old lo { c with thisPc := address } := by
    obtain ⟨⟨wd, code, hlow⟩, hvacant⟩ := hc
    exact ⟨⟨wd, code, hlow.builder, hlow.closed, hlow.fresh, hlow.fits, hlow.lo_le, hlow.bounds,
      hlow.ports, hlow.done⟩, hvacant⟩
  unfold lowerPacket at h
  generalize ({ c with thisPc := address } : Context) = c₁ at h hstart
  clear hc
  induction actions generalizing c₁ with
  | nil => exact pure_eq_ok.1 h ▸ hstart
  | cons n actions ih =>
    rw [List.foldlM_cons] at h
    obtain ⟨c₂, hn, h⟩ := bind_eq_ok.1 h
    obtain ⟨⟨wd, code, hlow⟩, hvacant⟩ := hstart
    obtain ⟨wd', code', hlow', hvacant', hruns, -⟩ := materialise_spec hn hlow (hvacant (n + 1))
    exact ih c₂ h ⟨⟨wd', code', hlow'⟩, fun m => (hvacant m).of_runs hruns hvacant'⟩

theorem lowering_lowerBlock {packets : List GuestInstr}
    (h : lowerBlock g.nodes packets c = .ok c') :
    ∃ wd code, Lowering g c.builder c.next wd c' code := by
  have hstart : Midway g c.builder c.next { c with materialised := [], ports := fun _ => none } :=
    ⟨⟨fun _ => 0, [], by simp, trivial, trivial, by simp, le_rfl, by simp [Defined], by simp,
      by simp⟩, fun _ _ _ _ _ => rfl⟩
  unfold lowerBlock at h
  generalize ({ c with materialised := [], ports := fun _ => none } : Context) = c₁ at h hstart
  suffices hend : Midway g c.builder c.next c' from hend.1
  induction packets generalizing c₁ with
  | nil => exact pure_eq_ok.1 h ▸ hstart
  | cons p packets ih =>
    rw [List.foldlM_cons] at h
    obtain ⟨c₂, hp, h⟩ := bind_eq_ok.1 h
    exact ih c₂ h (midway_lowerPacket hp hstart)

end Lowering

/-! ## Blocks -/

/-- All the builder holds has been allocated. -/
def Context.Allocated (c : Context) : Prop :=
  ∀ i ∈ c.builder, Settled i ∧ ∀ v ∈ defs i, v < c.next

/-- The code after a part of it has been allocated, if all of it has. -/
theorem allocate_right : ∀ {l r : List Instruction} {code' : List Instruction} {T : Alloc},
    allocate (l ++ r) = .ok (code', T) → ∃ r' T', allocate r = .ok (r', T')
  | [], _, code', T, h => ⟨code', T, h⟩
  | _ :: _, _, _, _, h => by
    obtain ⟨⟨code₁, T₁⟩, hrest, -⟩ := bind_eq_ok.1 h
    exact allocate_right hrest

/-- Allocation of the code of a block, after that of other blocks. -/
theorem allocate_lowering {g : Graph} {c c' : Context} {wd : ℕ → ℕ} {code code' : List Instruction}
    {T : Alloc} (hold : c.Allocated) (hlow : Lowering g c.builder c.next wd c' code)
    (h : allocate c'.builder = .ok (code', T)) :
    Sound c'.builder code' ∧ ∀ i ∈ code', Settled i ∧ ∀ v ∈ defs i, v < c'.next := by
  rw [hlow.builder] at h ⊢
  obtain ⟨new, T', hnew⟩ := allocate_right h
  have halloc := allocate_invariant hlow.fits hlow.fresh hnew
  have hlive := live_eq_empty hlow.closed
  have hunmapped : ∀ i ∈ c.builder, ∀ v ∈ defs i, T'.map v = none := by
    intro i hi v hv
    by_contra hmap
    rcases halloc.invariant.stale v hmap with hv' | hv'
    · rw [hlive] at hv'
      exact hv'
    · have hlow' := (hlow.bounds v hv').1
      have := (hold i hi).2 v hv
      omega
  have happend := allocate_append (fun i hi => (hold i hi).1) hunmapped hnew
  obtain ⟨rfl, rfl⟩ := Prod.mk.inj (Except.ok.inj (h.symm.trans happend))
  refine ⟨halloc.sound hlow.closed fun i hi => (hold i hi).1, fun i hi => ?_⟩
  rcases List.mem_append.1 hi with hi | hi
  · exact ⟨(hold i hi).1, fun v hv => ((hold i hi).2 v hv).trans_le hlow.lo_le⟩
  · obtain ⟨hset, hdefs⟩ := halloc.settled i hi
    have hmentioned := mentioned_subset_defined hlow.closed
    rw [Set.empty_union] at hmentioned
    exact ⟨hset, fun v hv => (hlow.bounds v (hmentioned (hdefs hv))).2⟩

theorem allocated_lowerBlocks : ∀ {blocks : List (Graph × List GuestInstr)} {c c' : Context},
    lowerBlocks blocks c = .ok c' → c.Allocated → c'.Allocated
  | [], _, _, h, hc => Except.ok.inj h ▸ hc
  | (g, packets) :: blocks, c, c', h, hc => by
    obtain ⟨c₁, hblock, h⟩ := bind_eq_ok.1 h
    obtain ⟨c₂, hend, h⟩ := bind_eq_ok.1 h
    refine allocated_lowerBlocks h ?_
    obtain ⟨wd, code, hlow⟩ := lowering_lowerBlock hblock
    obtain ⟨⟨code', T⟩, halloc, hend⟩ := bind_eq_ok.1 hend
    obtain ⟨i, hi, hend⟩ := bind_eq_ok.1 hend
    obtain rfl := pure_eq_ok.1 hend
    obtain rfl := Except.ok.inj hi
    obtain ⟨-, hcode⟩ := allocate_lowering hc hlow halloc
    intro j hj
    rcases List.mem_append.1 hj with hj | hj
    · exact hcode j hj
    · have hops : ∀ o ∈ j.operands, o.defReg = none ∧ o.useReg = none := by
        rcases List.mem_cons.1 hj with rfl | hj
        · intro o ho
          rcases List.mem_cons.1 ho with rfl | ho
          · exact ⟨rfl, rfl⟩
          · rw [List.mem_singleton.1 ho]
            exact ⟨rfl, rfl⟩
        · rw [List.mem_singleton.1 hj]
          nofun
      have halive : j.dead = false ∧ j.movesToSelf = false := by
        rcases List.mem_cons.1 hj with rfl | hj
        · exact ⟨rfl, rfl⟩
        · rw [List.mem_singleton.1 hj]
          exact ⟨rfl, rfl⟩
      refine ⟨⟨fun _ => ⟨halive.2, hops⟩, fun hdead => ?_⟩, ?_⟩
      · rw [halive.1] at hdead
        cases hdead
      · rintro v ⟨o, ho, hv⟩
        rw [(hops o ho).1] at hv
        cases hv

/-- Allocation of the code of any block, after any others, is sound. -/
theorem allocate_sound {blocks : List (Graph × List GuestInstr)} {g : Graph}
    {packets : List GuestInstr} {c c' : Context} {code' : List Instruction} {T : Alloc}
    (hblocks : lowerBlocks blocks .new = .ok c) (hblock : lowerBlock g.nodes packets c = .ok c')
    (h : allocate c'.builder = .ok (code', T)) : Sound c'.builder code' := by
  have hc : c.Allocated := allocated_lowerBlocks hblocks nofun
  obtain ⟨wd, code, hlow⟩ := lowering_lowerBlock hblock
  exact (allocate_lowering hc hlow h).1

/-- The nodes of `lea rax, [rcx + 5]`. -/
def leaGraph : Graph where
  nodes :=
    [.readReg (.u 64) 16 2 "RCX", .constant (.u 64) 5,
      .binaryArith .add ⟨.value, .u 64, 0⟩ ⟨.value, .u 64, 1⟩,
      .writeReg 8 1 "RAX" ⟨.value, .u 64, 2⟩]
  operand_lt := by
    intro n node hn o ho
    match n with
    | 0 | 1 => cases hn; cases ho
    | 2 => cases hn; revert o; decide
    | 3 => cases hn; revert o; decide
    | n + 4 => cases hn
  typed := by
    intro n node hn o ho m vt hm hvt
    match n with
    | 0 | 1 => cases hn; cases ho
    | 2 =>
      cases hn
      rcases List.mem_cons.1 ho with rfl | ho
      · cases hm; exact Option.some.inj hvt
      · obtain rfl := List.mem_singleton.1 ho
        cases hm; exact Option.some.inj hvt
    | 3 =>
      cases hn
      obtain rfl := List.mem_singleton.1 ho
      cases hm; exact Option.some.inj hvt
    | n + 4 => cases hn
  address := by
    rintro n a (⟨vt, hn⟩ | ⟨v, hn⟩)
    · match n with
      | 0 | 1 | 2 | 3 | n + 4 => cases hn
    · match n with
      | 0 | 1 | 2 | 3 | n + 4 => cases hn

/-- The code of it. -/
def leaCode : List Instruction :=
  [⟨.std .MOV 64 .r .m, [(Operand.vreg 5 64).asDef, (Operand.guestreg 64 16).asUse], false⟩,
    ⟨.std .MOV 64 .r .r, [(Operand.vreg 0 64).asDef, (Operand.vreg 5 64).asUse], false⟩,
    ⟨.std .MOV 64 .r .i, [(Operand.vreg 6 64).asDef, (Operand.imm 5 64).asUse], false⟩,
    ⟨.std .ADD 64 .r .r, [(Operand.vreg 0 64).asUseDef, (Operand.vreg 6 64).asUse], false⟩,
    ⟨.set .Z .r, [(Operand.vreg 1 8).asDef], false⟩,
    ⟨.set .O .r, [(Operand.vreg 3 8).asDef], false⟩,
    ⟨.set .C .r, [(Operand.vreg 4 8).asDef], false⟩,
    ⟨.set .S .r, [(Operand.vreg 2 8).asDef], false⟩,
    ⟨.std .MOV 64 .m .r, [(Operand.guestreg 64 8).asDef, (Operand.vreg 0 64).asUse], false⟩]

theorem lowerBlock_lea : ∃ c, lowerBlock leaGraph.nodes [(0, [3])] .new = .ok c ∧
    c.builder = leaCode :=
  ⟨_, rfl, rfl⟩

/-- What is left of it : the copy of `RCX` has become a `MOV` of `RAX` to itself. -/
def leaAllocated : List Instruction :=
  [⟨.std .MOV 64 .r .m, [(Operand.preg .AX 64).asDef, (Operand.guestreg 64 16).asUse], false⟩,
    ⟨.std .MOV 64 .r .r, [(Operand.preg .AX 64).asDef, (Operand.preg .AX 64).asUse], true⟩,
    ⟨.std .MOV 64 .r .i, [(Operand.preg .CX 64).asDef, (Operand.imm 5 64).asUse], false⟩,
    ⟨.std .ADD 64 .r .r, [(Operand.preg .AX 64).asUseDef, (Operand.preg .CX 64).asUse], false⟩,
    ⟨.set .Z .r, [(Operand.vreg 1 8).asDef], true⟩,
    ⟨.set .O .r, [(Operand.vreg 3 8).asDef], true⟩,
    ⟨.set .C .r, [(Operand.vreg 4 8).asDef], true⟩,
    ⟨.set .S .r, [(Operand.vreg 2 8).asDef], true⟩,
    ⟨.std .MOV 64 .m .r, [(Operand.guestreg 64 8).asDef, (Operand.preg .AX 64).asUse], false⟩]

theorem allocate_lea : ∃ T, allocate leaCode = .ok (leaAllocated, T) :=
  ⟨_, rfl⟩

theorem sound_lea : Sound leaCode leaAllocated := by
  obtain ⟨c, hblock, hcode⟩ := lowerBlock_lea
  obtain ⟨T, hT⟩ := allocate_lea
  have hsound := allocate_sound (show lowerBlocks [] .new = .ok .new from rfl) hblock
    (hcode ▸ hT)
  rwa [hcode] at hsound

/-- The instructions removed only define values that are not used. -/
def RemovedUnused (code code' : List Instruction) : Prop :=
  ∀ (k : ℕ) (i i' : Instruction), code[k]? = some i → code'[k]? = some i' → i.dead = false →
    i'.dead = true → Unused i (code.drop (k + 1))

/-- The copy that was removed defines the sum. -/
theorem not_removedUnused_lea : ¬∀ (g : Graph) (packets : List GuestInstr) (c : Context)
    (code' : List Instruction) (T : Alloc), lowerBlock g.nodes packets .new = .ok c →
      allocate c.builder = .ok (code', T) → RemovedUnused c.builder code' := by
  intro h
  obtain ⟨c, hblock, hcode⟩ := lowerBlock_lea
  obtain ⟨T, hT⟩ := allocate_lea
  have hunused := h _ _ c leaAllocated T hblock (hcode ▸ hT)
  rw [hcode] at hunused
  obtain ⟨v, hdefs, hlive, -⟩ := hunused 1 _ _ rfl rfl rfl rfl
  have hdef : (0 : ℕ) ∈ defs ⟨.std .MOV 64 .r .r, [(Operand.vreg 0 64).asDef,
      (Operand.vreg 5 64).asUse], false⟩ := ⟨_, List.mem_cons_self, rfl⟩
  rw [hdefs] at hdef
  obtain rfl := Set.mem_singleton_iff.1 hdef
  refine hlive (.inl ⟨.inr ⟨?_, ⟨_, List.mem_cons_self, rfl⟩⟩, ?_⟩)
  · rintro u ⟨o, ho, hu⟩
    rcases List.mem_cons.1 ho with rfl | ho
    · cases hu
    · rw [List.mem_singleton.1 ho] at hu
      cases hu
  · rintro ⟨o, ho, hu⟩
    rcases List.mem_cons.1 ho with rfl | ho
    · cases hu
    · rw [List.mem_singleton.1 ho] at hu
      cases hu

end Arancini.X86Host
