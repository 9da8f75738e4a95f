import Arancini.Riscv.BlockExit

/-!
# The exit protocol

Every exit gives back its exit code and the slot that belongs to it, or 0, whatever registers the
scan gave to other values : `A1` is not free after the definition of it, and `RA` never is. A block
with no exit at all writes no `A1`, and gives back what it was when the block was entered.
-/

namespace Arancini.Riscv.Builder

/-! ## The way out of a block -/

variable {Env : Type*}

/-- The run goes through the instruction at an index. -/
def Passes (m : Semantics Env) (code : List Instruction) (s : State Env) (p : ℕ) : Prop :=
  ∃ t, (m.machine code).Visits s t ∧ t.pc = p

/-- The run that ends so has gone back to where the code was called from, with the exit code in
`A0`, and with nothing or the chain slot of the exit it took in `A1`. -/
structure Right (ch : Chunk) (m : Semantics Env) (code : List Instruction) (slots : List Slot)
    (s : State Env) (l : Left Env) : Prop where
  target : l.target = s.regs RA.encoding
  exitCode : l.regs A0.encoding = BitVec.ofNat 64 ch.way.code
  slot : l.regs A1.encoding = 0 ∨ ∃ e ∈ slots, l.regs A1.encoding = m.addr e.slot ∧
    Passes m code s e.store ∧ ∀ e' ∈ slots, Passes m code s e'.store → e' = e

/-- The instruction links nothing, and makes neither `RA` nor `A1` free. -/
def Instruction.Late (i : Instruction) : Prop :=
  i.NoLink ∧ ¬i.Frees {1, 11}

theorem Instruction.Straight.late {i : Instruction} (h : i.Straight) : i.Late := by
  refine ⟨h.noLink, fun hf => h.rd ?_ hf.2.2⟩
  rcases hf.1 with hrd | hrd <;> rw [hrd] <;> exact .inr rfl

theorem late_of_rd {i : Instruction} (h : i.rd = noneReg ∨ i.rd = ZERO ∨ i.rd = A0) : i.Late := by
  refine ⟨.inl ?_, fun hf => ?_⟩
  · rcases h with h | h | h <;> rw [h]
    · exact .inl rfl
    · exact .inr rfl
    · exact .inr rfl
  · rcases h with h | h | h <;> rw [Instruction.Frees, h] at hf <;>
      simp [noneReg, RegisterOperand.virtualBase, ZERO, A0] at hf

/-- The end of the code of every block. -/
def tailCode (retVal : ℕ) (locals : List RegisterOperand) : List Instruction :=
  locals.map (mv ZERO) ++ [li A0 retVal, ret]

theorem late_of_mem_tailCode {retVal : ℕ} {locals : List RegisterOperand} :
    ∀ i ∈ tailCode retVal locals, i.Late := by
  intro i hi
  rcases List.mem_append.1 hi with hi | hi
  · obtain ⟨r, -, rfl⟩ := List.mem_map.1 hi
    exact (mv_straight r).late
  · rcases List.mem_cons.1 hi with rfl | hi
    · exact late_of_rd (.inr (.inr rfl))
    · obtain rfl := List.mem_singleton.1 hi
      exact late_of_rd (.inr (.inl rfl))

theorem becomes_tailCode {retVal : ℕ} {locals : List RegisterOperand} {code' : List Instruction}
    (h : List.Forall₂ (Becomes {1, 11}) (tailCode retVal locals) code') :
    ∃ S, code' = S ++ [li A0 retVal, ret] ∧ S.length = locals.length ∧ StraightCode S := by
  obtain ⟨S, R, rfl, hS, hR⟩ := forall₂_append_left h
  obtain ⟨o₁, R₁, ho₁, hR₁, rfl⟩ := List.forall₂_cons_left_iff.1 hR
  obtain ⟨o₂, R₂, ho₂, hR₂, rfl⟩ := List.forall₂_cons_left_iff.1 hR₁
  obtain rfl := List.forall₂_nil_left_iff.1 hR₂
  have hli : o₁ = li A0 retVal := ho₁.eq_of_stays
    ⟨.inr rfl, .inr ⟨by simp [li, A0, ZERO], rfl, rfl⟩⟩ (.inr rfl) (.inl rfl)
  have hret : o₂ = ret := ho₂.eq_of_stays
    ⟨.inr rfl, .inl ⟨Func.noConfusion, Func.noConfusion⟩⟩ (.inr rfl) (.inl rfl)
  refine ⟨S, by rw [hli, hret], by rw [← hS.length_eq, List.length_map],
    straightCode_of_forall₂ hS fun i hi => ?_⟩
  obtain ⟨r, -, rfl⟩ := List.mem_map.1 hi
  exact mv_straight r

/-- No instruction of the code binds a label of another node. -/
def NoNodeLabel (code : List Instruction) : Prop :=
  ∀ o ∈ code, ∀ n, o.binds (.node n) = false

theorem StraightCode.noNodeLabel {code : List Instruction} (h : StraightCode code) :
    NoNodeLabel code :=
  fun o ho n => Instruction.not_binds (h o ho).2.1 (.node n)

theorem noNodeLabel_tail (n : ℤ) : NoNodeLabel [li A0 n, ret] := by
  intro o ho k
  rcases List.mem_cons.1 ho with rfl | ho
  · rfl
  · obtain rfl := List.mem_singleton.1 ho
    rfl

theorem NoNodeLabel.append {l r : List Instruction} (hl : NoNodeLabel l) (hr : NoNodeLabel r) :
    NoNodeLabel (l ++ r) :=
  fun o ho => (List.mem_append.1 ho).elim (hl o) (hr o)

theorem NoNodeLabel.cons {i : Instruction} {l : List Instruction}
    (hi : ∀ n, i.binds (.node n) = false) (hl : NoNodeLabel l) : NoNodeLabel (i :: l) :=
  fun o ho => (List.mem_cons.1 ho).elim (fun h => h ▸ hi) (hl o)

section Run

variable {m : Semantics Env} {code : List Instruction} {s : State Env} {l : Left Env}

/-- What becomes of code that never writes `A1`. -/
theorem allocate_plain {front code' : List Instruction} {retVal : ℕ} {locals : List RegisterOperand}
    (hfront : ∀ i ∈ front, i.Plain) (h : allocate (front ++ tailCode retVal locals) = .ok code') :
    ∃ F S, code' = F ++ (S ++ [li A0 retVal, ret]) ∧ F.length = front.length ∧
      S.length = locals.length ∧ FrontCode {1, 11} F ∧ StraightCode S := by
  have hbecomes := allocate_becomes (fun i hi => ?_) h
  · obtain ⟨F, T, rfl, hF, hT⟩ := forall₂_append_left hbecomes
    obtain ⟨S, rfl, hlen, hS⟩ := becomes_tailCode hT
    exact ⟨F, S, rfl, hF.length_eq.symm, hlen, frontCode_of_forall₂ subset_rfl hF hfront, hS⟩
  · rcases List.mem_append.1 hi with hi | hi
    · rintro ⟨hrd, -, hmem⟩
      have hzero := (hfront i hi).rd (by rcases hrd with hrd | hrd <;> rw [hrd] <;> rfl)
      rw [hzero] at hmem
      simp [ZERO] at hmem
    · exact (late_of_mem_tailCode i hi).2

/-- Code that never writes `A1`. -/
theorem run_plain {A front code' : List Instruction} {retVal : ℕ} {locals : List RegisterOperand}
    (hfront : ∀ i ∈ front, i.Plain) (hA : ∀ o ∈ A, o.type ≠ .label)
    (h : allocate (front ++ tailCode retVal locals) = .ok code')
    (hr : (m.machine (A ++ code')).Returns s (some l)) (hpc : s.pc = A.length) :
    l.target = s.regs 1 ∧ l.regs 10 = BitVec.ofInt 64 retVal ∧ l.regs 11 = s.regs 11 := by
  obtain ⟨F, S, rfl, -, -, hF, hS⟩ := allocate_plain hfront h
  obtain ⟨t, ht, hkeep⟩ := run_front rfl hF hA (hS.noNodeLabel.append (noNodeLabel_tail _)) hr hpc
  obtain ⟨htarget, ha0, ha1, -⟩ := run_tail (L := A ++ F) (by rw [List.append_assoc]) hS ht.returns
    (by rw [ht.pc, List.length_append])
  exact ⟨htarget.trans (hkeep 1 (by simp)), ha0, ha1.trans (hkeep 11 (by simp))⟩

theorem Passes.of_visits {p : ℕ} {t : State Env} (hv : (m.machine code).Visits s t)
    (h : Passes m code t p) : Passes m code s p := by
  obtain ⟨u, hu, hp⟩ := h
  exact ⟨u, hv.trans hu, hp⟩

theorem Passes.of_step {p : ℕ} {t : State Env} (hstep : (m.machine code).step s = .inl t)
    (hne : s.pc ≠ p) (h : Passes m code s p) : Passes m code t p := by
  obtain ⟨u, hu, hp⟩ := h
  cases hu with
  | refl => exact absurd hp hne
  | move hstep' hu =>
    obtain rfl := Sum.inl.inj (hstep.symm.trans hstep')
    exact ⟨u, hu, hp⟩

theorem Passes.of_comes {p lo hi : ℕ} {t : State Env} (hc : Comes m code lo hi l s t)
    (hp : p < lo ∨ hi ≤ p) (h : Passes m code s p) : Passes m code t p := by
  obtain ⟨u, hu, hpc⟩ := h
  rcases hc.before u hu with hu | hu
  · omega
  · exact ⟨u, hu, hpc⟩

/-- A run that comes to its end passes through all of straight code. -/
theorem passes_straight {L S R : List Instruction} (hcode : code = L ++ (S ++ R))
    (hS : StraightCode S) (hr : (m.machine code).Returns s (some l)) (hpc : s.pc = L.length)
    {k : ℕ} (hk : k ≤ S.length) : Passes m code s (L.length + k) := by
  have hsplit : code = L ++ (S.take k ++ (S.drop k ++ R)) := by
    rw [← List.append_assoc (S.take k), List.take_append_drop, hcode]
  obtain ⟨t, ht, -⟩ := comes_straight hsplit (fun o ho => hS o (List.mem_of_mem_take ho)) hr hpc
  refine ⟨t, ht.visits, ?_⟩
  rw [ht.pc, List.length_take, Nat.min_eq_left hk]

/-- What becomes of straight code and the end of the block. -/
theorem becomes_straight_tailCode {B R : List Instruction} {retVal : ℕ}
    {locals : List RegisterOperand} (hB : ∀ i ∈ B, i.Straight)
    (h : List.Forall₂ (Becomes {1, 11}) (B ++ tailCode retVal locals) R) :
    ∃ S₁ S₂, R = S₁ ++ (S₂ ++ [li A0 retVal, ret]) ∧ S₁.length = B.length ∧ StraightCode S₁ ∧
      StraightCode S₂ := by
  obtain ⟨S₁, T, rfl, hS₁, hT⟩ := forall₂_append_left h
  obtain ⟨S₂, rfl, -, hS₂⟩ := becomes_tailCode hT
  exact ⟨S₁, S₂, rfl, hS₁.length_eq.symm, straightCode_of_forall₂ hS₁ hB, hS₂⟩

theorem StraightCode.append {S T : List Instruction} (hS : StraightCode S) (hT : StraightCode T) :
    StraightCode (S ++ T) :=
  fun o ho => (List.mem_append.1 ho).elim (hS o) (hT o)

/-- Straight code after a definition of `A1`. -/
theorem run_straightExit {front B code' : List Instruction} {retVal : ℕ}
    {locals : List RegisterOperand} {i : Instruction} (hfront : ∀ i ∈ front, i.Plain)
    (hB : ∀ i ∈ B, i.Straight) (hi : i.Stays) (hrd : i.rd = A1) (h₁ : i.rs1.Fixed)
    (h₂ : i.rs2.Fixed)
    (hlink : i.NoLink) (hsilent : i.isSilent = false) (hflow : i.flow = .next)
    (h : allocate (front ++ i :: (B ++ tailCode retVal locals)) = .ok code')
    (hr : (m.machine code').Returns s (some l)) (hpc : s.pc = 0) :
    ∃ t, t.pc = front.length ∧ l.target = s.regs 1 ∧ l.regs 10 = BitVec.ofInt 64 retVal ∧
      l.regs 11 = (m.exec i t).regs 11 ∧
        ∀ k ≤ B.length, Passes m code' s (front.length + 1 + k) := by
  have hlate : ∀ j ∈ B ++ tailCode retVal locals, j.Late := fun j hj =>
    (List.mem_append.1 hj).elim (fun hj => (hB j hj).late) (late_of_mem_tailCode j)
  obtain ⟨F, o, R, rfl, hF, ho, hR, -⟩ :=
    allocate_around hlink (fun j hj => (hlate j hj).1) (fun j hj => (hlate j hj).2) h
  obtain rfl := ho.eq_of_stays hi h₁ h₂
  obtain ⟨S₁, S₂, rfl, hlen, hS₁, hS₂⟩ := becomes_straight_tailCode hB hR
  have hlenF : F.length = front.length := hF.length_eq.symm
  have htype : o.type ≠ .label := fun ht => by
    rw [Instruction.isSilent, ht] at hsilent
    cases hsilent
  obtain ⟨t, ht, hkeep⟩ := run_front (A := []) rfl (frontCode_of_forall₂ (by simp) hF hfront)
    (by simp) (NoNodeLabel.cons (fun n => Instruction.not_binds htype _)
      (hS₁.noNodeLabel.append (hS₂.noNodeLabel.append (noNodeLabel_tail _)))) hr hpc
  have hpct : t.pc = F.length := ht.pc.trans (Nat.zero_add _)
  have hget : (F ++ o :: (S₁ ++ (S₂ ++ [li A0 retVal, ret])))[t.pc]? = some o := by
    rw [hpct]
    exact getElem?_length_append ..
  obtain ⟨hstep, hr'⟩ := step_of_next hget hsilent hflow ht.returns
  have hpc' : (m.exec o t).pc = (F ++ [o]).length := by
    simp [Semantics.exec, hpct]
  have hcode : F ++ o :: (S₁ ++ (S₂ ++ [li A0 retVal, ret])) =
      (F ++ [o]) ++ (S₁ ++ (S₂ ++ [li A0 retVal, ret])) := by simp
  obtain ⟨htarget, ha0, ha1, -⟩ := run_tail (L := F ++ [o]) (S := S₁ ++ S₂) (n := retVal) (by simp)
    (hS₁.append hS₂) hr' hpc'
  refine ⟨t, hpct.trans hlenF, htarget.trans ?_, ha0, ha1, fun k hk => ?_⟩
  · rw [m.exec_regs_of_ne o t (by rw [hrd]; decide), hkeep 1 rfl]
  · have hpass := passes_straight hcode hS₁ hr' hpc' (hlen ▸ hk)
    rw [List.length_append, List.length_singleton, hlenF] at hpass
    exact hpass.of_visits (ht.visits.trans (.move hstep (.refl _)))

end Run

/-! ## Two ways out -/

/-- All labels of the code are those of other nodes. -/
def NodeLabels (code : List Instruction) : Prop :=
  ∀ o ∈ code, ∀ label, o.binds label = true → ∃ n, label = .node n

theorem nodeLabels_of_forall₂ {keep : Set ℕ} {front front' : List Instruction}
    (h : List.Forall₂ (Becomes keep) front front') (hp : ∀ i ∈ front, i.Plain) :
    NodeLabels front' := by
  induction h with
  | nil => simp [NodeLabels]
  | @cons i o front front' hio _ ih =>
    intro j hj label hbinds
    rcases List.mem_cons.1 hj with rfl | hj
    · obtain ⟨n, hn⟩ := (hp i List.mem_cons_self).label
      have hlabel := hio.binds hbinds
      simp only [Instruction.binds, Bool.and_eq_true, decide_eq_true_eq] at hlabel
      exact ⟨n, hlabel.2.symm.trans hn⟩
    · exact ih (fun i hi => hp i (List.mem_cons_of_mem _ hi)) j hj label hbinds

theorem NodeLabels.not_binds {code : List Instruction} (h : NodeLabels code) {label : Label}
    (hne : ∀ n, label ≠ .node n) : ∀ o ∈ code, o.binds label = false := by
  intro o ho
  by_contra hb
  obtain ⟨n, hn⟩ := h o ho label (by simpa using hb)
  exact hne n hn

theorem StraightCode.not_binds {code : List Instruction} (h : StraightCode code) {label : Label} :
    ∀ o ∈ code, o.binds label = false :=
  fun o ho => Instruction.not_binds (h o ho).2.1 label

/-- The first label of its kind. -/
theorem findIdx?_label {L R : List Instruction} {i : Instruction} {label : Label}
    (hL : ∀ o ∈ L, o.binds label = false) (hi : i.binds label = true) :
    (L ++ i :: R).findIdx? (·.binds label) = some L.length := by
  rw [List.findIdx?_append, List.findIdx?_eq_none_iff.2 hL, List.findIdx?_cons, if_pos hi]
  simp

theorem Becomes.beqzNear {avoid : Set ℕ} {r : RegisterOperand} {label : Label} {o : Instruction}
    (h : Becomes avoid (beqzNear r label) o) : ∃ r', o = Builder.beqzNear r' label := by
  cases o with
  | mk type func rd rs1 rs2 imm label' =>
    obtain ⟨-, hfunc, himm, hlabel, hrd, -, hrs2, -, hstays⟩ := h
    cases hstays ⟨.inl rfl, .inl ⟨by simp [Builder.beqzNear], by simp [Builder.beqzNear]⟩⟩
    cases hfunc
    cases himm
    cases hlabel
    cases hrd (.inl rfl)
    cases hrs2 (.inr rfl)
    exact ⟨rs1, rfl⟩

/-- The code of a conditional jump. -/
def conditionalCode (r : RegisterOperand) (S₁ S₂ : List Instruction) : List Instruction :=
  [beqzNear r .falseCalc, align 4, auipcKeep A1 0] ++
    (S₁ ++ [jNear .endPc, bind .falseCalc] ++ (S₂ ++ [bind .endPc]))

theorem late_of_mem_conditionalCode {r : RegisterOperand} {B₁ B₂ : List Instruction}
    (h₁ : ∀ i ∈ B₁, i.Straight) (h₂ : ∀ i ∈ B₂, i.Straight) :
    ∀ i ∈ conditionalCode r B₁ B₂, i.Late := by
  intro i hi
  simp only [conditionalCode, List.mem_append, List.mem_cons, List.not_mem_nil, or_false] at hi
  rcases hi with (rfl | rfl | rfl) | (hi | rfl | rfl) | hi | rfl
  · exact late_of_rd (.inl rfl)
  · exact late_of_rd (.inl rfl)
  · refine ⟨.inl (.inr rfl), fun hf => ?_⟩
    simp [Instruction.Frees, auipcKeep, Instruction.isRdUse] at hf
  · exact (h₁ i hi).late
  · exact late_of_rd (.inr (.inl rfl))
  · exact late_of_rd (.inl rfl)
  · exact (h₂ i hi).late
  · exact late_of_rd (.inl rfl)

theorem becomes_conditionalCode {r : RegisterOperand} {B₁ B₂ code' : List Instruction}
    (h₁ : ∀ i ∈ B₁, i.Straight) (h₂ : ∀ i ∈ B₂, i.Straight)
    (h : List.Forall₂ (Becomes {1, 11}) (conditionalCode r B₁ B₂) code') :
    ∃ r' S₁ S₂, code' = conditionalCode r' S₁ S₂ ∧ S₁.length = B₁.length ∧
      S₂.length = B₂.length ∧ StraightCode S₁ ∧ StraightCode S₂ := by
  obtain ⟨H, T, rfl, hH, hT⟩ := forall₂_append_left h
  obtain ⟨T₁, T₂, rfl, hT₁, hT₂⟩ := forall₂_append_left hT
  obtain ⟨S₁, J, rfl, hS₁, hJ⟩ := forall₂_append_left hT₁
  obtain ⟨S₂, E, rfl, hS₂, hE⟩ := forall₂_append_left hT₂
  obtain ⟨b, H₁, hb, hH₁, rfl⟩ := List.forall₂_cons_left_iff.1 hH
  obtain ⟨a, H₂, ha, hH₂, rfl⟩ := List.forall₂_cons_left_iff.1 hH₁
  obtain ⟨k, H₃, hk, hH₃, rfl⟩ := List.forall₂_cons_left_iff.1 hH₂
  obtain ⟨j, J₁, hj, hJ₁, rfl⟩ := List.forall₂_cons_left_iff.1 hJ
  obtain ⟨f, J₂, hf, hJ₂, rfl⟩ := List.forall₂_cons_left_iff.1 hJ₁
  obtain ⟨e, E₁, he, hE₁, rfl⟩ := List.forall₂_cons_left_iff.1 hE
  obtain rfl := List.forall₂_nil_left_iff.1 hH₃
  obtain rfl := List.forall₂_nil_left_iff.1 hJ₂
  obtain rfl := List.forall₂_nil_left_iff.1 hE₁
  obtain ⟨r', rfl⟩ := hb.beqzNear
  obtain rfl := ha.eq_of_stays ⟨.inl rfl, .inl ⟨by simp [align], by simp [align]⟩⟩ (.inl rfl)
    (.inl rfl)
  obtain rfl := hk.eq_of_stays ⟨.inr rfl, .inl ⟨Func.noConfusion, Func.noConfusion⟩⟩ (.inr rfl)
    (.inl rfl)
  obtain rfl := hj.eq_of_stays ⟨.inr rfl, .inl ⟨by simp [jNear], by simp [jNear]⟩⟩ (.inl rfl)
    (.inl rfl)
  obtain rfl := hf.eq_of_stays ⟨.inl rfl, .inl ⟨by simp [bind], by simp [bind]⟩⟩ (.inl rfl)
    (.inl rfl)
  obtain rfl := he.eq_of_stays ⟨.inl rfl, .inl ⟨by simp [bind], by simp [bind]⟩⟩ (.inl rfl)
    (.inl rfl)
  exact ⟨r', S₁, S₂, rfl, hS₁.length_eq.symm, hS₂.length_eq.symm, straightCode_of_forall₂ hS₁ h₁,
    straightCode_of_forall₂ hS₂ h₂⟩

section Run

variable {m : Semantics Env} {code : List Instruction} {s : State Env} {l : Left Env}

theorem Passes.ge {n p : ℕ} (h : Passes m code s p)
    (hge : ∀ u, (m.machine code).Visits s u → n ≤ u.pc) : n ≤ p := by
  obtain ⟨u, hu, rfl⟩ := h
  exact hge u hu

/-- The end of the code, from the label before it on. -/
theorem run_bind_tail {L S : List Instruction} {label : Label} {n : ℤ}
    (hcode : code = L ++ bind label :: (S ++ [li A0 n, ret])) (hS : StraightCode S)
    (hr : (m.machine code).Returns s (some l)) (hpc : s.pc = L.length) :
    l.target = s.regs 1 ∧ l.regs 10 = BitVec.ofInt 64 n ∧ l.regs 11 = s.regs 11 ∧
      ∀ u, (m.machine code).Visits s u → L.length ≤ u.pc := by
  have hget : code[s.pc]? = some (bind label) := by
    rw [hpc, hcode]
    exact getElem?_length_append ..
  obtain ⟨hstep, hr'⟩ := step_of_silent hget rfl hr
  obtain ⟨htarget, ha0, ha1, hge⟩ := run_tail (L := L ++ [bind label]) (n := n) (by simp [hcode]) hS
    hr' (by simp [hpc])
  refine ⟨htarget, ha0, ha1, visits_ge_of_step hstep (le_of_eq hpc.symm) fun u hu => ?_⟩
  have := hge u hu
  rw [List.length_append] at this
  omega

section Conditional

variable {F S₁ S₂ S : List Instruction} {r : RegisterOperand} {n : ℤ}
  (hcode : code = F ++ auipc A1 0 :: (conditionalCode r S₁ S₂ ++ (S ++ [li A0 n, ret])))
  (hF : NodeLabels F) (hS₁ : StraightCode S₁) (hS₂ : StraightCode S₂) (hS : StraightCode S)

include hcode hS₂ hS in
/-- The way from the label of the false value on. -/
theorem run_falseCalc (hr : (m.machine code).Returns s (some l))
    (hpc : s.pc = F.length + 5 + S₁.length) :
    l.target = s.regs 1 ∧ l.regs 10 = BitVec.ofInt 64 n ∧ l.regs 11 = s.regs 11 ∧
      (∀ k ≤ S₂.length, Passes m code s (F.length + 6 + S₁.length + k)) ∧
        ∀ p < F.length + 5 + S₁.length, ¬Passes m code s p := by
  set P := F ++ [auipc A1 0, beqzNear r .falseCalc, align 4, auipcKeep A1 0] ++ S₁ ++ [jNear .endPc]
    with hP
  have hlen : P.length = F.length + 5 + S₁.length := by
    simp only [hP, List.length_append, List.length_cons, List.length_nil]
    omega
  have hget : code[s.pc]? = some (bind .falseCalc) := by
    have hsplit : code = P ++ bind .falseCalc :: (S₂ ++ bind .endPc :: (S ++ [li A0 n, ret])) := by
      simp [hcode, hP, conditionalCode]
    rw [hpc, ← hlen, hsplit]
    exact getElem?_length_append ..
  obtain ⟨hstep, hr'⟩ := step_of_silent hget rfl hr
  have hpc' : s.pc + 1 = (P ++ [bind .falseCalc]).length := by
    rw [hpc, List.length_append, hlen, List.length_singleton]
  have hsplit : code =
      (P ++ [bind .falseCalc]) ++ (S₂ ++ bind .endPc :: (S ++ [li A0 n, ret])) := by
    simp [hcode, hP, conditionalCode]
  obtain ⟨t, ht, hkeep⟩ := comes_straight hsplit hS₂ hr' hpc'
  have hend : code = P ++ [bind .falseCalc] ++ S₂ ++ bind .endPc :: (S ++ [li A0 n, ret]) := by
    rw [hsplit, List.append_assoc _ S₂]
  obtain ⟨htarget, ha0, ha1, hge⟩ := run_bind_tail hend hS ht.returns
    (by rw [ht.pc, ← List.length_append])
  refine ⟨htarget.trans (hkeep 1 (by simp)), ha0, ha1.trans (hkeep 11 (by simp)), fun k hk => ?_,
    fun p hp hpass => ?_⟩
  · have hpass := passes_straight hsplit hS₂ hr' hpc' hk
    rw [List.length_append, hlen, List.length_singleton] at hpass
    exact (show F.length + 6 + S₁.length + k = F.length + 5 + S₁.length + 1 + k by omega) ▸
      hpass.of_visits (.move hstep (.refl _))
  · have hpass' := hpass.of_step hstep (by omega)
    have hlt : p < (P ++ [bind .falseCalc]).length := by rw [← hpc']; omega
    have hle := (hpass'.of_comes ht (.inl hlt)).ge hge
    rw [List.length_append] at hle
    omega

include hcode hF hS₁ hS₂ in
theorem findIdx?_endPc :
    code.findIdx? (·.binds .endPc) = some (F.length + 6 + S₁.length + S₂.length) := by
  have hsplit : code = F ++ ([auipc A1 0, beqzNear r .falseCalc, align 4, auipcKeep A1 0] ++ (S₁ ++
      ([jNear .endPc, bind .falseCalc] ++ S₂))) ++ bind .endPc :: (S ++ [li A0 n, ret]) := by
    simp [hcode, conditionalCode]
  rw [hsplit, findIdx?_label _ rfl]
  · simp only [List.length_append, List.length_cons, List.length_nil, Option.some.injEq]
    omega
  · simp only [List.forall_mem_append]
    exact ⟨hF.not_binds (fun _ => Label.noConfusion),
      by simp [Instruction.binds, auipc, beqzNear, align, auipcKeep], hS₁.not_binds,
      by simp [Instruction.binds, jNear, bind], hS₂.not_binds⟩

include hcode hF hS₁ in
theorem findIdx?_falseCalc :
    code.findIdx? (·.binds .falseCalc) = some (F.length + 5 + S₁.length) := by
  have hsplit : code = F ++ ([auipc A1 0, beqzNear r .falseCalc, align 4, auipcKeep A1 0] ++ (S₁ ++
      [jNear .endPc])) ++ bind .falseCalc :: (S₂ ++ bind .endPc :: (S ++ [li A0 n, ret])) := by
    simp [hcode, conditionalCode]
  rw [hsplit, findIdx?_label _ rfl]
  · simp only [List.length_append, List.length_cons, List.length_nil, Option.some.injEq]
    omega
  · simp only [List.forall_mem_append]
    exact ⟨hF.not_binds (fun _ => Label.noConfusion),
      by simp [Instruction.binds, auipc, beqzNear, align, auipcKeep], hS₁.not_binds,
      by simp [Instruction.binds, jNear]⟩

include hcode hF hS₁ hS₂ hS in
/-- The way from the constant of the true value on. -/
theorem run_trueCalc (hr : (m.machine code).Returns s (some l)) (hpc : s.pc = F.length + 4) :
    l.target = s.regs 1 ∧ l.regs 10 = BitVec.ofInt 64 n ∧ l.regs 11 = s.regs 11 ∧
      (∀ k ≤ S₁.length, Passes m code s (F.length + 4 + k)) ∧
        ∀ p, F.length + 4 + S₁.length < p → p < F.length + 6 + S₁.length + S₂.length →
          ¬Passes m code s p := by
  set P := F ++ [auipc A1 0, beqzNear r .falseCalc, align 4, auipcKeep A1 0] with hP
  have hlen : P.length = F.length + 4 := by simp [hP]
  have hsplit : code = P ++ (S₁ ++ jNear .endPc :: ([bind .falseCalc] ++ S₂ ++ bind .endPc ::
      (S ++ [li A0 n, ret]))) := by
    simp [hcode, hP, conditionalCode]
  obtain ⟨t, ht, hkeep⟩ := comes_straight hsplit hS₁ hr (hpc.trans hlen.symm)
  have hpct : t.pc = F.length + 4 + S₁.length := by rw [ht.pc, hlen]
  have hget : code[t.pc]? = some (jNear .endPc) := by
    rw [ht.pc, ← List.length_append, hsplit, ← List.append_assoc]
    exact getElem?_length_append ..
  rcases steps_of_returns hget rfl ht.returns with
    ⟨_, _, _, _, hf⟩ | ⟨label, p, u, rfl, hp, hstep, hr', hf⟩ | ⟨hf, _, _⟩
  · rcases hf with hf | ⟨_, hf⟩ <;> cases hf
  · obtain rfl := Instruction.label_of_flow hf
    have hp := hp.symm.trans (findIdx?_endPc hcode hF hS₁ hS₂)
    obtain rfl := Option.some.inj hp
    have hregs : ∀ r ∈ ({1, 11} : Set ℕ), (m.exec (jNear .endPc) t).regs r = s.regs r := by
      intro r hr
      rw [m.exec_regs_of_ne _ _ (by rcases hr with rfl | rfl <;> simp [jNear, ZERO]), hkeep r hr]
    have hend : code = P ++ (S₁ ++ ([jNear .endPc] ++ ([bind .falseCalc] ++ S₂))) ++
        bind .endPc :: (S ++ [li A0 n, ret]) := by simp [hsplit]
    obtain ⟨htarget, ha0, ha1, hge⟩ := run_bind_tail hend hS hr'
      (by
        simp only [List.length_append, List.length_cons, List.length_nil, hlen]
        omega)
    refine ⟨htarget.trans (hregs 1 (by simp)), ha0, ha1.trans (hregs 11 (by simp)), fun k hk => ?_,
      fun p hlo hhi hpass => ?_⟩
    · rw [← hlen]
      exact passes_straight hsplit hS₁ hr (hpc.trans hlen.symm) hk
    · have hle := ((hpass.of_comes ht (.inr (by omega))).of_step hstep (by omega)).ge hge
      simp only [List.length_append, List.length_cons, List.length_nil, hlen] at hle
      omega
  · cases hf

include hcode hF hS₁ hS₂ hS in
/-- The way from the definition of the first slot on. -/
theorem run_conditional (hr : (m.machine code).Returns s (some l)) (hpc : s.pc = F.length) :
    l.target = s.regs 1 ∧ l.regs 10 = BitVec.ofInt 64 n ∧
      (l.regs 11 = m.addr (F.length + 3) ∧
          (∀ k ≤ S₁.length, Passes m code s (F.length + 4 + k)) ∧
          (∀ p, F.length + 4 + S₁.length < p → p < F.length + 6 + S₁.length + S₂.length →
            ¬Passes m code s p) ∨
        l.regs 11 = m.addr F.length ∧
          (∀ k ≤ S₂.length, Passes m code s (F.length + 6 + S₁.length + k)) ∧
          ∀ p, F.length + 4 ≤ p → p < F.length + 5 + S₁.length → ¬Passes m code s p) := by
  have hget : ∀ k i, (auipc A1 0 :: conditionalCode r S₁ S₂)[k]? = some i →
      code[F.length + k]? = some i := by
    intro k i hk
    rw [hcode, ← List.cons_append, List.getElem?_append_right (by omega), Nat.add_sub_cancel_left,
      List.getElem?_append_left (List.getElem?_eq_some_iff.1 hk).1, hk]
  obtain ⟨hstep₁, hr₁⟩ := step_of_next (hpc ▸ hget 0 _ rfl) rfl rfl hr
  set s₁ := m.exec (auipc A1 0) s with hs₁
  have hpc₁ : s₁.pc = F.length + 1 := by simp [hs₁, Semantics.exec, hpc]
  have hra₁ : s₁.regs 1 = s.regs 1 := m.exec_regs_of_ne _ _ (by decide)
  have ha1₁ : s₁.regs 11 = m.addr F.length := by rw [hs₁, exec_auipc, hpc]
  have hregs : (m.exec (beqzNear r .falseCalc) s₁).regs = s₁.regs := rfl
  rcases steps_of_returns (hpc₁ ▸ hget 1 _ rfl) rfl hr₁ with
    ⟨s₂, hs₂, hstep₂, hr₂, hf⟩ | ⟨label, p, s₂, hs₂, hp, hstep₂, hr₂, hf⟩ | ⟨hf, _, _⟩
  · have hpc₂ : s₂.pc = F.length + 2 := by simp [hs₂, Semantics.exec, hpc₁]
    obtain ⟨hstep₃, hr₃⟩ := step_of_silent (hpc₂ ▸ hget 2 _ rfl) rfl hr₂
    obtain ⟨hstep₄, hr₄⟩ := step_of_next (show code[s₂.pc + 1]? = some (auipcKeep A1 0) from
      hpc₂ ▸ hget 3 _ rfl) rfl rfl hr₃
    set s₃ : State Env := { s₂ with pc := s₂.pc + 1 } with hs₃
    set s₄ := m.exec (auipcKeep A1 0) s₃ with hs₄
    have hpc₄ : s₄.pc = F.length + 4 := by simp [hs₄, Semantics.exec, hs₃, hpc₂]
    obtain ⟨htarget, ha0, ha1, hpass, hnot⟩ := run_trueCalc hcode hF hS₁ hS₂ hS hr₄ hpc₄
    have hv : (m.machine code).Visits s s₄ :=
      .move hstep₁ (.move hstep₂ (.move hstep₃ (.move hstep₄ (.refl _))))
    refine ⟨?_, ha0, .inl ⟨?_, fun k hk => (hpass k hk).of_visits hv, fun p hlo hhi hp => ?_⟩⟩
    · rw [htarget, hs₄, m.exec_regs_of_ne _ _ (by decide), hs₃, hs₂, hregs, hra₁]
    · rw [ha1, hs₄, exec_auipcKeep, hs₃]
      simp only [hpc₂]
    · exact hnot p hlo hhi ((((hp.of_step hstep₁ (by omega)).of_step hstep₂ (by omega)).of_step
        hstep₃ (by omega)).of_step hstep₄ (by simp only [hs₃]; omega))
  · obtain rfl := Instruction.label_of_flow hf
    obtain rfl := Option.some.inj (hp.symm.trans (findIdx?_falseCalc hcode hF hS₁))
    obtain ⟨htarget, ha0, ha1, hpass, hnot⟩ := run_falseCalc hcode hS₂ hS hr₂ (by rw [hs₂])
    have hv : (m.machine code).Visits s s₂ := .move hstep₁ (.move hstep₂ (.refl _))
    refine ⟨?_, ha0, .inr ⟨?_, fun k hk => (hpass k hk).of_visits hv,
      fun p hlo hhi hp => ?_⟩⟩
    · rw [htarget, hs₂, hregs, hra₁]
    · rw [ha1, hs₂, hregs, ha1₁]
    · exact hnot p hhi ((hp.of_step hstep₁ (by omega)).of_step hstep₂ (by omega))
  · cases hf

end Conditional

end Run

section Right

variable {m : Semantics Env} {s : State Env} {l : Left Env} {ch : Chunk} {c : Context}
  {front code' : List Instruction} {locals : List RegisterOperand}

theorem straight_concat {K : List Instruction} {sd : Instruction} (hK : ∀ i ∈ K, i.Straight)
    (hsd : sd.Straight) : ∀ i ∈ K ++ [sd], i.Straight := by
  intro i hi
  rcases List.mem_append.1 hi with hi | hi
  · exact hK i hi
  · exact List.mem_singleton.1 hi ▸ hsd

/-- The registers that the code keeps and gives back on its way through code that never writes
`A1`. -/
theorem right_internal (hfront : ∀ i ∈ front, i.Plain) (hret : c.retVal = ch.way.code)
    (h : allocate (front ++ tailCode c.retVal locals) = .ok code')
    (hr : (m.machine ([li A1 0] ++ code')).Returns s (some l)) (hpc : s.pc = 0) :
    Right ch m ([li A1 0] ++ code') [] s l := by
  have hget : ([li A1 0] ++ code')[s.pc]? = some (li A1 0) := by rw [hpc]; rfl
  obtain ⟨-, hr'⟩ := step_of_next hget rfl rfl hr
  obtain ⟨htarget, ha0, ha1⟩ := run_plain hfront (by simp [li]) h hr'
    (by simp [Semantics.exec, hpc])
  refine ⟨htarget.trans (m.exec_regs_of_ne _ _ (by simp [li, A1])), ?_, .inl ?_⟩
  · exact ha0.trans (by rw [BitVec.ofInt_natCast, hret])
  · exact ha1.trans (exec_li_A1 m 0 s)

theorem right_noChain (hfront : ∀ i ∈ front, i.Plain) (hret : c.retVal = ch.way.code)
    (h : allocate (front ++ li A1 0 :: tailCode c.retVal locals) = .ok code')
    (hr : (m.machine code').Returns s (some l)) (hpc : s.pc = 0) : Right ch m code' [] s l := by
  obtain ⟨t, -, htarget, ha0, ha1, -⟩ := run_straightExit (B := []) hfront (by simp)
    ⟨.inr rfl, .inr ⟨by simp [li, A1, ZERO], rfl, rfl⟩⟩ rfl (.inr rfl) (.inl rfl) (.inl (.inr rfl))
    rfl rfl h hr hpc
  refine ⟨htarget, ?_, .inl ?_⟩
  · exact ha0.trans (by rw [BitVec.ofInt_natCast, hret])
  · exact ha1.trans (exec_li_A1 m 0 t)

theorem right_direct {K : List Instruction} {sd : Instruction} (hfront : ∀ i ∈ front, i.Plain)
    (hK : ∀ i ∈ K, i.Straight) (hsd : sd.Straight) (hret : c.retVal = ch.way.code)
    (h : allocate (front ++ auipc A1 0 :: (K ++ [sd] ++ tailCode c.retVal locals)) = .ok code')
    (hr : (m.machine code').Returns s (some l)) (hpc : s.pc = 0) :
    Right ch m code' [⟨front.length, front.length + 1 + K.length⟩] s l := by
  obtain ⟨t, hpct, htarget, ha0, ha1, hpass⟩ := run_straightExit hfront (straight_concat hK hsd)
    ⟨.inr rfl, .inl ⟨Func.noConfusion, Func.noConfusion⟩⟩ rfl (.inl rfl) (.inl rfl)
    (.inl (.inr rfl)) rfl rfl h hr hpc
  refine ⟨htarget, ?_, .inr ⟨_, List.mem_singleton_self _, ?_, hpass K.length (by simp), ?_⟩⟩
  · exact ha0.trans (by rw [BitVec.ofInt_natCast, hret])
  · exact ha1.trans (by rw [exec_auipc, hpct])
  · exact fun e he _ => List.mem_singleton.1 he

/-- What becomes of a conditional jump. -/
theorem allocate_conditional {r : RegisterOperand} {B₁ B₂ : List Instruction} {n : ℕ}
    (hfront : ∀ i ∈ front, i.Plain) (h₁ : ∀ i ∈ B₁, i.Straight) (h₂ : ∀ i ∈ B₂, i.Straight)
    (h : allocate (front ++ auipc A1 0 :: (conditionalCode r B₁ B₂ ++ tailCode n locals)) =
      .ok code') :
    ∃ F r' S₁ S₂ S, code' = F ++ auipc A1 0 :: (conditionalCode r' S₁ S₂ ++ (S ++ [li A0 n, ret])) ∧
      F.length = front.length ∧ S₁.length = B₁.length ∧ S₂.length = B₂.length ∧
        FrontCode {1} F ∧ NodeLabels F ∧ StraightCode S₁ ∧ StraightCode S₂ ∧ StraightCode S ∧
          ∀ j ∈ conditionalCode r' S₁ S₂ ++ (S ++ [li A0 n, ret]), j.Settled := by
  have hlate : ∀ j ∈ conditionalCode r B₁ B₂ ++ tailCode n locals, j.Late := fun j hj =>
    (List.mem_append.1 hj).elim (late_of_mem_conditionalCode h₁ h₂ j) (late_of_mem_tailCode j)
  obtain ⟨F, o, R, rfl, hF, ho, hR, hsettled⟩ := allocate_around (.inl (.inr rfl))
    (fun j hj => (hlate j hj).1) (fun j hj => (hlate j hj).2) h
  obtain rfl := ho.eq_of_stays ⟨.inr rfl, .inl ⟨Func.noConfusion, Func.noConfusion⟩⟩ (.inl rfl)
    (.inl rfl)
  obtain ⟨C, T, rfl, hC, hT⟩ := forall₂_append_left hR
  obtain ⟨r', S₁, S₂, rfl, hlen₁, hlen₂, hS₁, hS₂⟩ := becomes_conditionalCode h₁ h₂ hC
  obtain ⟨S, rfl, -, hS⟩ := becomes_tailCode hT
  exact ⟨F, r', S₁, S₂, S, rfl, hF.length_eq.symm, hlen₁, hlen₂,
    frontCode_of_forall₂ (by simp) hF hfront, nodeLabels_of_forall₂ hF hfront, hS₁, hS₂, hS,
    hsettled⟩

theorem noNodeLabel_conditionalCode {r : RegisterOperand} {S₁ S₂ : List Instruction}
    (h₁ : StraightCode S₁) (h₂ : StraightCode S₂) : NoNodeLabel (conditionalCode r S₁ S₂) := by
  intro o ho k
  simp only [conditionalCode, List.mem_append, List.mem_cons, List.not_mem_nil, or_false] at ho
  rcases ho with (rfl | rfl | rfl) | (ho | rfl | rfl) | ho | rfl
  · rfl
  · rfl
  · rfl
  · exact h₁.not_binds o ho
  · rfl
  · rfl
  · exact h₂.not_binds o ho
  · rfl

theorem right_conditional {r : RegisterOperand} {K₁ K₂ : List Instruction} {sd₁ sd₂ : Instruction}
    (hfront : ∀ i ∈ front, i.Plain) (h₁ : ∀ i ∈ K₁ ++ [sd₁], i.Straight)
    (h₂ : ∀ i ∈ K₂ ++ [sd₂], i.Straight) (hret : c.retVal = ch.way.code)
    (h : allocate (front ++ auipc A1 0 :: (conditionalCode r (K₁ ++ [sd₁]) (K₂ ++ [sd₂]) ++
      tailCode c.retVal locals)) = .ok code')
    (hr : (m.machine code').Returns s (some l)) (hpc : s.pc = 0) :
    Right ch m code' [⟨front.length + 3, front.length + 4 + K₁.length⟩,
      ⟨front.length, front.length + 7 + K₁.length + K₂.length⟩] s l := by
  obtain ⟨F, r', S₁, S₂, S, rfl, hF, hlen₁, hlen₂, hfrontF, hlabels, hS₁, hS₂, hS, -⟩ :=
    allocate_conditional hfront h₁ h₂ h
  rw [List.length_append, List.length_singleton] at hlen₁ hlen₂
  obtain ⟨t, ht, hkeep⟩ := run_front (A := []) rfl hfrontF (by simp)
    (NoNodeLabel.cons (fun _ => rfl) ((noNodeLabel_conditionalCode hS₁ hS₂).append
      (hS.noNodeLabel.append (noNodeLabel_tail _)))) hr hpc
  have hcomes : Comes m (F ++ auipc A1 0 :: (conditionalCode r' S₁ S₂ ++
      (S ++ [li A0 c.retVal, ret]))) 0 F.length l s t := by
    simpa only [List.nil_append, List.length_nil, Nat.zero_add] using ht
  obtain ⟨htarget, ha0, hway⟩ := run_conditional rfl hlabels hS₁ hS₂ hS hcomes.returns hcomes.pc
  refine ⟨htarget.trans (hkeep 1 rfl), ha0.trans (by rw [BitVec.ofInt_natCast, hret]), .inr ?_⟩
  rw [← hF]
  rcases hway with ⟨ha1, hpass, hnot⟩ | ⟨ha1, hpass, hnot⟩
  · refine ⟨_, List.mem_cons_self, ha1, (hpass K₁.length (by omega)).of_visits hcomes.visits, ?_⟩
    intro e he hp
    rcases List.mem_cons.1 he with rfl | he
    · rfl
    · obtain rfl := List.mem_singleton.1 he
      dsimp only at hp
      exact absurd (hp.of_comes hcomes (.inr (by omega))) (hnot _ (by omega) (by omega))
  · refine ⟨_, List.mem_cons_of_mem _ (List.mem_singleton_self _), ha1, ?_, ?_⟩
    · have heq : F.length + 7 + K₁.length + K₂.length = F.length + 6 + S₁.length + K₂.length := by
        omega
      exact heq ▸ (hpass K₂.length (by omega)).of_visits hcomes.visits
    · intro e he hp
      rcases List.mem_cons.1 he with rfl | he
      · dsimp only at hp
        exact absurd (hp.of_comes hcomes (.inr (by omega))) (hnot _ (by omega) (by omega))
      · exact List.mem_singleton.1 he

/-- Lowering an exit makes code that leaves the block as it should. -/
theorem ExitCode.right {front : List Instruction} (hexit : ExitCode front c)
    (hfront : ∀ i ∈ front, i.Plain) (hret : c.retVal = ch.way.code)
    (h : allocate (c.instructions ++ tailCode c.retVal locals) = .ok code')
    (hr : (m.machine (c.assembled ++ code')).Returns s (some l)) (hpc : s.pc = 0) :
    Right ch m (c.assembled ++ code')
      (c.slots.map fun e => ⟨c.assembled.length + e.slot, c.assembled.length + e.store⟩) s l := by
  cases hexit with
  | internal hass hslots hinstr =>
    rw [hass] at hr ⊢
    rw [hinstr] at h
    rw [hslots]
    exact right_internal hfront hret h hr hpc
  | noChain hass hslots hinstr =>
    rw [hass] at hr ⊢
    rw [hinstr, List.append_assoc] at h
    rw [hslots]
    exact right_noChain hfront hret h hr hpc
  | direct K sd hK hsd hass hslots hinstr =>
    rw [hass] at hr ⊢
    rw [hinstr, List.append_assoc] at h
    rw [hslots]
    simpa using right_direct hfront hK hsd hret h hr hpc
  | conditional r K₁ K₂ sd₁ sd₂ hK₁ hK₂ hsd₁ hsd₂ hass hslots hinstr =>
    rw [hass] at hr ⊢
    rw [hinstr, List.append_assoc] at h
    rw [hslots]
    simpa using right_conditional (r := r) hfront (straight_concat hK₁ hsd₁)
      (straight_concat hK₂ hsd₂) hret (by simpa [conditionalCode] using h) hr hpc

end Right

/-! ## The exit protocol -/

section Exit

variable {m : Semantics Env} {s : State Env} {l : Left Env} {ch : Chunk} {c : Context}
  {front code' : List Instruction} {locals : List RegisterOperand}

theorem not_returned_of_plain {i : Instruction} (h : i.Plain) : ¬(i.rd = A0 ∨ i.rd = A1) := by
  intro hrd
  have hzero := h.rd (by rcases hrd with hrd | hrd <;> rw [hrd] <;> rfl)
  rw [hzero] at hrd
  simp [A0, A1, ZERO] at hrd

theorem findIdx_of_plain (h : ∀ i ∈ front, i.Plain) :
    front.findIdx (fun i => i.rd = A0 ∨ i.rd = A1) = front.length :=
  List.findIdx_eq_length.2 fun i hi => decide_eq_false (not_returned_of_plain (h i hi))

theorem findIdx_of_front {i : Instruction} {rest : List Instruction}
    (h : ∀ i ∈ front, i.Plain) (hi : i.rd = A1) :
    (front ++ i :: rest).findIdx (fun i => i.rd = A0 ∨ i.rd = A1) = front.length := by
  rw [List.findIdx_append, findIdx_of_plain h, if_neg (lt_irrefl _), List.findIdx_cons]
  simp [hi]

theorem goes_plain {A : List Instruction} (hfront : ∀ i ∈ front, i.Plain)
    (h : allocate (front ++ tailCode c.retVal locals) = .ok code') :
    Goes m (A ++ code') (A.length + (front.length + locals.length)) := by
  obtain ⟨F, S, rfl, hF, hlen, -, hS⟩ := allocate_plain hfront h
  have hcode : A ++ (F ++ (S ++ [li A0 c.retVal, ret])) =
      A ++ F ++ S ++ ([] ++ [li A0 c.retVal, ret]) := by simp
  have hgoes := goes_tail (m := m) hcode (by simp [StraightCode]) (by simp)
  simpa [hF, hlen, Nat.add_assoc] using hgoes

/-- Code that never writes `A1` has its way out at its end. -/
theorem Context.goes_plain {p : Packet} (hplain : ∀ i ∈ c.instructions, i.Plain)
    (h : allocate (c.instructions ++ tailCode c.retVal p.locals) = .ok code') :
    Goes m (c.assembled ++ code') (c.endInstruction p).exitIndex := by
  unfold Context.exitIndex Context.endInstruction Context.emit
  dsimp only
  rw [findIdx_of_plain, List.length_append, List.length_map]
  · exact Builder.goes_plain hplain h
  · intro i hi
    rcases List.mem_append.1 hi with hi | hi
    · exact hplain i hi
    · obtain ⟨r, -, rfl⟩ := List.mem_map.1 hi
      exact mv_plain r

/-- What follows a definition of `A1` comes to its end, if it is straight. -/
theorem goes_straightExit {B : List Instruction} {i : Instruction} {n : ℕ}
    (hB : ∀ i ∈ B, i.Straight) (hi : i.Stays) (h₁ : i.rs1.Fixed) (h₂ : i.rs2.Fixed)
    (hlink : i.NoLink) (hflow : i.flow = .next)
    (h : allocate (front ++ i :: (B ++ tailCode n locals)) = .ok code') :
    Goes m code' front.length := by
  have hlate : ∀ j ∈ B ++ tailCode n locals, j.Late := fun j hj =>
    (List.mem_append.1 hj).elim (fun hj => (hB j hj).late) (late_of_mem_tailCode j)
  obtain ⟨F, o, R, rfl, hF, ho, hR, hsettled⟩ :=
    allocate_around hlink (fun j hj => (hlate j hj).1) (fun j hj => (hlate j hj).2) h
  obtain rfl := ho.eq_of_stays hi h₁ h₂
  obtain ⟨S₁, S₂, rfl, -, hS₁, hS₂⟩ := becomes_straight_tailCode hB hR
  rw [hF.length_eq]
  refine .next (getElem?_length_append ..) (.inr ⟨hi.1, h₁, h₂⟩) hflow ?_
  rw [← List.length_singleton (a := o), ← List.length_append]
  refine goes_tail (S := S₁ ++ S₂) (k := n) (by simp) (hS₁.append hS₂) fun j hj => hsettled j ?_
  rw [← List.append_assoc]
  exact List.mem_append_left _ hj

theorem goes_conditional {r : RegisterOperand} {B₁ B₂ : List Instruction} {n : ℕ}
    (hfront : ∀ i ∈ front, i.Plain) (h₁ : ∀ i ∈ B₁, i.Straight) (h₂ : ∀ i ∈ B₂, i.Straight)
    (h : allocate (front ++ auipc A1 0 :: (conditionalCode r B₁ B₂ ++ tailCode n locals)) =
      .ok code') : Goes m code' front.length := by
  obtain ⟨F, r', S₁, S₂, S, hcode, hF, -, -, -, hlabels, hS₁, hS₂, hS, hsettled⟩ :=
    allocate_conditional hfront h₁ h₂ h
  have hget : ∀ k i, (auipc A1 0 :: conditionalCode r' S₁ S₂)[k]? = some i →
      code'[F.length + k]? = some i := by
    intro k i hk
    rw [hcode, ← List.cons_append, List.getElem?_append_right (by omega), Nat.add_sub_cancel_left,
      List.getElem?_append_left (List.getElem?_eq_some_iff.1 hk).1, hk]
  have hmem : ∀ {j}, j ∈ conditionalCode r' S₁ S₂ → j.Settled := fun hj =>
    hsettled _ (List.mem_append_left _ hj)
  set P := F ++ [auipc A1 0, beqzNear r' .falseCalc, align 4, auipcKeep A1 0] with hP
  have hlen : P.length = F.length + 4 := by simp [hP]
  have hend : Goes m code' (P ++ (S₁ ++ [jNear .endPc, bind .falseCalc] ++ S₂)).length := by
    have hsplit : code' = (P ++ (S₁ ++ [jNear .endPc, bind .falseCalc] ++ S₂)) ++
        bind .endPc :: (S ++ [li A0 n, ret]) := by simp [hcode, hP, conditionalCode]
    refine .silent (hsplit ▸ getElem?_length_append ..) rfl ?_
    rw [← List.length_singleton (a := bind .endPc), ← List.length_append]
    exact goes_tail (k := n) (by simp [hsplit]) hS fun j hj =>
      hsettled j (List.mem_append_right _ (List.mem_append_left _ hj))
  have hfalse : Goes m code' (P ++ (S₁ ++ [jNear .endPc])).length := by
    have hsplit : code' = (P ++ (S₁ ++ [jNear .endPc])) ++ bind .falseCalc :: (S₂ ++ bind .endPc ::
        (S ++ [li A0 n, ret])) := by simp [hcode, hP, conditionalCode]
    refine .silent (hsplit ▸ getElem?_length_append ..) rfl ?_
    rw [← List.length_singleton (a := bind .falseCalc), ← List.length_append]
    refine .straight (S := S₂) (R := bind .endPc :: (S ++ [li A0 n, ret])) (by simp [hsplit]) hS₂
      (fun j hj => hmem (by simp [conditionalCode, hj])) ?_
    rw [← List.length_append]
    simpa only [List.append_assoc, List.cons_append, List.nil_append] using hend
  have htrue : Goes m code' P.length := by
    have hsplit : code' = P ++ (S₁ ++ jNear .endPc :: (bind .falseCalc :: (S₂ ++ bind .endPc ::
        (S ++ [li A0 n, ret])))) := by simp [hcode, hP, conditionalCode]
    refine .straight hsplit hS₁ (fun j hj => hmem (by simp [conditionalCode, hj])) ?_
    rw [← List.length_append]
    refine .jump (i := jNear .endPc) (p := F.length + 6 + S₁.length + S₂.length) ?_
      (.inr ⟨.inr rfl, .inl rfl, .inl rfl⟩) rfl (findIdx?_endPc hcode hlabels hS₁ hS₂) ?_
    · rw [hsplit, ← List.append_assoc]
      exact getElem?_length_append ..
    · convert hend using 1
      simp only [List.length_append, List.length_cons, List.length_nil, hlen]
      omega
  rw [← hF]
  refine .next (hget 0 _ rfl) (.inr ⟨.inr rfl, .inl rfl, .inl rfl⟩) rfl ?_
  refine .branch (hget 1 _ rfl) (hmem (by simp [conditionalCode])) rfl
    (findIdx?_falseCalc hcode hlabels hS₁) ?_ ?_
  · convert hfalse using 1
    simp only [List.length_append, List.length_cons, List.length_nil, hlen]
    omega
  refine .silent (hget 2 _ rfl) rfl ?_
  exact .next (hget 3 _ rfl) (.inr ⟨.inr rfl, .inr rfl, .inl rfl⟩) rfl (hlen ▸ htrue)

/-- The way out comes to its end. -/
theorem ExitCode.goes {front : List Instruction} (hexit : ExitCode front c)
    (hfront : ∀ i ∈ front, i.Plain)
    (h : allocate (c.instructions ++ tailCode c.retVal ch.last.locals) = .ok code') :
    Goes m (c.assembled ++ code') (c.endInstruction ch.last).exitIndex := by
  have hindex : (c.endInstruction ch.last).exitIndex = c.assembled.length +
      (c.instructions ++ ch.last.locals.map (mv ZERO)).findIdx fun i => i.rd = A0 ∨ i.rd = A1 := rfl
  cases hexit with
  | internal hass hslots hinstr => exact c.goes_plain (hinstr ▸ hfront) h
  | noChain hass hslots hinstr =>
    rw [hinstr, List.append_assoc] at h
    rw [hindex, hinstr, List.append_assoc, hass, List.cons_append, findIdx_of_front hfront rfl]
    simpa using goes_straightExit (B := []) (by simp)
      ⟨.inr rfl, .inr ⟨by simp [li, A1, ZERO], rfl, rfl⟩⟩ (.inr rfl) (.inl rfl) (.inl (.inr rfl))
      rfl h
  | direct K sd hK hsd hass hslots hinstr =>
    rw [hinstr, List.append_assoc] at h
    rw [hindex, hinstr, List.append_assoc, hass, List.cons_append, findIdx_of_front hfront rfl]
    simpa using goes_straightExit (straight_concat hK hsd)
      ⟨.inr rfl, .inl ⟨Func.noConfusion, Func.noConfusion⟩⟩ (.inl rfl) (.inl rfl) (.inl (.inr rfl))
      rfl h
  | conditional r K₁ K₂ sd₁ sd₂ hK₁ hK₂ hsd₁ hsd₂ hass hslots hinstr =>
    rw [hinstr, List.append_assoc] at h
    rw [hindex, hinstr, List.append_assoc, hass, List.cons_append, findIdx_of_front hfront rfl]
    simpa using goes_conditional (r := r) hfront (straight_concat hK₁ hsd₁)
      (straight_concat hK₂ hsd₂) (by simpa [conditionalCode] using h)

theorem Context.endBlock_eq_ok {code : List Instruction} {slots : List Slot} {p : Packet}
    (h : (c.endInstruction p).endBlock = .ok (code, slots)) :
    ∃ code', allocate (c.instructions ++ tailCode c.retVal p.locals) = .ok code' ∧
      code = c.assembled ++ code' ∧
        slots =
          c.slots.map fun e => ⟨c.assembled.length + e.slot, c.assembled.length + e.store⟩ := by
  unfold Context.endBlock at h
  obtain ⟨code', hcode', h⟩ := bind_eq_ok.1 h
  obtain ⟨rfl, rfl⟩ := Prod.mk.inj (pure_eq_ok.1 h)
  refine ⟨code', ?_, rfl, rfl⟩
  rwa [Context.endInstruction, Context.emit, List.append_assoc] at hcode'

/-- The code of a block goes back to where it was called from, with the exit code and the slot, if
and only if the block has an exit, or `A1` is 0 when it is entered. Once it is past the other
nodes, it comes to its end. -/
theorem exit_right_iff (ch : Chunk) {c : Context} (hc : ch.lower = .ok c) {code : List Instruction}
    {slots : List Slot} (h : c.endBlock = .ok (code, slots)) (m : Semantics Env) {s : State Env}
    (hpc : s.pc = 0) :
    (∀ t, (m.machine code).Visits s t → t.pc = c.exitIndex →
        ∃ l, (m.machine code).Returns t (some l)) ∧
      ∀ l, (m.machine code).Returns s (some l) →
        (Right ch m code slots s l ↔ ch.exit.isSome ∨ s.regs A1.encoding = 0) := by
  obtain ⟨c', hmat, hc⟩ := bind_eq_ok.1 hc
  obtain rfl := pure_eq_ok.1 hc
  obtain ⟨code', halloc, rfl, rfl⟩ := Context.endBlock_eq_ok h
  have hfront := ch.context_front
  cases hexit : ch.exit with
  | none =>
    rw [hexit] at hmat
    obtain rfl := Except.ok.inj hmat
    rw [hfront.assembled, hfront.slots]
    refine ⟨fun t _ => ?_, fun l hr => ?_⟩
    · have := Context.goes_plain (m := m) hfront.plain halloc t
      rwa [hfront.assembled] at this
    · obtain ⟨htarget, ha0, ha1⟩ := run_plain hfront.plain (by simp) halloc hr hpc
      have hkeep : l.regs A1.encoding = s.regs A1.encoding := ha1
      rw [← hkeep]
      refine ⟨fun hright => .inr (hright.slot.resolve_right (by simp)), fun hzero => ?_⟩
      refine ⟨htarget, ?_, .inl (hzero.resolve_left (by simp))⟩
      exact ha0.trans (by rw [BitVec.ofInt_natCast, Chunk.way, hexit]; rfl)
  | some e =>
    rw [hexit] at hmat
    obtain ⟨hret, front, hplain, hshape⟩ := hfront.materialise rfl hmat
    refine ⟨fun t _ => hshape.goes hplain halloc t, fun l hr => iff_of_true ?_ (.inl rfl)⟩
    exact hshape.right hplain (by rw [hret, Chunk.way, hexit]; rfl) halloc hr hpc

end Exit

/-- Nothing to emit. -/
def Lowering.empty : Lowering where
  code := []
  plain := by simp

def Packet.empty : Packet where
  loads := .empty
  nodes := []
  locals := []

/-- A block that only jumps to address `0x401136`. -/
def jumpBlock : Chunk where
  packets := []
  last := .empty
  exit := some (.writePc
    { updatesPc := .br
      value :=
        { isGpr := true
          width := 64
          asInt := some 0x401136
          csel := none
          lowering := .empty
          reg := noneReg }
      writeBack := .empty })

/-- Instructions of 4 bytes each. -/
def fourBytes (base : BitVec 64) : Semantics Unit where
  addr k := base + BitVec.ofNat 64 (4 * k)
  alu _ _ _ _ := 0
  effect _ _ _ _ := ()
  taken _ _ _ := false

/-- The host comes from the trampoline, with the return address in `RA` and the state in `A1`. -/
def fromTrampoline : State Unit where
  pc := 0
  regs := Function.update (Function.update (fun _ => 0) RA.encoding 0x10000) A1.encoding 0x20000
  env := ()

theorem jumpBlock_lower : jumpBlock.lower = .ok
    { instructions := [auipc A1 0,
        { type := .rdImm, func := .other "lui", rd := ⟨64⟩, imm := 0x401000 },
        { type := .rdRs1Imm, func := .other "addiw", rd := ⟨64⟩, rs1 := ⟨64⟩, imm := 0x136 },
        storeFP "sd" ⟨64⟩ Reg.PC.offset]
      registers := 1
      slots := [⟨0, 3⟩] } := by
  have hconst : genConstant 64 0x401136 = [.lui 64 0x401000, .addiw 64 64 0x136] := by
    rw [genConstant]
    decide
  have hstore : (Context.mk [] [auipc A1 0] 0 0 []).storePc 0 0x401136 = Context.mk []
      [auipc A1 0, ofConst (.lui 64 0x401000), ofConst (.addiw 64 64 0x136),
        storeFP "sd" ⟨64⟩ Reg.PC.offset] 1 0 [⟨0, 3⟩] := by
    unfold Context.storePc Context.materialiseConstant
    rw [if_neg (by decide)]
    simp only [Nat.add_zero, RegisterOperand.virtualBase, hconst]
    rfl
  exact congrArg (fun c => Except.ok (Context.endInstruction c .empty)) hstore

theorem exit_right_jumpBlock :
    ∃ c code slots l, jumpBlock.lower = .ok c ∧ c.endBlock = .ok (code, slots) ∧
      ((fourBytes 0x5000).machine code).Returns fromTrampoline (some l) ∧
        Right jumpBlock (fourBytes 0x5000) code slots fromTrampoline l := by
  refine ⟨_, _, _, _, jumpBlock_lower, rfl, Machine.returns_of_run (n := 10) rfl, ?_⟩
  have hright := exit_right_iff jumpBlock jumpBlock_lower rfl (fourBytes 0x5000)
    (s := fromTrampoline)
    rfl
  exact (hright.2 _ (Machine.returns_of_run (n := 10) rfl)).2 (.inl rfl)

/-- A block of nothing but instructions that do nothing. -/
def nopBlock : Chunk where
  packets := List.replicate 4095 .empty
  last := .empty
  exit := none

theorem nopBlock_lower : nopBlock.lower = .ok {} := by
  have hfold : ∀ n, (List.replicate n Packet.empty).foldl
      (fun c p => Context.endInstruction (c.beginInstruction p) p) {} = {} := by
    intro n
    induction n with
    | zero => rfl
    | succ n ih => exact ih
  rw [Chunk.lower, Chunk.context, nopBlock, hfold]
  rfl

theorem not_exit_right_nopBlock :
    ∃ c code slots l, nopBlock.lower = .ok c ∧ c.endBlock = .ok (code, slots) ∧
      ((fourBytes 0x5000).machine code).Returns fromTrampoline (some l) ∧
        ¬Right nopBlock (fourBytes 0x5000) code slots fromTrampoline l := by
  refine ⟨{}, _, _, _, nopBlock_lower, rfl, Machine.returns_of_run (n := 3) rfl, fun h => ?_⟩
  rcases h.slot with hzero | ⟨e, he, -⟩
  · exact absurd hzero (by decide)
  · cases he

end Arancini.Riscv.Builder
