import Arancini.Lib.Machine
import Arancini.Riscv.BuilderSound

/-!
# Running the code of a block

The machine runs code that the scan of the builder has been over. What an instruction computes is
a parameter, but for `auipc` and the addition of an immediate ; where it goes next is not.

A run through a part of the code that jumps to no label outside comes to the end of the part, and
keeps what no instruction of the part writes (`comes_through`). `Goes` is the other direction :
code whose operands are registers of the host, and whose labels are there, comes to its end.
-/

namespace Arancini.Riscv.Builder

/-! ## Running the code -/

instance (r : RegisterOperand) : Decidable r.Fixed :=
  inferInstanceAs (Decidable (_ ∨ _))

/-- The registers of the host, and the rest of its state. -/
structure State (Env : Type*) where
  pc : ℕ
  regs : ℕ → BitVec 64
  env : Env

/-- What the instructions do, with the values they read. -/
structure Semantics (Env : Type*) where
  /-- The address of the instruction at an index. -/
  addr : ℕ → BitVec 64
  alu : Instruction → BitVec 64 → BitVec 64 → Env → BitVec 64
  effect : Instruction → BitVec 64 → BitVec 64 → Env → Env
  taken : Instruction → BitVec 64 → BitVec 64 → Bool

/-- Where the code jumps to, when it leaves. -/
structure Left (Env : Type*) where
  target : BitVec 64
  regs : ℕ → BitVec 64
  env : Env

/-- What comes after an instruction. -/
inductive Flow
  | next
  | jump (label : Label)
  | branch (label : Label)
  | leave

namespace Instruction

def flow (i : Instruction) : Flow :=
  match i.type with
  | .rdLabelNear | .rdLabelFar => .jump i.label
  | .rs1Rs2LabelNear | .rs1Rs2LabelFar | .rs1Rs2Label => .branch i.label
  | .rdRs1Imm => if i.func = .jalr then .leave else .next
  | _ => .next

/-- `emit` leaves nothing but alignment of it. -/
def isSilent (i : Instruction) : Bool :=
  match i.type with
  | .dead | .noop | .label | .imm => true
  | _ => false

def binds (i : Instruction) (label : Label) : Bool :=
  i.type = .label && i.label = label

end Instruction

variable {Env : Type*}

def readReg (regs : ℕ → BitVec 64) (r : RegisterOperand) : BitVec 64 :=
  if r = ZERO then 0 else regs r.encoding

def writeReg (regs : ℕ → BitVec 64) (r : RegisterOperand) (v : BitVec 64) : ℕ → BitVec 64 :=
  if r = ZERO then regs else Function.update regs r.encoding v

namespace Semantics

/-- What the instruction writes to its register. -/
def value (m : Semantics Env) (i : Instruction) (pc : ℕ) (x y : BitVec 64) (env : Env) :
    BitVec 64 :=
  match i.func with
  | .addiNormal => x + BitVec.ofInt 64 i.imm
  | .auipc => m.addr pc + BitVec.ofInt 64 i.imm
  | _ => m.alu i x y env

/-- The state after the instruction, if the next one follows. -/
def exec (m : Semantics Env) (i : Instruction) (s : State Env) : State Env where
  pc := s.pc + 1
  regs :=
    if i.hasRd then
      writeReg s.regs i.rd (m.value i s.pc (readReg s.regs i.rs1) (readReg s.regs i.rs2) s.env)
    else s.regs
  env := m.effect i (readReg s.regs i.rs1) (readReg s.regs i.rs2) s.env

/-- On from the label. -/
def jump (code : List Instruction) (l : Label) (s : State Env) :
    State Env ⊕ Option (Left Env) :=
  match code.findIdx? (·.binds l) with
  | some p => .inl { s with pc := p }
  | none => .inr none

/-- A run is stuck at an instruction with an operand that is no register of the host. -/
def machine (m : Semantics Env) (code : List Instruction) : Machine (State Env) (Option (Left Env))
    where
  step s :=
    match code[s.pc]? with
    | none => .inr none
    | some i =>
      if i.isSilent then .inl { s with pc := s.pc + 1 }
      else if ¬(i.rd.Fixed ∧ i.rs1.Fixed ∧ i.rs2.Fixed) then .inr none
      else
        match i.flow with
        | .next => .inl (m.exec i s)
        | .jump l => jump code l (m.exec i s)
        | .branch l =>
          if m.taken i (readReg s.regs i.rs1) (readReg s.regs i.rs2) then jump code l (m.exec i s)
          else .inl (m.exec i s)
        | .leave =>
          .inr (some ⟨readReg s.regs i.rs1 + BitVec.ofInt 64 i.imm, (m.exec i s).regs,
            (m.exec i s).env⟩)

end Semantics

/-! ## Runs through a part of the code -/

section Run

variable {Env : Type*} {m : Semantics Env} {code : List Instruction} {s t : State Env}
  {l : Left Env} {i : Instruction}

theorem Semantics.exec_regs_of_ne (m : Semantics Env) (i : Instruction) (s : State Env) {r : ℕ}
    (h : i.rd.encoding ≠ r) : (m.exec i s).regs r = s.regs r := by
  rw [Semantics.exec]
  dsimp only
  split
  · rw [writeReg]
    split
    · rfl
    · exact Function.update_of_ne (Ne.symm h) ..
  · rfl

/-- A run that comes to its end goes past a silent instruction. -/
theorem step_of_silent (hi : code[s.pc]? = some i) (hs : i.isSilent = true)
    (hr : (m.machine code).Returns s (some l)) :
    (m.machine code).step s = .inl { s with pc := s.pc + 1 } ∧
      (m.machine code).Returns { s with pc := s.pc + 1 } (some l) := by
  have hstep : (m.machine code).step s = .inl { s with pc := s.pc + 1 } := by
    simp only [Semantics.machine, hi, hs, if_true]
  cases hr with
  | stop h => cases hstep.symm.trans h
  | move h hr =>
    obtain rfl := Sum.inl.inj (hstep.symm.trans h)
    exact ⟨hstep, hr⟩

/-- What an instruction does in a run that comes to its end. -/
inductive Steps (m : Semantics Env) (code : List Instruction) (i : Instruction) (s : State Env)
    (l : Left Env) : Prop
  | next (t : State Env) (ht : t = m.exec i s)
      (hstep : (m.machine code).step s = .inl t) (hr : (m.machine code).Returns t (some l))
      (hflow : i.flow = .next ∨ ∃ label, i.flow = .branch label)
  | jump (label : Label) (p : ℕ) (t : State Env) (ht : t = { m.exec i s with pc := p })
      (hp : code.findIdx? (·.binds label) = some p)
      (hstep : (m.machine code).step s = .inl t) (hr : (m.machine code).Returns t (some l))
      (hflow : i.flow = .jump label ∨ i.flow = .branch label)
  | leave (hflow : i.flow = .leave)
      (hl : l = ⟨readReg s.regs i.rs1 + BitVec.ofInt 64 i.imm, (m.exec i s).regs, (m.exec i s).env⟩)
      (hend : ∀ t, (m.machine code).Visits s t → t = s)

theorem steps_of_returns (hi : code[s.pc]? = some i) (hs : i.isSilent = false)
    (hr : (m.machine code).Returns s (some l)) : Steps m code i s l := by
  cases hr with
  | stop h =>
    have hstep := h
    simp only [Semantics.machine, hi, hs, Bool.false_eq_true, if_false] at h
    split at h
    · cases h
    · split at h
      · cases h
      · unfold Semantics.jump at h
        split at h <;> cases h
      · split at h
        · unfold Semantics.jump at h
          split at h <;> cases h
        · cases h
      · next hflow =>
        refine .leave hflow ?_ fun t hv => ?_
        · simpa using h.symm
        · cases hv with
          | refl => rfl
          | move h' _ => cases hstep.symm.trans h'
  | move h hr =>
    have hstep := h
    simp only [Semantics.machine, hi, hs, Bool.false_eq_true, if_false] at h
    split at h
    · cases h
    · split at h
      · next hflow => exact .next _ (Sum.inl.inj h).symm hstep hr (.inl hflow)
      · next label hflow =>
        unfold Semantics.jump at h
        split at h
        · next p hp => exact .jump label p _ (Sum.inl.inj h).symm hp hstep hr (.inl hflow)
        · cases h
      · next label hflow =>
        split at h
        · unfold Semantics.jump at h
          split at h
          · next p hp => exact .jump label p _ (Sum.inl.inj h).symm hp hstep hr (.inr hflow)
          · cases h
        · exact .next _ (Sum.inl.inj h).symm hstep hr (.inr ⟨label, hflow⟩)
      · cases h

/-- The instruction does not leave the block, jumps to no label of the code that is not between two
indices, and keeps some registers. -/
structure Instruction.Within (code : List Instruction) (lo hi : ℕ) (keep : Set ℕ)
    (i : Instruction) : Prop where
  flow : i.flow ≠ .leave
  labels : ∀ label, i.flow = .jump label ∨ i.flow = .branch label →
    ∀ p, code.findIdx? (·.binds label) = some p → lo ≤ p ∧ p ≤ hi
  rd : i.rd.encoding ∉ keep

/-- From the one state the run comes to the other, which is at index `hi`, and stays at indices
from `lo` on until then. -/
structure Comes (m : Semantics Env) (code : List Instruction) (lo hi : ℕ) (l : Left Env)
    (s t : State Env) : Prop where
  visits : (m.machine code).Visits s t
  returns : (m.machine code).Returns t (some l)
  pc : t.pc = hi
  before : ∀ u, (m.machine code).Visits s u →
    lo ≤ u.pc ∧ u.pc < hi ∨ (m.machine code).Visits t u

theorem Comes.move {lo hi : ℕ} (hlo : lo ≤ s.pc) (hhi : s.pc < hi)
    (hstep : (m.machine code).step s = .inl t) {u : State Env} (h : Comes m code lo hi l t u) :
    Comes m code lo hi l s u := by
  refine ⟨.move hstep h.visits, h.returns, h.pc, fun v hv => ?_⟩
  cases hv with
  | refl => exact .inl ⟨hlo, hhi⟩
  | move hstep' hv =>
    obtain rfl := Sum.inl.inj (hstep.symm.trans hstep')
    exact h.before v hv

/-- A run that comes to its end comes to the end of a part that it is in. -/
theorem comes_through {lo hi : ℕ} {keep : Set ℕ}
    (hpart : ∀ k i, lo ≤ k → k < hi → code[k]? = some i → i.Within code lo hi keep)
    {r : Option (Left Env)} (hr : (m.machine code).Returns s r) (hl : r = some l)
    (hlo : lo ≤ s.pc) (hhi : s.pc ≤ hi) :
    ∃ t, Comes m code lo hi l s t ∧ ∀ r ∈ keep, t.regs r = s.regs r := by
  induction hr with
  | @stop s r h =>
    subst hl
    by_cases hpc : s.pc = hi
    · exact ⟨s, ⟨.refl s, .stop h, hpc, fun u hu => .inr hu⟩, fun _ _ => rfl⟩
    · cases hi : code[s.pc]? with
      | none => simp [Semantics.machine, hi] at h
      | some i =>
        have hw := hpart s.pc i hlo (by omega) hi
        by_cases hs : i.isSilent = true
        · cases (step_of_silent hi hs (.stop h)).1.symm.trans h
        · rcases steps_of_returns hi (by simpa using hs) (.stop h) with
            ⟨_, _, hstep, _, _⟩ | ⟨_, _, _, _, _, hstep, _, _⟩ | ⟨hflow, _, _⟩
          · cases hstep.symm.trans h
          · cases hstep.symm.trans h
          · exact absurd hflow hw.flow
  | @move s t r h hr ih =>
    subst hl
    by_cases hpc : s.pc = hi
    · exact ⟨s, ⟨.refl s, .move h hr, hpc, fun u hu => .inr hu⟩, fun _ _ => rfl⟩
    · have hlt : s.pc < hi := by omega
      obtain ⟨hlo', hhi', hkeep⟩ : lo ≤ t.pc ∧ t.pc ≤ hi ∧ ∀ r ∈ keep, t.regs r = s.regs r := by
        cases hi : code[s.pc]? with
        | none => simp [Semantics.machine, hi] at h
        | some i =>
          have hw := hpart s.pc i hlo hlt hi
          have hregs : ∀ r ∈ keep, (m.exec i s).regs r = s.regs r := fun r hr =>
            m.exec_regs_of_ne i s fun h => hw.rd (h ▸ hr)
          by_cases hs : i.isSilent = true
          · obtain rfl := Sum.inl.inj (h.symm.trans (step_of_silent hi hs (.move h hr)).1)
            exact ⟨by dsimp only; omega, by dsimp only; omega, fun _ _ => rfl⟩
          · rcases steps_of_returns hi (by simpa using hs) (.move h hr) with
              ⟨u, hu, hstep, _, _⟩ | ⟨label, p, u, hu, hp, hstep, _, hflow⟩ | ⟨hflow, _, _⟩
            · obtain rfl := Sum.inl.inj (h.symm.trans hstep)
              subst hu
              have hpc' : (m.exec i s).pc = s.pc + 1 := rfl
              exact ⟨by omega, by omega, hregs⟩
            · obtain rfl := Sum.inl.inj (h.symm.trans hstep)
              subst hu
              obtain ⟨hp₁, hp₂⟩ := hw.labels label hflow p hp
              exact ⟨hp₁, hp₂, hregs⟩
            · exact absurd hflow hw.flow
      obtain ⟨u, hcomes, hu⟩ := ih rfl hlo' hhi'
      exact ⟨u, hcomes.move hlo hlt h, fun r hr => (hu r hr).trans (hkeep r hr)⟩

end Run

/-! ## What becomes of the code -/

/-- The instruction is no label and no control flow, links nothing, and writes neither `RA` nor
`A1`. -/
structure Instruction.Straight (i : Instruction) : Prop where
  flow : i.flow = .next
  type : i.type ≠ .label
  rd : i.rd.Fixed → i.rd.encoding ∉ ({1, 11} : Set ℕ)
  noLink : i.NoLink

section Becomes

variable {avoid : Set ℕ} {i o : Instruction} {lbl : Label}

theorem Becomes.flow (h : Becomes avoid i o) : o.flow = i.flow ∨ o.flow = .next := by
  rcases h.type with ht | ht
  · exact .inl (by rw [Instruction.flow, Instruction.flow, ht, h.func, h.label])
  · exact .inr (by rw [Instruction.flow, ht])

theorem Becomes.binds (h : Becomes avoid i o) (ho : o.binds lbl) : i.binds lbl := by
  simp only [Instruction.binds, Bool.and_eq_true, decide_eq_true_eq] at ho ⊢
  rcases h.type with ht | ht
  · exact ⟨ht ▸ ho.1, h.label ▸ ho.2⟩
  · rw [ht] at ho
    cases ho.1

theorem Becomes.type_ne_label (h : Becomes avoid i o) (hi : i.type ≠ .label) : o.type ≠ .label := by
  rcases h.type with ht | ht
  · rwa [ht]
  · rw [ht]
    exact InstructionType.noConfusion

theorem Becomes.straight (h : Becomes {1, 11} i o) (hi : i.Straight) :
    o.flow = .next ∧ o.type ≠ .label ∧ o.rd.encoding ∉ ({1, 11} : Set ℕ) := by
  refine ⟨h.flow.elim (·.trans hi.flow) id, h.type_ne_label hi.type, fun hmem => ?_⟩
  have hf := h.avoids hmem
  rw [h.rd hf] at hmem
  exact hi.rd hf hmem

/-- Nothing becomes of an instruction that stays and names no variable. -/
theorem Becomes.eq_of_stays (h : Becomes avoid i o) (hi : i.Stays) (h₁ : i.rs1.Fixed)
    (h₂ : i.rs2.Fixed) : o = i := by
  cases i
  cases o
  obtain ⟨-, hfunc, himm, hlabel, hrd, hrs1, hrs2, -, hstays⟩ := h
  cases hstays hi
  cases hfunc
  cases himm
  cases hlabel
  cases hrd hi.1
  cases hrs1 h₁
  cases hrs2 h₂
  rfl

end Becomes

theorem Instruction.not_binds {i : Instruction} (h : i.type ≠ .label) (label : Label) :
    i.binds label = false := by
  simp [Instruction.binds, h]

/-- What becomes of straight code. -/
def StraightCode (code : List Instruction) : Prop :=
  ∀ o ∈ code, o.flow = .next ∧ o.type ≠ .label ∧ o.rd.encoding ∉ ({1, 11} : Set ℕ)

theorem straightCode_of_forall₂ {code code' : List Instruction}
    (h : List.Forall₂ (Becomes {1, 11}) code code') (hs : ∀ i ∈ code, i.Straight) :
    StraightCode code' := by
  induction h with
  | nil => simp [StraightCode]
  | @cons i o code code' hio _ ih =>
    intro j hj
    rcases List.mem_cons.1 hj with rfl | hj
    · exact hio.straight (hs i List.mem_cons_self)
    · exact ih (fun i hi => hs i (List.mem_cons_of_mem _ hi)) j hj

theorem mv_straight (r : RegisterOperand) : (mv ZERO r).Straight :=
  ⟨rfl, InstructionType.noConfusion, fun _ => by simp [mv, ZERO], .inl (.inr rfl)⟩

theorem storeFP_straight (name : String) (r : RegisterOperand) (n : ℕ) :
    (storeFP name r n).Straight :=
  ⟨rfl, InstructionType.noConfusion,
    fun _ => by simp [storeFP, noneReg, RegisterOperand.virtualBase], .inl (.inl rfl)⟩

section Run

variable {Env : Type*} {m : Semantics Env} {code : List Instruction} {s t : State Env}
  {l : Left Env}

/-- A run that comes to its end goes through straight code. -/
theorem comes_straight {L S R : List Instruction} (hcode : code = L ++ (S ++ R))
    (hS : StraightCode S) (hr : (m.machine code).Returns s (some l)) (hpc : s.pc = L.length) :
    ∃ t, Comes m code L.length (L.length + S.length) l s t ∧
      ∀ r ∈ ({1, 11} : Set ℕ), t.regs r = s.regs r := by
  refine comes_through (fun k i hlo hhi hk => ?_) hr rfl (by omega) (by omega)
  have hmem : i ∈ S := by
    rw [hcode, List.getElem?_append_right hlo, List.getElem?_append_left (by omega)] at hk
    exact List.mem_of_getElem? hk
  obtain ⟨hflow, -, hrd⟩ := hS i hmem
  refine ⟨by rw [hflow]; exact Flow.noConfusion, fun label hl => ?_, hrd⟩
  rw [hflow] at hl
  rcases hl with hl | hl <;> cases hl

/-- A run that comes to its end makes the step of an instruction that the next one follows. -/
theorem step_of_next {i : Instruction} (hi : code[s.pc]? = some i) (hs : i.isSilent = false)
    (hflow : i.flow = .next) (hr : (m.machine code).Returns s (some l)) :
    (m.machine code).step s = .inl (m.exec i s) ∧
      (m.machine code).Returns (m.exec i s) (some l) := by
  rcases steps_of_returns hi hs hr with
    ⟨t, rfl, hstep, hr, _⟩ | ⟨label, _, _, _, _, _, _, hf⟩ | ⟨hf, _, _⟩
  · exact ⟨hstep, hr⟩
  · rw [hflow] at hf
    rcases hf with hf | hf <;> cases hf
  · rw [hflow] at hf
    cases hf

theorem getElem?_length_append (L : List Instruction) (i : Instruction) (R : List Instruction) :
    (L ++ i :: R)[L.length]? = some i := by
  rw [List.getElem?_append_right (le_refl _), Nat.sub_self]
  rfl

theorem visits_ge_of_step {n : ℕ} (hstep : (m.machine code).step s = .inl t) (hs : n ≤ s.pc)
    (ht : ∀ u, (m.machine code).Visits t u → n ≤ u.pc) :
    ∀ u, (m.machine code).Visits s u → n ≤ u.pc := by
  intro u hu
  cases hu with
  | refl => exact hs
  | move hstep' hu =>
    obtain rfl := Sum.inl.inj (hstep.symm.trans hstep')
    exact ht u hu

theorem exec_li_A0 (m : Semantics Env) (n : ℤ) (s : State Env) :
    (m.exec (li A0 n) s).regs 10 = BitVec.ofInt 64 n := by
  simp [Semantics.exec, Semantics.value, li, Instruction.hasRd, writeReg, readReg, A0, ZERO]

theorem exec_li_A1 (m : Semantics Env) (n : ℤ) (s : State Env) :
    (m.exec (li A1 n) s).regs 11 = BitVec.ofInt 64 n := by
  simp [Semantics.exec, Semantics.value, li, Instruction.hasRd, writeReg, readReg, A1, ZERO]

theorem exec_auipc (m : Semantics Env) (s : State Env) :
    (m.exec (auipc A1 0) s).regs 11 = m.addr s.pc := by
  simp [Semantics.exec, Semantics.value, auipc, Instruction.hasRd, writeReg, A1, ZERO]

theorem exec_auipcKeep (m : Semantics Env) (s : State Env) :
    (m.exec (auipcKeep A1 0) s).regs 11 = m.addr s.pc := by
  simp [Semantics.exec, Semantics.value, auipcKeep, Instruction.hasRd, writeReg, A1, ZERO]

/-- The end of the code : straight code, the exit code, and the return. -/
theorem run_tail {L S : List Instruction} {n : ℤ} (hcode : code = L ++ (S ++ [li A0 n, ret]))
    (hS : StraightCode S) (hr : (m.machine code).Returns s (some l)) (hpc : s.pc = L.length) :
    l.target = s.regs 1 ∧ l.regs 10 = BitVec.ofInt 64 n ∧ l.regs 11 = s.regs 11 ∧
      ∀ u, (m.machine code).Visits s u → L.length ≤ u.pc := by
  obtain ⟨t, ht, hkeep⟩ := comes_straight hcode hS hr hpc
  have hli : code[t.pc]? = some (li A0 n) := by
    rw [ht.pc, hcode, ← List.append_assoc, ← List.length_append]
    exact getElem?_length_append ..
  obtain ⟨hstep, hr'⟩ := step_of_next hli rfl rfl ht.returns
  have hret : code[(m.exec (li A0 n) t).pc]? = some ret := by
    simp only [Semantics.exec, ht.pc, hcode]
    rw [← List.append_assoc, ← List.length_append, List.getElem?_append_right (by omega)]
    simp
  rcases steps_of_returns hret rfl hr' with
    ⟨_, _, _, _, hf⟩ | ⟨_, _, _, _, _, _, _, hf⟩ | ⟨_, rfl, hend⟩
  · rcases hf with hf | ⟨_, hf⟩ <;> cases hf
  · rcases hf with hf | hf <;> cases hf
  · have hregs : ∀ r, (m.exec ret (m.exec (li A0 n) t)).regs r = (m.exec (li A0 n) t).regs r :=
      fun r => by simp [Semantics.exec, ret, Instruction.hasRd, writeReg]
    have hother : ∀ r ∈ ({1, 11} : Set ℕ), (m.exec (li A0 n) t).regs r = s.regs r := by
      intro r hr
      rw [m.exec_regs_of_ne _ _ (by rcases hr with rfl | rfl <;> simp [li, A0]), hkeep r hr]
    refine ⟨?_, (hregs 10).trans (exec_li_A0 m n t), (hregs 11).trans (hother 11 (by simp)), ?_⟩
    · dsimp only
      rw [show ret.imm = 0 from rfl, show ret.rs1 = RA from rfl, readReg, if_neg (by decide),
        show RA.encoding = 1 from rfl, hother 1 (by simp)]
      simp
    · intro u hu
      rcases ht.before u hu with ⟨hu, -⟩ | hu
      · exact hu
      · refine visits_ge_of_step hstep (by rw [ht.pc]; omega) (fun v hv => ?_) u hu
        rw [hend v hv]
        simp only [Semantics.exec, ht.pc]
        omega

theorem Instruction.flow_eq_leave_iff {i : Instruction} :
    i.flow = .leave ↔ i.type = .rdRs1Imm ∧ i.func = .jalr := by
  unfold Instruction.flow
  split <;> simp_all

theorem Instruction.label_of_flow {i : Instruction} {label : Label}
    (h : i.flow = .jump label ∨ i.flow = .branch label) : label = i.label := by
  unfold Instruction.flow at h
  split at h <;> grind

/-- No instruction of a node other than a write of the PC names a host register to write but `ZERO`,
leaves the block, or has a label of the write of the PC. -/
structure Instruction.Plain (i : Instruction) : Prop where
  rd : i.rd.isPhysical → i.rd = ZERO
  func : i.func ≠ .jalr
  label : ∃ n, i.label = .node n

/-- The code of the other nodes does not leave the block, and jumps to labels of its own. -/
def FrontCode (keep : Set ℕ) (code : List Instruction) : Prop :=
  ∀ o ∈ code, o.flow ≠ .leave ∧
    (∀ label, o.flow = .jump label ∨ o.flow = .branch label → ∃ n, label = .node n) ∧
      o.rd.encoding ∉ keep

theorem frontCode_of_forall₂ {keep : Set ℕ} (hkeep : keep ⊆ {1, 11})
    {front front' : List Instruction} (h : List.Forall₂ (Becomes keep) front front')
    (hp : ∀ i ∈ front, i.Plain) :
    FrontCode keep front' := by
  induction h with
  | nil => simp [FrontCode]
  | @cons i o front front' hio _ ih =>
    intro j hj
    rcases List.mem_cons.1 hj with rfl | hj
    · obtain ⟨hrd, hfunc, n, hn⟩ := hp i List.mem_cons_self
      refine ⟨?_, ?_, ?_⟩
      · intro hleave
        rw [Instruction.flow_eq_leave_iff] at hleave
        exact hfunc (hio.func.symm.trans hleave.2)
      · intro label hlabel
        exact ⟨n, (Instruction.label_of_flow hlabel).trans (hio.label.trans hn)⟩
      · intro hmem
        have hf := hio.avoids hmem
        rw [hio.rd hf] at hmem
        rcases hf with hf | hf
        · rw [hf] at hmem
          have := hkeep hmem
          simp [noneReg, RegisterOperand.virtualBase] at this
        · rw [hrd hf] at hmem
          have := hkeep hmem
          simp [ZERO] at this
    · exact ih (fun i hi => hp i (List.mem_cons_of_mem _ hi)) j hj

/-- A run that comes to its end goes through the code of the other nodes. -/
theorem run_front {A F P : List Instruction} {keep : Set ℕ} (hcode : code = A ++ (F ++ P))
    (hF : FrontCode keep F) (hA : ∀ o ∈ A, o.type ≠ .label)
    (hP : ∀ o ∈ P, ∀ n, o.binds (.node n) = false) (hr : (m.machine code).Returns s (some l))
    (hpc : s.pc = A.length) :
    ∃ t, Comes m code A.length (A.length + F.length) l s t ∧ ∀ r ∈ keep, t.regs r = s.regs r := by
  refine comes_through (fun k i hlo hhi hk => ?_) hr rfl (by omega) (by omega)
  have hmem : i ∈ F := by
    rw [hcode, List.getElem?_append_right hlo, List.getElem?_append_left (by omega)] at hk
    exact List.mem_of_getElem? hk
  obtain ⟨hflow, hlabels, hrd⟩ := hF i hmem
  refine ⟨hflow, fun label hl p hp => ?_, hrd⟩
  obtain ⟨n, rfl⟩ := hlabels label hl
  obtain ⟨o, hget, hbinds⟩ : ∃ o, code[p]? = some o ∧ o.binds (.node n) = true := by
    obtain ⟨hlt, hbinds, -⟩ := List.findIdx?_eq_some_iff_getElem.1 hp
    exact ⟨code[p], List.getElem?_eq_getElem hlt, hbinds⟩
  constructor
  · by_contra hlow
    rw [hcode, List.getElem?_append_left (by omega)] at hget
    simp only [Instruction.binds, Bool.and_eq_true, decide_eq_true_eq] at hbinds
    exact hA _ (List.mem_of_getElem? hget) hbinds.1
  · by_contra hhigh
    rw [hcode, List.getElem?_append_right (by omega), List.getElem?_append_right (by omega)] at hget
    rw [hP _ (List.mem_of_getElem? hget) n] at hbinds
    cases hbinds

end Run

/-! ## Code that comes to its end -/

section Goes

variable {Env : Type*} {m : Semantics Env} {code : List Instruction} {i : Instruction} {n p : ℕ}
  {label : Label}

/-- A run from the index comes to its end. -/
def Goes (m : Semantics Env) (code : List Instruction) (n : ℕ) : Prop :=
  ∀ s : State Env, s.pc = n → ∃ l, (m.machine code).Returns s (some l)

theorem Goes.of_step {f : State Env → State Env}
    (hstep : ∀ s : State Env, s.pc = n → (m.machine code).step s = .inl (f s))
    (hf : ∀ s : State Env, s.pc = n → (f s).pc = p) (h : Goes m code p) : Goes m code n := by
  intro s hs
  obtain ⟨l, hl⟩ := h (f s) (hf s hs)
  exact ⟨l, .move (hstep s hs) hl⟩

theorem Goes.silent (hi : code[n]? = some i) (hs : i.isSilent = true) (h : Goes m code (n + 1)) :
    Goes m code n := by
  refine h.of_step (f := fun s => { s with pc := s.pc + 1 }) (fun s hpc => ?_) (fun s hpc => ?_)
  · subst hpc
    simp only [Semantics.machine, hi, hs, if_true]
  · dsimp only
    rw [hpc]

theorem Instruction.isSilent_of_isDead (h : i.isDead) : i.isSilent = true := by
  have ht : i.type = .dead := of_decide_eq_true h
  rw [Instruction.isSilent, ht]

theorem Goes.next (hi : code[n]? = some i) (hs : i.Settled) (hflow : i.flow = .next)
    (h : Goes m code (n + 1)) : Goes m code n := by
  by_cases hsilent : i.isSilent = true
  · exact h.silent hi hsilent
  · have hfixed := hs.resolve_left fun hd => hsilent (Instruction.isSilent_of_isDead hd)
    refine h.of_step (f := m.exec i) (fun s hpc => ?_) (fun s hpc => ?_)
    · subst hpc
      simp only [Semantics.machine, hi, hsilent, hfixed, hflow, and_self, not_true_eq_false,
        Bool.false_eq_true, if_false]
    · simp only [Semantics.exec, hpc]

theorem Goes.jump (hi : code[n]? = some i) (hs : i.Settled) (hflow : i.flow = .jump label)
    (hp : code.findIdx? (·.binds label) = some p) (h : Goes m code p) : Goes m code n := by
  have hsilent : ¬i.isSilent = true := fun hs => by
    unfold Instruction.isSilent at hs
    unfold Instruction.flow at hflow
    split at hs <;> simp_all
  have hfixed := hs.resolve_left fun hd => hsilent (Instruction.isSilent_of_isDead hd)
  refine h.of_step (f := fun s => { m.exec i s with pc := p }) (fun s hpc => ?_) (fun s hpc => rfl)
  subst hpc
  simp only [Semantics.machine, hi, hsilent, hfixed, hflow, and_self, not_true_eq_false,
    Bool.false_eq_true, if_false, Semantics.jump, hp]

theorem Goes.branch (hi : code[n]? = some i) (hs : i.Settled) (hflow : i.flow = .branch label)
    (hp : code.findIdx? (·.binds label) = some p) (h : Goes m code p) (h' : Goes m code (n + 1)) :
    Goes m code n := by
  have hsilent : ¬i.isSilent = true := fun hs => by
    unfold Instruction.isSilent at hs
    unfold Instruction.flow at hflow
    split at hs <;> simp_all
  have hfixed := hs.resolve_left fun hd => hsilent (Instruction.isSilent_of_isDead hd)
  intro s hpc
  by_cases htaken : m.taken i (readReg s.regs i.rs1) (readReg s.regs i.rs2) = true
  · obtain ⟨l, hl⟩ := h { m.exec i s with pc := p } rfl
    refine ⟨l, .move ?_ hl⟩
    subst hpc
    simp only [Semantics.machine, hi, hsilent, hfixed, hflow, and_self, not_true_eq_false,
      Bool.false_eq_true, if_false, Semantics.jump, hp, htaken, if_true]
  · obtain ⟨l, hl⟩ := h' (m.exec i s) (by simp only [Semantics.exec, hpc])
    refine ⟨l, .move ?_ hl⟩
    subst hpc
    simp only [Semantics.machine, hi, hsilent, hfixed, hflow, and_self, not_true_eq_false,
      Bool.false_eq_true, if_false, htaken]

theorem Goes.straight {R : List Instruction} :
    ∀ {S L : List Instruction}, code = L ++ (S ++ R) → StraightCode S → (∀ i ∈ S, i.Settled) →
      Goes m code (L.length + S.length) → Goes m code L.length
  | [], L, _, _, _, h => h
  | i :: S, L, hcode, hS, hs, h => by
    have hget : code[L.length]? = some i := by
      rw [hcode]
      exact getElem?_length_append ..
    refine .next hget (hs i List.mem_cons_self) (hS i List.mem_cons_self).1 ?_
    rw [← List.length_singleton (a := i), ← List.length_append]
    refine Goes.straight (R := R) (S := S) (by simp [hcode])
      (fun j hj => hS j (List.mem_cons_of_mem i hj))
      (fun j hj => hs j (List.mem_cons_of_mem i hj)) ?_
    rw [List.length_append, List.length_singleton, Nat.add_right_comm]
    exact h

theorem goes_tail {L S : List Instruction} {k : ℤ} (hcode : code = L ++ (S ++ [li A0 k, ret]))
    (hS : StraightCode S) (hs : ∀ i ∈ S, i.Settled) : Goes m code L.length := by
  refine .straight hcode hS hs ?_
  rw [← List.length_append]
  have hli : code[(L ++ S).length]? = some (li A0 k) := by
    rw [hcode, ← List.append_assoc]
    exact getElem?_length_append ..
  have hret : code[(L ++ S).length + 1]? = some ret := by
    rw [hcode, ← List.append_assoc, List.getElem?_append_right (by omega)]
    simp
  refine .next hli (.inr ⟨.inr rfl, .inr rfl, .inl rfl⟩) rfl fun s hpc => ?_
  refine ⟨⟨readReg s.regs ret.rs1 + BitVec.ofInt 64 ret.imm, (m.exec ret s).regs,
    (m.exec ret s).env⟩, .stop ?_⟩
  rw [← hpc] at hret
  simp only [Semantics.machine, hret]
  rfl

end Goes

end Arancini.Riscv.Builder
