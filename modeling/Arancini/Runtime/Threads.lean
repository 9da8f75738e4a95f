import Arancini.X86.EvalOrder

/-!
# Threads of the guest

Each thread has a CPU state of its own, and all of them have one memory. The stack of the x87
registers is no part of the CPU state : it is in memory, where `X87_STACK_BASE` says. `clone`
copies the CPU state of its caller, and with it that register, so all threads of a program have
one x87 stack.

`step` is one guest instruction of one thread, and a run is any interleaving of them. The register
file of a thread is its CPU state and its x87 stack. `solo` runs one thread of a run by itself,
with the shared memory it finds at each of its instructions but the x87 stack it left. A run is
`Isolated` when the register file of every thread is the one it has by itself. It is exactly when
no thread changes its x87 stack while there is another one (`cloneCopies_and_isolated_iff`).
-/

namespace Arancini.Threads

open Ir

/-! ## Programs -/

/-- What the next instruction of a thread does. `clone g` calls `clone` with the registers and the
memory `g`, and what the end of a thread does to memory is left open. -/
inductive Event
  | instr (g : Guest)
  | clone (g : Guest)
  | exit (mem : ℕ → ℕ)

/-- A program. No instruction writes `X87_STACK_BASE`. -/
structure Program where
  next : Guest → Event
  base_of_instr : ∀ {g g'}, next g = .instr g' →
    g'.regs Reg.X87_STACK_BASE.offset = g.regs Reg.X87_STACK_BASE.offset
  base_of_clone : ∀ {g g'}, next g = .clone g' →
    g'.regs Reg.X87_STACK_BASE.offset = g.regs Reg.X87_STACK_BASE.offset

/-! ## Threads -/

/-- The threads there are, by the order they were created in, and memory. -/
structure Pool where
  born : ℕ
  regs : ℕ → Option (ℕ → ℕ)
  mem : ℕ → ℕ

/-- A thread takes a step. If it creates one, `tid` is what the host calls that. -/
structure Label where
  thread : ℕ
  tid : ℕ

/-- `CLONE_PARENT_SETTID`. -/
def cloneParentSettid : ℕ :=
  0x00100000

/-- The registers of the caller of `clone` afterwards. -/
def parentRegs (r : ℕ → ℕ) (tid : ℕ) : ℕ → ℕ :=
  Function.update r Reg.RAX.offset tid

/-- The registers of the new thread when it enters `MainLoop`. -/
def childRegs (r : ℕ → ℕ) : ℕ → ℕ :=
  let r := Function.update r Reg.RAX.offset 0
  let r := Function.update r Reg.RSP.offset (r Reg.RSI.offset)
  Function.update r Reg.FS.offset (r Reg.R8.offset)

/-- What `MainLoopWrapper` does to memory. -/
def cloneMem (g : Guest) (tid : ℕ) : ℕ → ℕ :=
  if g.regs Reg.RDI.offset &&& cloneParentSettid ≠ 0 then
    Guest.store g.mem (g.regs Reg.RDX.offset) tid 4
  else g.mem

/-- One instruction of a thread. -/
def step (P : Program) (s : Pool) (l : Label) : Option Pool :=
  (s.regs l.thread).map fun r =>
    match P.next ⟨r, s.mem⟩ with
    | .instr g => ⟨s.born, Function.update s.regs l.thread (some g.regs), g.mem⟩
    | .clone g =>
      ⟨s.born + 1,
        Function.update (Function.update s.regs l.thread (some (parentRegs g.regs l.tid))) s.born
          (some (childRegs g.regs)),
        cloneMem g l.tid⟩
    | .exit mem => ⟨s.born, Function.update s.regs l.thread none, mem⟩

/-- An interleaving of instructions. -/
def run (P : Program) : Pool → List Label → Option Pool
  | s, [] => some s
  | s, l :: ls => (step P s l).bind fun s' => run P s' ls

/-- The program starts with one thread. -/
def initial (r mem : ℕ → ℕ) : Pool :=
  ⟨1, fun t => if t = 0 then some r else none, mem⟩

/-! ## Register files -/

/-- The eight double words at `base`, by bytes. -/
def contents (base : ℕ) (mem : ℕ → ℕ) : Fin 64 → ℕ := fun k =>
  mem ((base + k) % 2 ^ 64)

/-- Memory with other bytes at `base`. -/
def place (base : ℕ) (stack : Fin 64 → ℕ) (mem : ℕ → ℕ) : ℕ → ℕ := fun a =>
  if h : a < 2 ^ 64 ∧ (a + (2 ^ 64 - base % 2 ^ 64)) % 2 ^ 64 < 64 then stack ⟨_, h.2⟩ else mem a

/-- The general-purpose, flag, vector and control registers of a thread, and its x87 stack. -/
@[ext] structure File where
  regs : ℕ → ℕ
  stack : Fin 64 → ℕ

/-- The register file of registers `r` with memory `mem`. -/
def File.of (r mem : ℕ → ℕ) : File :=
  ⟨r, contents (r Reg.X87_STACK_BASE.offset) mem⟩

/-- The registers and the memory a register file is in. -/
def File.guest (f : File) (mem : ℕ → ℕ) : Guest :=
  ⟨f.regs, place (f.regs Reg.X87_STACK_BASE.offset) f.stack mem⟩

/-- The register file of a thread. -/
def file (s : Pool) (t : ℕ) : Option File :=
  (s.regs t).map fun r => .of r s.mem

/-- The register file of a thread after an instruction of its own. -/
def advance (P : Program) (mem : ℕ → ℕ) (tid : ℕ) (f : File) : Option File :=
  match P.next (f.guest mem) with
  | .instr g => some (.of g.regs g.mem)
  | .clone g => some (.of (parentRegs g.regs tid) (cloneMem g tid))
  | .exit _ => none

/-- Thread `t` by itself, along a run. -/
def solo (P : Program) (t : ℕ) : Pool → Option File → List Label → Option File
  | _, f, [] => f
  | s, f, l :: ls =>
    let f := if l.thread = t then f.bind (advance P s.mem l.tid) else f
    match step P s l with
    | some s' => solo P t s' f ls
    | none => f

/-- In every part of the run, the threads there are at its start have the register files they
have by themselves. -/
def Isolated (P : Program) (s : Pool) (ls : List Label) : Prop :=
  ∀ ls₁ ls₂ ls₃ s₁ s₂ t, ls = ls₁ ++ (ls₂ ++ ls₃) → run P s ls₁ = some s₁ →
    run P s₁ ls₂ = some s₂ → (s₁.regs t).isSome → file s₂ t = solo P t s₁ (file s₁ t) ls₂

/-- The two threads after `clone` have equal registers but for `RAX`, `RSP` and `FS`. -/
def CloneCopies (P : Program) (s : Pool) (ls : List Label) : Prop :=
  ∀ ls₁ l ls₂ s₁ s₂ r g, ls = ls₁ ++ l :: ls₂ → run P s ls₁ = some s₁ → step P s₁ l = some s₂ →
    s₁.regs l.thread = some r → P.next ⟨r, s₁.mem⟩ = .clone g →
    ∃ p q, s₂.regs l.thread = some p ∧ s₂.regs s₁.born = some q ∧
      ∀ off, off ≠ Reg.RAX.offset → off ≠ Reg.RSP.offset → off ≠ Reg.FS.offset → p off = q off

/-- A thread leaves its x87 stack as it is when there is another one. -/
def StackKept (P : Program) (s : Pool) (ls : List Label) : Prop :=
  ∀ ls₁ l ls₂ s₁ s₂ r, ls = ls₁ ++ l :: ls₂ → run P s ls₁ = some s₁ → step P s₁ l = some s₂ →
    s₁.regs l.thread = some r → (∃ t, t ≠ l.thread ∧ (s₁.regs t).isSome) →
    contents (r Reg.X87_STACK_BASE.offset) s₂.mem = contents (r Reg.X87_STACK_BASE.offset) s₁.mem

/-! ## One step -/

/-- The bytes that are there change nothing. -/
theorem place_contents (base : ℕ) (mem : ℕ → ℕ) : place base (contents base mem) mem = mem := by
  funext a
  unfold place
  split
  · next h =>
    have haddr : (base + (a + (2 ^ 64 - base % 2 ^ 64)) % 2 ^ 64) % 2 ^ 64 = a := by omega
    rw [contents, haddr]
  · rfl

theorem guest_of (r mem : ℕ → ℕ) : (File.of r mem).guest mem = ⟨r, mem⟩ := by
  rw [File.guest, File.of, place_contents]

/-- Threads have different numbers, and one x87 stack. -/
structure Pool.Inv (s : Pool) : Prop where
  fresh : ∀ t, s.born ≤ t → s.regs t = none
  shared : ∀ {t t' r r'}, s.regs t = some r → s.regs t' = some r' →
    r Reg.X87_STACK_BASE.offset = r' Reg.X87_STACK_BASE.offset

theorem inv_initial (r mem : ℕ → ℕ) : (initial r mem).Inv := by
  refine ⟨fun t ht => if_neg (by simp only [initial] at ht; omega), ?_⟩
  intro t t' p q hp hq
  obtain ⟨-, rfl⟩ : t = 0 ∧ r = p := by simpa [initial] using hp
  obtain ⟨-, rfl⟩ : t' = 0 ∧ r = q := by simpa [initial] using hq
  rfl

/-- What a step does to the threads. -/
theorem step_cases {P : Program} {s s' : Pool} {l : Label} (h : step P s l = some s') :
    ∃ r, s.regs l.thread = some r ∧
      ((∃ g, P.next ⟨r, s.mem⟩ = .instr g ∧
        s' = ⟨s.born, Function.update s.regs l.thread (some g.regs), g.mem⟩) ∨
      (∃ g, P.next ⟨r, s.mem⟩ = .clone g ∧
        s' = ⟨s.born + 1,
          Function.update (Function.update s.regs l.thread (some (parentRegs g.regs l.tid))) s.born
            (some (childRegs g.regs)),
          cloneMem g l.tid⟩) ∨
      ∃ mem, P.next ⟨r, s.mem⟩ = .exit mem ∧
        s' = ⟨s.born, Function.update s.regs l.thread none, mem⟩) := by
  obtain ⟨r, hr, rfl⟩ := Option.map_eq_some_iff.1 h
  refine ⟨r, hr, ?_⟩
  cases hnext : P.next ⟨r, s.mem⟩ with
  | instr g => exact .inl ⟨g, rfl, rfl⟩
  | clone g => exact .inr (.inl ⟨g, rfl, rfl⟩)
  | exit mem => exact .inr (.inr ⟨mem, rfl, rfl⟩)

theorem Pool.Inv.lt_born {s : Pool} (h : s.Inv) {t : ℕ} {r : ℕ → ℕ}
    (hr : s.regs t = some r) : t < s.born := by
  by_contra hlt
  rw [h.fresh t (not_lt.1 hlt)] at hr
  cases hr

theorem parentRegs_base (r : ℕ → ℕ) (tid : ℕ) :
    parentRegs r tid Reg.X87_STACK_BASE.offset = r Reg.X87_STACK_BASE.offset :=
  Function.update_of_ne (by decide) ..

theorem childRegs_of_ne (r : ℕ → ℕ) {off : ℕ} (hrax : off ≠ Reg.RAX.offset)
    (hrsp : off ≠ Reg.RSP.offset) (hfs : off ≠ Reg.FS.offset) : childRegs r off = r off := by
  simp only [childRegs]
  rw [Function.update_of_ne hfs, Function.update_of_ne hrsp, Function.update_of_ne hrax]

theorem childRegs_base (r : ℕ → ℕ) :
    childRegs r Reg.X87_STACK_BASE.offset = r Reg.X87_STACK_BASE.offset :=
  childRegs_of_ne r (by decide) (by decide) (by decide)

/-- A thread keeps the base of its x87 stack, and a new one has that of its creator. -/
theorem base_of_step {P : Program} {s s' : Pool} {l : Label} (h : step P s l = some s') {t : ℕ}
    {r' : ℕ → ℕ} (hr' : s'.regs t = some r') :
    ∃ t₀ r, s.regs t₀ = some r ∧
      r' Reg.X87_STACK_BASE.offset = r Reg.X87_STACK_BASE.offset := by
  obtain ⟨r, hr, ⟨g, hnext, rfl⟩ | ⟨g, hnext, rfl⟩ | ⟨mem, hnext, rfl⟩⟩ := step_cases h
  · by_cases ht : t = l.thread
    · obtain rfl : g.regs = r' := by simpa [ht] using hr'
      exact ⟨l.thread, r, hr, P.base_of_instr hnext⟩
    · exact ⟨t, r', by simpa [Function.update_of_ne ht] using hr', rfl⟩
  · by_cases hborn : t = s.born
    · obtain rfl : childRegs g.regs = r' := by simpa [hborn] using hr'
      exact ⟨l.thread, r, hr, (childRegs_base _).trans (P.base_of_clone hnext)⟩
    · by_cases ht : t = l.thread
      · dsimp only at hr'
        rw [Function.update_of_ne hborn, ht, Function.update_self] at hr'
        obtain rfl := Option.some.inj hr'
        exact ⟨l.thread, r, hr, (parentRegs_base _ _).trans (P.base_of_clone hnext)⟩
      · exact ⟨t, r', by simpa [Function.update_of_ne hborn, Function.update_of_ne ht] using hr',
          rfl⟩
  · by_cases ht : t = l.thread
    · simp [ht] at hr'
    · exact ⟨t, r', by simpa [Function.update_of_ne ht] using hr', rfl⟩

theorem regs_of_step {P : Program} {s s' : Pool} {l : Label} (h : step P s l = some s') {t : ℕ}
    (ht : t ≠ l.thread) (hborn : t ≠ s.born) : s'.regs t = s.regs t := by
  obtain ⟨r, -, ⟨g, -, rfl⟩ | ⟨g, -, rfl⟩ | ⟨mem, -, rfl⟩⟩ := step_cases h
  · exact Function.update_of_ne ht ..
  · exact (Function.update_of_ne hborn ..).trans (Function.update_of_ne ht ..)
  · exact Function.update_of_ne ht ..

theorem born_le_of_step {P : Program} {s s' : Pool} {l : Label} (h : step P s l = some s') :
    s.born ≤ s'.born := by
  obtain ⟨r, -, ⟨g, -, rfl⟩ | ⟨g, -, rfl⟩ | ⟨mem, -, rfl⟩⟩ := step_cases h
  · exact le_rfl
  · exact Nat.le_succ s.born
  · exact le_rfl

theorem Pool.Inv.step {P : Program} {s s' : Pool} {l : Label} (hinv : s.Inv)
    (h : Threads.step P s l = some s') : s'.Inv := by
  refine ⟨fun t ht => ?_, fun {t t' r r'} hr hr' => ?_⟩
  · obtain ⟨r, hr, hcases⟩ := step_cases h
    have hold : s.regs t = none := hinv.fresh t ((born_le_of_step h).trans ht)
    have hthread : t ≠ l.thread := by
      rintro rfl
      rw [hold] at hr
      cases hr
    have hborn : s'.regs t = s.regs t ∨ t = s.born := by
      by_cases hb : t = s.born
      · exact .inr hb
      · exact .inl (regs_of_step h hthread hb)
    obtain hreg | rfl := hborn
    · rw [hreg, hold]
    · obtain ⟨g, -, rfl⟩ | ⟨g, -, rfl⟩ | ⟨mem, -, rfl⟩ := hcases
      · exact (Function.update_of_ne hthread ..).trans hold
      · exact absurd ht (Nat.not_succ_le_self _)
      · exact (Function.update_of_ne hthread ..).trans hold
  · obtain ⟨t₀, r₀, hr₀, hbase⟩ := base_of_step h hr
    obtain ⟨t₁, r₁, hr₁, hbase'⟩ := base_of_step h hr'
    rw [hbase, hbase', hinv.shared hr₀ hr₁]

/-- By its own step a thread advances as it does by itself. -/
theorem file_of_step {P : Program} {s s' : Pool} {l : Label} (hinv : s.Inv)
    (h : step P s l = some s') :
    file s' l.thread = (file s l.thread).bind (advance P s.mem l.tid) := by
  obtain ⟨r, hr, hcases⟩ := step_cases h
  have hfile : (file s l.thread).bind (advance P s.mem l.tid) =
      advance P s.mem l.tid (.of r s.mem) := by
    rw [file, hr]
    rfl
  rw [hfile, advance, guest_of]
  obtain ⟨g, hnext, rfl⟩ | ⟨g, hnext, rfl⟩ | ⟨mem, hnext, rfl⟩ := hcases
  · simp [file, hnext]
  · have hborn : l.thread ≠ s.born := (hinv.lt_born hr).ne
    simp [file, hnext, Function.update_of_ne hborn]
  · simp [file, hnext]

/-- Another thread has the register file it had, if the memory of the x87 stack is as it was. -/
theorem file_of_step_ne {P : Program} {s s' : Pool} {l : Label}
    (h : step P s l = some s') {t : ℕ} (ht : t ≠ l.thread) (hlt : t < s.born)
    (hkept : ∀ r, s.regs t = some r → contents (r Reg.X87_STACK_BASE.offset) s'.mem =
      contents (r Reg.X87_STACK_BASE.offset) s.mem) :
    file s' t = file s t := by
  have hregs := regs_of_step h ht hlt.ne
  cases hr : s.regs t with
  | none => simp [file, hregs, hr]
  | some r => simp [file, hregs, hr, File.of, hkept r hr]

/-! ## Runs -/

theorem run_append (P : Program) : ∀ (s : Pool) (ls₁ ls₂ : List Label),
    run P s (ls₁ ++ ls₂) = (run P s ls₁).bind fun s₁ => run P s₁ ls₂
  | s, [], ls₂ => rfl
  | s, l :: ls₁, ls₂ => by
    simp only [List.cons_append, run]
    cases step P s l with
    | none => rfl
    | some s₁ => exact run_append P s₁ ls₁ ls₂

theorem Pool.Inv.run {P : Program} : ∀ {s s' : Pool} {ls : List Label}, s.Inv →
    Threads.run P s ls = some s' → s'.Inv
  | s, s', [], hinv, h => by
    obtain rfl := Option.some.inj h
    exact hinv
  | s, s', l :: ls, hinv, h => by
    obtain ⟨s₁, hstep, hrun⟩ := Option.bind_eq_some_iff.1 h
    exact (hinv.step hstep).run hrun

/-- What a thread keeps along a run it keeps along the rest of it. -/
theorem StackKept.of_append {P : Program} {s s₁ : Pool} {ls₁ ls₂ : List Label}
    (h : StackKept P s (ls₁ ++ ls₂)) (hrun : run P s ls₁ = some s₁) : StackKept P s₁ ls₂ := by
  intro ls l ls' s₂ s₃ r hls hrun' hstep hr hother
  refine h (ls₁ ++ ls) l ls' s₂ s₃ r (by rw [hls, List.append_assoc]) ?_ hstep hr hother
  rw [run_append, hrun]
  exact hrun'

theorem StackKept.of_left {P : Program} {s : Pool} {ls₁ ls₂ : List Label}
    (h : StackKept P s (ls₁ ++ ls₂)) : StackKept P s ls₁ := by
  intro ls l ls' s₂ s₃ r hls hrun hstep hr hother
  exact h ls l (ls' ++ ls₂) s₂ s₃ r (by rw [hls, List.append_assoc, List.cons_append]) hrun hstep hr
    hother

/-- When the x87 stack is kept, every thread runs as it does by itself. -/
theorem file_eq_solo {P : Program} : ∀ {ls : List Label} {s s' : Pool} {t : ℕ}, s.Inv →
    StackKept P s ls → run P s ls = some s' → t < s.born → file s' t = solo P t s (file s t) ls
  | [], s, s', t, _, _, h, _ => by
    obtain rfl := Option.some.inj h
    rfl
  | l :: ls, s, s', t, hinv, hkept, h, hlt => by
    obtain ⟨s₁, hstep, hrun⟩ := Option.bind_eq_some_iff.1 h
    have hrun₁ : run P s [l] = some s₁ := by simp [run, hstep]
    have hkept' : StackKept P s ([l] ++ ls) := hkept
    have hrest := file_eq_solo (hinv.step hstep) (StackKept.of_append hkept' hrun₁) hrun
      (hlt.trans_le (born_le_of_step hstep))
    rw [hrest]
    simp only [solo, hstep]
    congr 1
    split
    · next ht =>
      obtain rfl := ht
      exact file_of_step hinv hstep
    · next ht =>
      refine file_of_step_ne hstep (Ne.symm ht) hlt fun r hr => ?_
      obtain ⟨p, hp, -⟩ := step_cases hstep
      rw [hinv.shared hr hp]
      exact hkept [] l ls s s₁ p rfl rfl hstep hp ⟨t, Ne.symm ht, by simp [hr]⟩

theorem isolated_of_stackKept {P : Program} {s : Pool} {ls : List Label} (hinv : s.Inv)
    (h : StackKept P s ls) : Isolated P s ls := by
  intro ls₁ ls₂ ls₃ s₁ s₂ t hls hrun₁ hrun₂ hlive
  rw [hls] at h
  obtain ⟨r, hr⟩ := Option.isSome_iff_exists.1 hlive
  have hinv₁ := hinv.run hrun₁
  exact file_eq_solo hinv₁ (h.of_append hrun₁).of_left hrun₂ (hinv₁.lt_born hr)

/-- A thread that changes its x87 stack changes that of the others. -/
theorem stackKept_of_isolated {P : Program} {s : Pool} {ls : List Label} (hinv : s.Inv)
    (h : Isolated P s ls) : StackKept P s ls := by
  rintro ls₁ l ls₂ s₁ s₂ r hls hrun hstep hr ⟨t, ht, hlive⟩
  obtain ⟨r', hr'⟩ := Option.isSome_iff_exists.1 hlive
  have hinv₁ := hinv.run hrun
  have hregs := (regs_of_step hstep ht (hinv₁.lt_born hr').ne).trans hr'
  have hrun₁ : run P s₁ [l] = some s₂ := by simp [run, hstep]
  have hfile := h ls₁ [l] ls₂ s₁ s₂ t hls hrun hrun₁ hlive
  have hsolo : solo P t s₁ (file s₁ t) [l] = file s₁ t := by
    simp only [solo, hstep, if_neg (Ne.symm ht)]
  rw [hsolo, file, file, hregs, hr'] at hfile
  rw [hinv₁.shared hr hr']
  exact congrArg File.stack (Option.some.inj hfile)

theorem cloneCopies {P : Program} {s : Pool} {ls : List Label} (hinv : s.Inv) :
    CloneCopies P s ls := by
  intro ls₁ l ls₂ s₁ s₂ r g hls hrun hstep hr hnext
  have hinv₁ := hinv.run hrun
  obtain ⟨r', hr', hcases⟩ := step_cases hstep
  obtain rfl : r' = r := Option.some.inj (hr'.symm.trans hr)
  rw [hnext] at hcases
  obtain ⟨g', hg', -⟩ | ⟨g', hg', rfl⟩ | ⟨mem, hmem, -⟩ := hcases
  · cases hg'
  · obtain rfl := Event.clone.inj hg'
    refine ⟨parentRegs g.regs l.tid, childRegs g.regs, ?_, Function.update_self .., ?_⟩
    · exact (Function.update_of_ne (hinv₁.lt_born hr).ne ..).trans (Function.update_self ..)
    · intro off hrax hrsp hfs
      rw [childRegs_of_ne _ hrax hrsp hfs]
      exact Function.update_of_ne hrax ..
  · cases hmem

/-- `clone` copies all registers but three, and the threads of a run are isolated exactly when none
changes its x87 stack while there is another one. -/
theorem cloneCopies_and_isolated_iff (P : Program) (r mem : ℕ → ℕ) (ls : List Label) :
    CloneCopies P (initial r mem) ls ∧
      (Isolated P (initial r mem) ls ↔ StackKept P (initial r mem) ls) :=
  ⟨cloneCopies (inv_initial r mem),
    stackKept_of_isolated (inv_initial r mem), isolated_of_stackKept (inv_initial r mem)⟩

/-! ## Programs of translated instructions -/

/-- The node writes `X87_STACK_BASE`. -/
def writesBase : Node → Bool
  | .writeReg off _ _ _ => off = Reg.X87_STACK_BASE.offset
  | _ => false

/-- No node of the packet writes `X87_STACK_BASE`. -/
def KeepsBase (p : Packet) : Prop :=
  ∀ node ∈ p.nodes, writesBase node = false

/-- Calls keep it as well. -/
def CallsKeepBase (ops : Ops) : Prop :=
  ∀ fn vals g, (ops.call fn vals g).1.regs Reg.X87_STACK_BASE.offset =
    g.regs Reg.X87_STACK_BASE.offset

theorem regs_setReg_of_ne (g : Guest) (v : ℕ) {off off' : ℕ} (h : off' ≠ off) :
    (g.setReg off v).regs off' = g.regs off' :=
  Function.update_of_ne h ..

theorem base_of_accumulate (op : TernaryAtomicOp) (vals : List ℕ) (o : Outcome) :
    (o.accumulate op vals).guest.regs Reg.X87_STACK_BASE.offset =
      o.guest.regs Reg.X87_STACK_BASE.offset := by
  unfold Outcome.accumulate
  split
  · split
    · rfl
    · exact regs_setReg_of_ne _ _ (by decide)
  · rfl

theorem base_of_exec {ops : Ops} (hops : CallsKeepBase ops) {node : Node} {vals : List ℕ}
    {pos : NodeId} {g : Guest} {locals : ℕ → ℕ} {o : Outcome}
    (h : exec ops node vals pos g locals = some o)
    (hnode : writesBase node = false) :
    o.guest.regs Reg.X87_STACK_BASE.offset = g.regs Reg.X87_STACK_BASE.offset := by
  unfold exec at h
  split at h
  · obtain ⟨t, -, rfl⟩ := Option.map_eq_some_iff.1 h
    rfl
  · obtain ⟨t, -, rfl⟩ := Option.map_eq_some_iff.1 h
    rfl
  · obtain rfl := Option.some.inj h
    exact regs_setReg_of_ne _ _ (by decide)
  · obtain rfl := Option.some.inj h
    exact regs_setReg_of_ne _ _ (Ne.symm (of_decide_eq_false hnode))
  · obtain rfl := Option.some.inj h
    rfl
  · obtain rfl := Option.some.inj h
    rfl
  · obtain rfl := Option.some.inj h
    rfl
  · obtain rfl := Option.some.inj h
    rfl
  · obtain rfl := Option.some.inj h
    exact base_of_accumulate ..
  · obtain rfl := Option.some.inj h
    exact hops ..
  · obtain rfl := Option.some.inj h
    rfl

/-- One move of a packet keeps the base. -/
theorem base_of_move {ops : Ops} (hops : CallsKeepBase ops) {p : Packet} (hp : KeepsBase p)
    (c : Config) :
    (∀ d, (X86.atFirstUse ops p).step c = .inl d →
      d.guest.regs Reg.X87_STACK_BASE.offset = c.guest.regs Reg.X87_STACK_BASE.offset) ∧
    ∀ g, (X86.atFirstUse ops p).step c = .inr (some g) →
      g.regs Reg.X87_STACK_BASE.offset = c.guest.regs Reg.X87_STACK_BASE.offset := by
  cases hpkt : [p.graph][c.pkt]? with
  | none => simp [X86.atFirstUse, step_of_stray hpkt]
  | some q =>
    obtain rfl : p.graph = q := by
      have hmem := List.mem_of_getElem? hpkt
      exact (List.mem_singleton.1 hmem).symm
    cases hnode : p.graph.nodes[c.pos]? with
    | none => simp [X86.atFirstUse, step_of_end hpkt hnode, leave, X86.alone]
    | some node =>
      have hmem : node ∈ p.nodes := List.mem_of_getElem? hnode
      cases hactive : (lazyPlan (X86.code p)).active c.pkt c.pos with
      | false => simp [X86.atFirstUse, step_of_inactive hpkt hnode hactive, Config.eval]
      | true =>
        rw [X86.atFirstUse, step_of_active hpkt hnode hactive]
        cases hact : act ops node (c.eval ops (lazyPlan (X86.code p)) p.graph) with
        | none => simp [moveOn]
        | some d =>
          obtain ⟨vals, -, hexec⟩ := Option.bind_eq_some_iff.1 hact
          obtain ⟨o, ho, rfl⟩ := Option.map_eq_some_iff.1 hexec
          have hbase := base_of_exec hops ho (hp node hmem)
          simpa [moveOn, Config.after, Config.eval] using hbase

/-- The registers a packet was entered with, and those it is left with, have one base. -/
theorem base_of_returns {ops : Ops} (hops : CallsKeepBase ops) {p : Packet} (hp : KeepsBase p)
    {c : Config} {g : Guest} (h : (X86.atFirstUse ops p).Returns c (some g)) :
    g.regs Reg.X87_STACK_BASE.offset = c.guest.regs Reg.X87_STACK_BASE.offset := by
  generalize hr : some g = r at h
  induction h with
  | stop hstep =>
    subst hr
    exact (base_of_move hops hp _).2 g hstep
  | move hstep _ ih => rw [ih hr, (base_of_move hops hp _).1 _ hstep]

/-- The instruction a thread is at : its packet, and the address after it. -/
structure Inst where
  packet : Packet
  after : ℕ
  keepsBase : KeepsBase packet

/-- The packet calls `handle_syscall`. -/
def Inst.isSyscall (i : Inst) : Bool :=
  i.packet.nodes.any fun
    | .internalCall "handle_syscall" _ _ => true
    | _ => false

/-- The PC after a packet that does not write it. -/
def Inst.leave (i : Inst) (g : Guest) : Guest :=
  if i.packet.updatesPc = .none then g.setReg Reg.PC.offset i.after else g

/-- Run the instruction, in no more than `fuel` moves. -/
def Inst.run (ops : Ops) (fuel : ℕ) (i : Inst) (g : Guest) : Option Guest :=
  ((X86.atFirstUse ops i.packet).run fuel (.enter ops 0 g)).join.map i.leave

theorem Inst.base_of_run {ops : Ops} (hops : CallsKeepBase ops) {fuel : ℕ} {i : Inst}
    {g g' : Guest} (h : i.run ops fuel g = some g') :
    g'.regs Reg.X87_STACK_BASE.offset = g.regs Reg.X87_STACK_BASE.offset := by
  obtain ⟨g₁, hjoin, rfl⟩ := Option.map_eq_some_iff.1 h
  have hreturns := Machine.returns_of_run (Option.join_eq_some_iff.1 hjoin)
  have hbase := base_of_returns hops i.keepsBase hreturns
  unfold Inst.leave
  split
  · exact (regs_setReg_of_ne _ _ (by decide)).trans hbase
  · exact hbase

/-- What a thread does at its PC. System call 56 is `clone`, and a thread with no instruction
there ends. -/
def nextOfCode (ops : Ops) (fuel : ℕ) (code : ℕ → Option Inst) (g : Guest) : Event :=
  match code (g.regs Reg.PC.offset) with
  | none => .exit g.mem
  | some i =>
    match i.run ops fuel g with
    | none => .exit g.mem
    | some g' => if i.isSyscall ∧ g'.regs Reg.RAX.offset = 56 then .clone g' else .instr g'

theorem run_of_nextOfCode {ops : Ops} {fuel : ℕ} {code : ℕ → Option Inst} {g g' : Guest}
    (h : nextOfCode ops fuel code g = .instr g' ∨ nextOfCode ops fuel code g = .clone g') :
    ∃ i : Inst, i.run ops fuel g = some g' := by
  unfold nextOfCode at h
  split at h
  · simp at h
  · next i _ =>
    split at h
    · simp at h
    · next g₁ hrun =>
      refine ⟨i, hrun.trans ?_⟩
      split at h <;> simp_all

/-- The program of translated instructions. -/
def Program.ofCode (ops : Ops) (hops : CallsKeepBase ops) (fuel : ℕ) (code : ℕ → Option Inst) :
    Program where
  next := nextOfCode ops fuel code
  base_of_instr h :=
    let ⟨_, hrun⟩ := run_of_nextOfCode (.inl h)
    Inst.base_of_run hops hrun
  base_of_clone h :=
    let ⟨_, hrun⟩ := run_of_nextOfCode (.inr h)
    Inst.base_of_run hops hrun

/-! ## `FLD1` in one of two threads -/

open X86 in
/-- `interrupt_translator` on `SYSCALL`. -/
def syscall : Builder Port := do
  let pc ← Builder.insert (.u 64) .readPc
  let next ← Builder.binop .add pc (← Builder.const (.u 64) 2)
  let _ ← Builder.writeReg .PC "PC" next
  Builder.internalCall "handle_syscall" (.u 32) []

open X86 in
/-- `fpu_translator` on `FLD1`. -/
def fld1 : Builder Port := do
  let status ← Builder.readReg (.u 16) .X87_STS "X87_STS"
  let status ← Builder.bitInsert status (← Builder.const (.u 16) 0) 9 1
  let _ ← Builder.writeReg .X87_STS "X87_STS" status
  fpuPush (← Builder.const (.f 64) 0x3FF0000000000000)

def syscallPacket : Packet :=
  X86.packetOf 0 (syscall []).2 (by decide)

def fld1Packet : Packet :=
  X86.packetOf 2 (fld1 []).2 (by decide)

theorem keepsBase_syscallPacket : KeepsBase syscallPacket := by
  have h : syscallPacket.nodes.all fun node => !writesBase node := by decide
  simpa [KeepsBase] using h

theorem keepsBase_fld1Packet : KeepsBase fld1Packet := by
  have h : fld1Packet.nodes.all fun node => !writesBase node := by decide
  simpa [KeepsBase] using h

/-- `SYSCALL` and `FLD1`. -/
def cloneThenFld1 : ℕ → Option Inst
  | 0 => some ⟨syscallPacket, 2, keepsBase_syscallPacket⟩
  | 2 => some ⟨fld1Packet, 4, keepsBase_fld1Packet⟩
  | _ => none

/-- The registers `clone` is called with. The x87 stack is at `0x1000`. -/
def callsClone (off : ℕ) : ℕ :=
  if off = Reg.RAX.offset then 56
  else if off = Reg.X87_STACK_BASE.offset then 0x1000
  else if off = Reg.X87_TAG.offset then 0xFFFF
  else 0

def cloneThenFld1Program : Program :=
  .ofCode X86.someOps (fun _ _ _ => rfl) 200 cloneThenFld1

/-- One thread that calls `clone`. -/
def callerOnly : Pool :=
  initial callsClone fun _ => 0

/-- It creates another, and that runs `FLD1`. -/
def fld1Run : List Label :=
  [⟨0, 7⟩, ⟨1, 0⟩]

/-- After `clone`, both threads are there, with one x87 stack, which is empty. -/
theorem exists_run_clone : ∃ s r, run cloneThenFld1Program callerOnly [⟨0, 7⟩] = some s ∧
    (s.regs 0).isSome ∧ s.regs 1 = some r ∧ r Reg.X87_STACK_BASE.offset = 0x1000 ∧
    s.mem 0x103F = 0 := by
  have hrun : (run cloneThenFld1Program callerOnly [⟨0, 7⟩]).any fun s =>
      (s.regs 0).isSome && (s.regs 1).any (fun r => r Reg.X87_STACK_BASE.offset == 0x1000) &&
        s.mem 0x103F == 0 := by
    decide
  obtain ⟨s, hs, hprops⟩ := (Option.any_eq_true _ _).1 hrun
  rw [Bool.and_eq_true, Bool.and_eq_true] at hprops
  obtain ⟨⟨hlive, hany⟩, hmem⟩ := hprops
  obtain ⟨r, hr, hbase⟩ := (Option.any_eq_true _ _).1 hany
  exact ⟨s, r, hs, hlive, hr, eq_of_beq hbase, eq_of_beq hmem⟩

/-- `FLD1` of the new thread changes the x87 stack of the other. -/
theorem not_isolated_fld1Run : ¬Isolated cloneThenFld1Program callerOnly fld1Run := by
  intro h
  have hkept := stackKept_of_isolated (inv_initial callsClone fun _ => 0) h
  have hfld1 : (run cloneThenFld1Program callerOnly fld1Run).any fun s => s.mem 0x103F == 0x3F := by
    decide +kernel
  obtain ⟨s₂, hrun, hmem₂⟩ := (Option.any_eq_true _ _).1 hfld1
  obtain ⟨s₁, r, hclone, hother, hr, hbase, hmem₁⟩ := exists_run_clone
  rw [fld1Run, ← List.singleton_append, run_append, hclone, Option.bind_some] at hrun
  obtain ⟨s₃, hstep, hend⟩ := Option.bind_eq_some_iff.1 hrun
  obtain rfl := Option.some.inj hend
  have hsame := hkept [⟨0, 7⟩] ⟨1, 0⟩ [] s₁ s₃ r rfl hclone hstep hr ⟨0, by decide, hother⟩
  have hbyte := congrFun hsame 63
  rw [hbase] at hbyte
  have hmem : s₃.mem 0x103F = s₁.mem 0x103F := hbyte
  rw [hmem₁, eq_of_beq hmem₂] at hmem
  cases hmem

end Arancini.Threads
