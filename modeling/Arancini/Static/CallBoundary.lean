import Mathlib.Tactic.Common
import Arancini.Lib.System
import Arancini.X86.Reg

/-!
# Guest registers across calls and returns of static code

A generated function keeps every guest register in an alloca of its own
(`reg_to_alloca_`). `MainLoop`, and the translated blocks it runs, keep them in the CPU
state. A call or a return between the two copies registers by hand-written lists :
`saveCalleeRegs` and `restoreCalleeRegs` through the CPU state, `loadArgs`, `wrapRet`
and `unwrapRet` through the arguments and results of the host function.

`runtime` is the system of nested frames. `cross` is one call or return, and the
registers the code sees before and after it are `Config.current`. The code between two
crossings changes registers as it likes, but for `X87_STACK_BASE`, which no translated
instruction writes.

The System V ABI gives a meaning to the locations `meaningful`. Every one of them has
the same value on both sides of a crossing, but for the locations `lost` : `AL` at every
call that leaves or enters a generated function, and `XMM2` to `XMM7` at a call into
one, which `saveCalleeRegs` stores and nothing loads. `intact_iff` says when a crossing
carries them all.
-/

namespace Arancini.Static

open Reg

/-- Contents of the guest registers. -/
abbrev RegFile := Reg → ℕ

/-- Copy the registers `regs`, one after the other. -/
def copyRegs (regs : List Reg) (src dst : RegFile) : RegFile :=
  regs.foldl (fun f r => Function.update f r (src r)) dst

theorem copyRegs_apply (src : RegFile) (r : Reg) :
    ∀ (regs : List Reg) (dst : RegFile),
      copyRegs regs src dst r = if r ∈ regs then src r else dst r
  | [], dst => by simp [copyRegs]
  | q :: regs, dst => by
    have ih := copyRegs_apply src r regs (Function.update dst q (src q))
    rw [copyRegs, List.foldl_cons, ← copyRegs, ih]
    by_cases hr : r ∈ regs
    · simp [hr]
    · by_cases hq : r = q
      · subst hq
        simp
      · simp [hr, hq]

/-! ## The lists of the static engine -/

/-- Registers `save_callee_regs` stores to the CPU state. -/
def calleeSaved : List Reg :=
  [PC, RBX, RSP, RBP, R12, R13, R14, R15, FS, GS, X87_STS, X87_TAG, X87_CTRL, X87_OPCODE,
    ZMM 0, ZMM 1, ZMM 2, ZMM 3, ZMM 4, ZMM 5, ZMM 6, ZMM 7]

/-- Registers `save_callee_regs` stores as well for a callee that is not static. -/
def argRegs : List Reg :=
  [RCX, RDX, RDI, RSI, R8, R9]

/-- Registers `restore_callee_regs` loads from the CPU state. -/
def calleeRestored : List Reg :=
  [PC, RBX, RSP, RBP, R12, R13, R14, R15, FS, GS, X87_STACK_BASE, X87_STS, X87_TAG, X87_CTRL,
    X87_OPCODE, ZMM 0, ZMM 1]

/-- Registers `restore_callee_regs` loads as well after a callee that is not static. -/
def retRegs : List Reg :=
  [RAX, RDX]

/-- Store the callee-saved registers of `alloca` to the CPU state. -/
def saveCalleeRegs (alloca cpu : RegFile) (withArgs : Bool) : RegFile :=
  let cpu := copyRegs calleeSaved alloca cpu
  if withArgs then copyRegs argRegs alloca cpu else cpu

/-- Load the callee-saved registers of the CPU state into `alloca`. -/
def restoreCalleeRegs (alloca cpu : RegFile) (withRets : Bool) : RegFile :=
  let alloca := copyRegs calleeRestored cpu alloca
  if withRets then copyRegs retRegs cpu alloca else alloca

/-- The six integer arguments of a generated function. -/
structure Args where
  rdi : ℕ
  rsi : ℕ
  rdx : ℕ
  rcx : ℕ
  r8 : ℕ
  r9 : ℕ

/-- The two integer results of a generated function. -/
structure Rets where
  rax : ℕ
  rdx : ℕ

/-- Arguments for a generated function, from the registers of its caller : the allocas
of a generated caller, the CPU state in `MainLoop` (`lower_static_fn_lookup`). -/
def loadArgs (f : RegFile) : Args :=
  ⟨f RDI, f RSI, f RDX, f RCX, f R8, f R9⟩

/-- Results of a generated function, from its allocas. -/
def wrapRet (alloca : RegFile) : Rets :=
  ⟨alloca RAX, alloca RDX⟩

/-- Store the results of a generated function to `RAX` and `RDX`. -/
def unwrapRet (f : RegFile) (ret : Rets) : RegFile :=
  Function.update (Function.update f RAX ret.rax) RDX ret.rdx

/-- Every alloca starts at zero. -/
def initRegs : RegFile :=
  fun _ => 0

/-- Allocas at the first packet of a generated function. -/
def prologue (cpu : RegFile) (args : Args) : RegFile :=
  let alloca := restoreCalleeRegs initRegs cpu false
  let alloca := Function.update alloca RDI args.rdi
  let alloca := Function.update alloca RSI args.rsi
  let alloca := Function.update alloca RDX args.rdx
  let alloca := Function.update alloca RCX args.rcx
  let alloca := Function.update alloca R8 args.r8
  Function.update alloca R9 args.r9

/-! ## Frames -/

/-- Where a generated function stands. `dyn` waits for the `MainLoop` its last block
calls, `dynRet` is that block after the call, about to return. -/
inductive Site
  | running
  | callStatic
  | callLoop
  | dyn
  | dynRet
  deriving DecidableEq

/-- Where a `MainLoop` stands. After the generated function it called, it returns. -/
inductive LoopSite
  | running
  | callStatic
  | callLoop
  | ret
  deriving DecidableEq

/-- A host frame. -/
inductive Frame
  | static (site : Site) (alloca : RegFile)
  | loop (site : LoopSite)

/-- The host frames, innermost first, and the CPU state. -/
structure Config where
  frames : List Frame
  cpu : RegFile

/-- The registers the running code sees. -/
def Config.current (c : Config) : RegFile :=
  match c.frames with
  | .static _ alloca :: _ => alloca
  | _ => c.cpu

/-- Calls and returns between generated functions and `MainLoop`. -/
inductive Crossing
  | staticCallStatic
  | staticCallLoop
  | staticDyn
  | loopCallStatic
  | loopCallLoop
  | staticRet
  | dynRet
  | loopRet
  deriving DecidableEq

/-- A generated function hands `ret` back to the frame that called it. -/
def deliver (ret : Rets) (cpu : RegFile) : List Frame → Option Config
  | .static .callStatic alloca :: fs =>
    some ⟨.static .running (unwrapRet (restoreCalleeRegs alloca cpu false) ret) :: fs, cpu⟩
  | .loop .callStatic :: fs => some ⟨.loop .ret :: fs, unwrapRet cpu ret⟩
  | _ => none

/-- `MainLoop` returns to the frame that called it. -/
def resume (cpu : RegFile) : List Frame → Option Config
  | .static .callLoop alloca :: fs =>
    some ⟨.static .running (restoreCalleeRegs alloca cpu true) :: fs, cpu⟩
  | .static .dyn alloca :: fs =>
    some ⟨.static .dynRet (restoreCalleeRegs alloca cpu true) :: fs, cpu⟩
  | .loop .callLoop :: fs => some ⟨.loop .running :: fs, cpu⟩
  | _ => none

/-- One call or return. -/
def cross : Crossing → Config → Option Config
  | .staticCallStatic, ⟨.static .running a :: fs, cpu⟩ =>
    let cpu := saveCalleeRegs a cpu false
    some ⟨.static .running (prologue cpu (loadArgs a)) :: .static .callStatic a :: fs, cpu⟩
  | .staticCallLoop, ⟨.static .running a :: fs, cpu⟩ =>
    some ⟨.loop .running :: .static .callLoop a :: fs, saveCalleeRegs a cpu true⟩
  | .staticDyn, ⟨.static .running a :: fs, cpu⟩ =>
    some ⟨.loop .running :: .static .dyn a :: fs, saveCalleeRegs a cpu true⟩
  | .loopCallStatic, ⟨.loop .running :: fs, cpu⟩ =>
    some ⟨.static .running (prologue cpu (loadArgs cpu)) :: .loop .callStatic :: fs, cpu⟩
  | .loopCallLoop, ⟨.loop .running :: fs, cpu⟩ =>
    some ⟨.loop .running :: .loop .callLoop :: fs, cpu⟩
  | .staticRet, ⟨.static .running a :: fs, cpu⟩ =>
    deliver (wrapRet a) (saveCalleeRegs a cpu false) fs
  | .dynRet, ⟨.static .dynRet a :: fs, cpu⟩ => deliver (wrapRet a) cpu fs
  | .loopRet, ⟨.loop .running :: fs, cpu⟩ => resume cpu fs
  | .loopRet, ⟨.loop .ret :: fs, cpu⟩ => resume cpu fs
  | _, _ => none

/-- The code of the innermost frame runs, up to its next call or return. An internal
call may change the CPU state under a generated function. -/
inductive Body : Config → Config → Prop
  | static (a a' cpu cpu' : RegFile) (fs : List Frame) :
    a' X87_STACK_BASE = a X87_STACK_BASE → cpu' X87_STACK_BASE = cpu X87_STACK_BASE →
      Body ⟨.static .running a :: fs, cpu⟩ ⟨.static .running a' :: fs, cpu'⟩
  | loop (cpu cpu' : RegFile) (fs : List Frame) :
    cpu' X87_STACK_BASE = cpu X87_STACK_BASE →
      Body ⟨.loop .running :: fs, cpu⟩ ⟨.loop .running :: fs, cpu'⟩

/-- Nested frames of one guest thread, from the `MainLoop` the runtime calls. -/
def runtime : System Config where
  init c := c.frames = [.loop .running]
  step c c' := Body c c' ∨ ∃ x, cross x c = some c'

/-! ## What the ABI makes meaningful -/

/-- A location of the ABI : a register, or the low part of one. -/
inductive AbiLoc
  | reg (r : Reg)
  | AL
  | XMM (n : Fin 32)
  deriving DecidableEq

/-- Contents of a location. -/
def AbiLoc.read : AbiLoc → RegFile → ℕ
  | reg r, f => f r
  | AL, f => f RAX % 2 ^ 8
  | XMM n, f => f (ZMM n) % 2 ^ 128

/-- Locations that keep their meaning across calls and returns. -/
def preservedLocs : List AbiLoc :=
  [.reg RBX, .reg RBP, .reg R12, .reg R13, .reg R14, .reg R15, .reg RSP, .reg FS, .reg GS,
    .reg X87_STACK_BASE, .reg X87_CTRL, .reg X87_STS, .reg X87_TAG, .reg X87_OPCODE]

/-- Locations that carry arguments. -/
def argLocs : List AbiLoc :=
  [.reg RDI, .reg RSI, .reg RDX, .reg RCX, .reg R8, .reg R9, .AL,
    .XMM 0, .XMM 1, .XMM 2, .XMM 3, .XMM 4, .XMM 5, .XMM 6, .XMM 7]

/-- Locations that carry results. -/
def retLocs : List AbiLoc :=
  [.reg RAX, .reg RDX, .XMM 0, .XMM 1]

/-- Locations the ABI makes meaningful at a crossing. -/
def meaningful : Crossing → List AbiLoc
  | .staticRet | .dynRet | .loopRet => retLocs ++ preservedLocs
  | _ => argLocs ++ preservedLocs

/-- Locations no list carries across the crossing. -/
def lost : Crossing → List AbiLoc
  | .staticCallStatic | .loopCallStatic => [.AL, .XMM 2, .XMM 3, .XMM 4, .XMM 5, .XMM 6, .XMM 7]
  | .staticCallLoop | .staticDyn => [.AL]
  | _ => []

/-- What the receiving side reads in place of a lost location : the zero of a fresh
alloca, or what was last stored to the CPU state. -/
def stale (x : Crossing) (l : AbiLoc) (c : Config) : ℕ :=
  match x with
  | .staticCallStatic | .loopCallStatic => 0
  | _ => l.read c.cpu

/-! ## What a crossing carries -/

@[simp] theorem saveCalleeRegs_apply (alloca cpu : RegFile) (withArgs : Bool) (r : Reg) :
    saveCalleeRegs alloca cpu withArgs r =
      if (withArgs ∧ r ∈ argRegs) ∨ r ∈ calleeSaved then alloca r else cpu r := by
  cases withArgs
  · simp [saveCalleeRegs, copyRegs_apply]
  · by_cases hr : r ∈ argRegs <;> simp [saveCalleeRegs, copyRegs_apply, hr]

@[simp] theorem restoreCalleeRegs_apply (alloca cpu : RegFile) (withRets : Bool) (r : Reg) :
    restoreCalleeRegs alloca cpu withRets r =
      if (withRets ∧ r ∈ retRegs) ∨ r ∈ calleeRestored then cpu r else alloca r := by
  cases withRets
  · simp [restoreCalleeRegs, copyRegs_apply]
  · by_cases hr : r ∈ retRegs <;> simp [restoreCalleeRegs, copyRegs_apply, hr]

/-- A generated function starts with its arguments, what it restores, and zeros. -/
theorem prologue_apply (cpu : RegFile) (args : Args) (r : Reg) :
    prologue cpu args r =
      if r = R9 then args.r9 else if r = R8 then args.r8 else if r = RCX then args.rcx
      else if r = RDX then args.rdx else if r = RSI then args.rsi else if r = RDI then args.rdi
      else if r ∈ calleeRestored then cpu r else 0 := by
  simp [prologue, Function.update_apply, initRegs]

theorem saveCalleeRegs_stackBase (alloca cpu : RegFile) (withArgs : Bool) :
    saveCalleeRegs alloca cpu withArgs X87_STACK_BASE = cpu X87_STACK_BASE := by
  simp [argRegs, calleeSaved]

/-- Into a generated function from a generated function. -/
theorem read_prologue_of_static {a cpu : RegFile} (h : a X87_STACK_BASE = cpu X87_STACK_BASE) :
    ∀ l ∈ argLocs ++ preservedLocs,
      l.read (prologue (saveCalleeRegs a cpu false) (loadArgs a)) =
        if l ∈ lost .staticCallStatic then 0 else l.read a := by
  simp [argLocs, preservedLocs, lost, AbiLoc.read, prologue_apply, loadArgs, calleeRestored,
    calleeSaved, h]

/-- Into a generated function from `MainLoop`. -/
theorem read_prologue_of_loop (cpu : RegFile) :
    ∀ l ∈ argLocs ++ preservedLocs,
      l.read (prologue cpu (loadArgs cpu)) =
        if l ∈ lost .loopCallStatic then 0 else l.read cpu := by
  simp [argLocs, preservedLocs, lost, AbiLoc.read, prologue_apply, loadArgs, calleeRestored]

/-- Into `MainLoop` from a generated function. -/
theorem read_saveCalleeRegs {a cpu : RegFile} (h : a X87_STACK_BASE = cpu X87_STACK_BASE) :
    ∀ l ∈ argLocs ++ preservedLocs,
      l.read (saveCalleeRegs a cpu true) =
        if l ∈ lost .staticCallLoop then l.read cpu else l.read a := by
  simp [argLocs, preservedLocs, lost, AbiLoc.read, argRegs, calleeSaved, h]

/-- Back into a generated function, from a generated function whose registers agree with
the CPU state where the caller restores. -/
theorem read_restore_of_static {a b cpu : RegFile} (h : ∀ r ∈ calleeRestored, a r = cpu r) :
    ∀ l ∈ retLocs ++ preservedLocs,
      l.read (unwrapRet (restoreCalleeRegs b cpu false) (wrapRet a)) = l.read a := by
  simp only [calleeRestored, List.forall_mem_cons] at h
  simp [retLocs, preservedLocs, AbiLoc.read, unwrapRet, wrapRet, calleeRestored, h]

/-- Back into `MainLoop`, from a generated function whose registers agree with the CPU
state where a caller restores. -/
theorem read_unwrapRet {a cpu : RegFile} (h : ∀ r ∈ calleeRestored, a r = cpu r) :
    ∀ l ∈ retLocs ++ preservedLocs, l.read (unwrapRet cpu (wrapRet a)) = l.read a := by
  simp only [calleeRestored, List.forall_mem_cons] at h
  simp [retLocs, preservedLocs, AbiLoc.read, unwrapRet, wrapRet, h]

/-- Back into a generated function from `MainLoop`. -/
theorem read_restore_of_loop (b cpu : RegFile) :
    ∀ l ∈ retLocs ++ preservedLocs, l.read (restoreCalleeRegs b cpu true) = l.read cpu := by
  simp [retLocs, preservedLocs, AbiLoc.read, retRegs, calleeRestored]

/-- After `save_callee_regs`, the allocas agree with the CPU state where a caller
restores. -/
theorem agree_saveCalleeRegs {a cpu : RegFile} (h : a X87_STACK_BASE = cpu X87_STACK_BASE) :
    ∀ r ∈ calleeRestored, a r = saveCalleeRegs a cpu false r := by
  simp [calleeRestored, calleeSaved, h]

/-- The results of a generated function reach its caller. -/
theorem read_current_deliver {a cpu : RegFile} {fs : List Frame} {c : Config}
    (h : ∀ r ∈ calleeRestored, a r = cpu r) (hd : deliver (wrapRet a) cpu fs = some c) :
    ∀ l ∈ retLocs ++ preservedLocs, l.read c.current = l.read a := by
  intro l hl
  unfold deliver at hd
  split at hd
  · cases hd
    exact read_restore_of_static h l hl
  · cases hd
    exact read_unwrapRet h l hl
  · cases hd

/-- The results of `MainLoop` reach its caller. -/
theorem read_current_resume {cpu : RegFile} {fs : List Frame} {c : Config}
    (hd : resume cpu fs = some c) :
    ∀ l ∈ retLocs ++ preservedLocs, l.read c.current = l.read cpu := by
  intro l hl
  unfold resume at hd
  split at hd
  · cases hd
    exact read_restore_of_loop _ cpu l hl
  · cases hd
    exact read_restore_of_loop _ cpu l hl
  · cases hd
    rfl
  · cases hd

/-! ## The frames of a run -/

/-- Every frame holds the stack base of the CPU state, and a function that is about to
return after its `dyn` block holds what it has just restored. -/
structure Synced (c : Config) : Prop where
  stackBase : ∀ site a, Frame.static site a ∈ c.frames →
    a X87_STACK_BASE = c.cpu X87_STACK_BASE
  dynRet : ∀ a fs, c.frames = .static .dynRet a :: fs → ∀ r ∈ calleeRestored, a r = c.cpu r

/-- Frames that hold the stack base, below a frame that is not about to return. -/
theorem Synced.of_cons {f : Frame} {fs : List Frame} {cpu : RegFile}
    (hf : ∀ site a, f = .static site a → site ≠ .dynRet ∧ a X87_STACK_BASE = cpu X87_STACK_BASE)
    (hfs : ∀ site a, Frame.static site a ∈ fs → a X87_STACK_BASE = cpu X87_STACK_BASE) :
    Synced ⟨f :: fs, cpu⟩ where
  stackBase site a ha := by
    rcases List.mem_cons.mp ha with rfl | ha
    · exact (hf site a rfl).2
    · exact hfs site a ha
  dynRet a gs he := by
    obtain ⟨rfl, -⟩ := List.cons.inj he
    exact absurd rfl (hf _ _ rfl).1

theorem synced_init {c : Config} (h : runtime.init c) : Synced c := by
  obtain ⟨fs, cpu⟩ := c
  cases h
  exact .of_cons (by simp) (by simp)

theorem synced_body {c c' : Config} (h : Synced c) (hb : Body c c') : Synced c' := by
  cases hb with
  | static a a' cpu cpu' fs ha hcpu =>
    refine .of_cons ?_ ?_
    · rintro site b ⟨⟩
      exact ⟨by simp, by rw [ha, hcpu]; exact h.stackBase .running a (by simp)⟩
    · intro site b hb
      rw [hcpu]
      exact h.stackBase site b (by simp [hb])
  | loop cpu cpu' fs hcpu =>
    refine .of_cons (by simp) fun site b hb => ?_
    rw [hcpu]
    exact h.stackBase site b (by simp [hb])

theorem synced_deliver {ret : Rets} {cpu : RegFile} {fs : List Frame} {c : Config}
    (h : ∀ site a, Frame.static site a ∈ fs → a X87_STACK_BASE = cpu X87_STACK_BASE)
    (hd : deliver ret cpu fs = some c) : Synced c := by
  unfold deliver at hd
  split at hd
  · cases hd
    refine .of_cons ?_ fun site a ha => h site a (by simp [ha])
    rintro site a ⟨⟩
    exact ⟨by simp, by simp [unwrapRet, calleeRestored]⟩
  · cases hd
    refine .of_cons (by simp) fun site a ha => ?_
    simpa [unwrapRet] using h site a (by simp [ha])
  · cases hd

theorem synced_resume {cpu : RegFile} {fs : List Frame} {c : Config}
    (h : ∀ site a, Frame.static site a ∈ fs → a X87_STACK_BASE = cpu X87_STACK_BASE)
    (hd : resume cpu fs = some c) : Synced c := by
  unfold resume at hd
  split at hd
  · cases hd
    refine .of_cons ?_ fun site a ha => h site a (by simp [ha])
    rintro site a ⟨⟩
    exact ⟨by simp, by simp [calleeRestored]⟩
  · cases hd
    refine ⟨fun site a ha => ?_, ?_⟩
    · rcases List.mem_cons.mp ha with he | ha
      · cases he
        simp [calleeRestored]
      · exact h site a (by simp [ha])
    · rintro a gs ⟨⟩ r hr
      simp [hr]
  · cases hd
    exact .of_cons (by simp) fun site a ha => h site a (by simp [ha])
  · cases hd

theorem synced_cross {x : Crossing} {c c' : Config} (h : Synced c) (hx : cross x c = some c') :
    Synced c' := by
  have hfs : ∀ {f : Frame} {fs : List Frame}, c.frames = f :: fs →
      ∀ site a, Frame.static site a ∈ fs → a X87_STACK_BASE = c.cpu X87_STACK_BASE :=
    fun he site a ha => h.stackBase site a (by simp [he, ha])
  unfold cross at hx
  split at hx
  case h_1 a fs cpu =>
    cases hx
    have ha : a X87_STACK_BASE = cpu X87_STACK_BASE := h.stackBase .running a (by simp)
    refine .of_cons ?_ ?_
    · rintro site b ⟨⟩
      exact ⟨by simp, by simp [prologue_apply, calleeRestored]⟩
    · intro site b hb
      rw [saveCalleeRegs_stackBase]
      rcases List.mem_cons.mp hb with he | hb
      · cases he
        exact ha
      · exact hfs rfl site b hb
  case h_2 a fs cpu =>
    cases hx
    refine .of_cons (by simp) fun site b hb => ?_
    rw [saveCalleeRegs_stackBase]
    rcases List.mem_cons.mp hb with he | hb
    · cases he
      exact h.stackBase .running a (by simp)
    · exact hfs rfl site b hb
  case h_3 a fs cpu =>
    cases hx
    refine .of_cons (by simp) fun site b hb => ?_
    rw [saveCalleeRegs_stackBase]
    rcases List.mem_cons.mp hb with he | hb
    · cases he
      exact h.stackBase .running a (by simp)
    · exact hfs rfl site b hb
  case h_4 fs cpu =>
    cases hx
    refine .of_cons ?_ fun site b hb => hfs rfl site b (by simpa using hb)
    rintro site b ⟨⟩
    exact ⟨by simp, by simp [prologue_apply, calleeRestored]⟩
  case h_5 fs cpu =>
    cases hx
    exact .of_cons (by simp) fun site b hb => hfs rfl site b (by simpa using hb)
  case h_6 a fs cpu =>
    refine synced_deliver (fun site b hb => ?_) hx
    rw [saveCalleeRegs_stackBase]
    exact hfs rfl site b hb
  case h_7 a fs cpu => exact synced_deliver (hfs rfl) hx
  case h_8 fs cpu => exact synced_resume (hfs rfl) hx
  case h_9 fs cpu => exact synced_resume (hfs rfl) hx
  case h_10 => cases hx

/-- Every configuration of a run is synced. -/
theorem synced_of_reachable {c : Config} (h : runtime.Reachable c) : Synced c :=
  h.invariant (fun _ => synced_init) fun _ _ _ hs hst =>
    hst.elim (synced_body hs) fun ⟨_, hx⟩ => synced_cross hs hx

/-- The receiving side of a crossing reads each meaningful location as the sending side
left it, but for the lost ones. -/
theorem read_current_cross {x : Crossing} {c c' : Config} (h : Synced c)
    (hx : cross x c = some c') :
    ∀ l ∈ meaningful x,
      l.read c'.current = if l ∈ lost x then stale x l c else l.read c.current := by
  intro l hl
  unfold cross at hx
  split at hx
  case h_1 a fs cpu =>
    cases hx
    exact read_prologue_of_static (h.stackBase .running a (by simp)) l hl
  case h_2 a fs cpu =>
    cases hx
    exact read_saveCalleeRegs (h.stackBase .running a (by simp)) l hl
  case h_3 a fs cpu =>
    cases hx
    exact read_saveCalleeRegs (h.stackBase .running a (by simp)) l hl
  case h_4 fs cpu =>
    cases hx
    exact read_prologue_of_loop cpu l hl
  case h_5 fs cpu =>
    cases hx
    rfl
  case h_6 a fs cpu =>
    have ha := agree_saveCalleeRegs (h.stackBase .running a (by simp))
    exact read_current_deliver ha hx l hl
  case h_7 a fs cpu => exact read_current_deliver (h.dynRet a fs rfl) hx l hl
  case h_8 fs cpu => exact read_current_resume hx l hl
  case h_9 fs cpu => exact read_current_resume hx l hl
  case h_10 => cases hx

/-! ## Which crossings are intact -/

/-- The crossing leaves every meaningful location as it was. -/
def Intact (x : Crossing) (c c' : Config) : Prop :=
  ∀ l ∈ meaningful x, l.read c'.current = l.read c.current

theorem lost_subset_meaningful (x : Crossing) : lost x ⊆ meaningful x := by
  cases x <;> decide

/-- In every run, a call or return is intact exactly when each location no list carries
held the stale value already. -/
theorem intact_iff {x : Crossing} {c c' : Config} (hc : runtime.Reachable c)
    (hx : cross x c = some c') :
    Intact x c c' ↔ ∀ l ∈ lost x, l.read c.current = stale x l c := by
  have hread := read_current_cross (synced_of_reachable hc) hx
  constructor
  · intro h l hl
    have hlm := lost_subset_meaningful x hl
    rw [← h l hlm, hread l hlm, if_pos hl]
  · intro h l hl
    rw [hread l hl]
    split_ifs with hlost
    · exact (h l hlost).symm
    · rfl

/-- A generated function that `MainLoop` called with a zero CPU state, and the same
function once it has set `RAX` to one. -/
def variadicCaller (rax : ℕ) : Config :=
  ⟨[.static .running (Function.update initRegs RAX rax), .loop .callStatic], initRegs⟩

theorem reachable_variadicCaller (rax : ℕ) : runtime.Reachable (variadicCaller rax) := by
  have h0 : runtime.Reachable ⟨[.loop .running], initRegs⟩ := .init rfl
  refine .step (.step h0 (.inr ⟨.loopCallStatic, rfl⟩)) (.inl ?_)
  exact .static _ _ _ _ _ (by simp [prologue_apply, calleeRestored, initRegs]) rfl

/-- With a zero `AL` and zero vector registers the same call is intact. -/
theorem intact_variadicCaller :
    ∃ c', cross .staticCallStatic (variadicCaller 0) = some c' ∧
      Intact .staticCallStatic (variadicCaller 0) c' :=
  ⟨_, rfl, (intact_iff (reachable_variadicCaller 0) rfl).2
    (by simp [lost, stale, AbiLoc.read, variadicCaller, Config.current, initRegs])⟩

/-- A generated function that calls another with `AL` set to one : the callee reads
zero. -/
theorem not_intact_variadicCaller :
    ∃ c', runtime.Reachable (variadicCaller 1) ∧
      cross .staticCallStatic (variadicCaller 1) = some c' ∧
      AbiLoc.AL.read (variadicCaller 1).current = 1 ∧ AbiLoc.AL.read c'.current = 0 ∧
      ¬Intact .staticCallStatic (variadicCaller 1) c' := by
  refine ⟨_, reachable_variadicCaller 1, rfl, by simp [AbiLoc.read, variadicCaller, Config.current],
    by simp [AbiLoc.read, Config.current, prologue_apply, calleeRestored], fun h => ?_⟩
  have h := h .AL (by decide)
  simp [AbiLoc.read, variadicCaller, Config.current, prologue_apply, calleeRestored] at h

end Arancini.Static
