import Mathlib.Logic.Function.Basic
import Mathlib.Tactic.Common
import Arancini.Lib.System

/-!
# Block chaining at run time

`execution_context::invoke` looks the guest PC up in the translation cache, patches the
exit the thread left its last block through (`chain_address_`) to jump to the block it
found, and runs that block. `chain_address_` is then what the block returned : the slot
of a direct exit, or zero.

`MainLoop` calls `invoke` only when the PC is not the entry of a generated function. A
generated function runs in between, moves the PC, may call `MainLoop` again, and leaves
`chain_address_` alone. `Step` is one step of one thread of the runtime, with the host
frames of `MainLoop` and of generated functions nested in any order.

An exit is chained right when the code it jumps to is the translation of the guest PC it
stores (`Right`). In a run that calls generated functions only on threads with no pending
`chain_address_`, every exit is chained right (`right_of_reachable`). A generated
function called with an exit pending moves the PC, and the next `invoke` chains that exit
to the wrong block (`not_right_afterStatic`).
-/

namespace Arancini.Runtime

/-- How a block leaves. A direct exit stores `target` to the PC and returns its slot.
`runsOff` is the end of a block whose last instruction writes no PC. -/
inductive Exit
  | direct (slot target : ℕ)
  | indirect
  | call
  | ret
  | sys
  | int
  | runsOff
  deriving DecidableEq

/-- A translation : where its code is, and its exits. -/
structure Block where
  code : ℕ
  exits : List Exit

/-- What `call_native` returns. -/
structure NativeResult where
  exitCode : ℕ
  chainAddress : ℕ

/-- The exit leaves with result `r`, and moves the PC from `pc` to `pc'`. -/
def Exit.Leaves (pc : ℕ) (r : NativeResult) (pc' : ℕ) : Exit → Prop
  | direct slot target => r = ⟨0, slot⟩ ∧ pc' = target
  | indirect => r = ⟨0, 0⟩
  | sys => r = ⟨1, 0⟩
  | int => r = ⟨2, 0⟩
  | call => r = ⟨3, 0⟩
  | ret => r = ⟨4, 0⟩
  | runsOff => r.exitCode = 0 ∧ pc' = pc

/-- Where a `MainLoop` stands : at `loop_block`, in translated code, after it with an
exit code, or waiting for a callee. -/
inductive LoopSite
  | head
  | native (code : ℕ)
  | done (exitCode : ℕ)
  | callStatic
  | callLoop

/-- A host frame. -/
inductive Frame
  | loop (site : LoopSite)
  | static

/-- A guest thread : its PC, its `chain_address_`, and its host frames, innermost
first. -/
structure Thread where
  pc : ℕ
  chainAddress : ℕ
  frames : List Frame

/-- The runtime : the translation cache, the patched exits, and the threads. -/
structure State where
  cache : ℕ → Option Block
  chained : ℕ → Option ℕ
  threads : ℕ → Option Thread

namespace State

def setThread (st : State) (t : ℕ) (th : Thread) : State :=
  { st with threads := Function.update st.threads t (some th) }

/-- Cache the translation of `pc`. -/
def insert (st : State) (pc : ℕ) (b : Block) : State :=
  { st with cache := Function.update st.cache pc (some b) }

/-- Patch the exit at `slot`, if there is one, to jump to `code`. -/
def chain (st : State) (slot code : ℕ) : State :=
  if slot = 0 then st else { st with chained := Function.update st.chained slot (some code) }

/-- The exit at `slot` stores `target`. -/
def ExitStores (st : State) (slot target : ℕ) : Prop :=
  ∃ pc b, st.cache pc = some b ∧ .direct slot target ∈ b.exits

/-- `code` is the translation of the one PC that the exit at `slot` stores. -/
def Right (st : State) (slot code : ℕ) : Prop :=
  ∃ pc b, st.ExitStores slot pc ∧ (∀ q, st.ExitStores slot q → q = pc) ∧
    st.cache pc = some b ∧ b.code = code

@[simp] theorem setThread_cache (st : State) (t : ℕ) (th : Thread) :
    (st.setThread t th).cache = st.cache :=
  rfl

@[simp] theorem setThread_chained (st : State) (t : ℕ) (th : Thread) :
    (st.setThread t th).chained = st.chained :=
  rfl

@[simp] theorem setThread_threads_self (st : State) (t : ℕ) (th : Thread) :
    (st.setThread t th).threads t = some th := by
  simp [setThread]

@[simp] theorem insert_chained (st : State) (pc : ℕ) (b : Block) :
    (st.insert pc b).chained = st.chained :=
  rfl

@[simp] theorem insert_threads (st : State) (pc : ℕ) (b : Block) :
    (st.insert pc b).threads = st.threads :=
  rfl

@[simp] theorem chain_cache (st : State) (slot code : ℕ) :
    (st.chain slot code).cache = st.cache := by
  unfold chain
  split <;> rfl

@[simp] theorem chain_threads (st : State) (slot code : ℕ) :
    (st.chain slot code).threads = st.threads := by
  unfold chain
  split <;> rfl

end State

/-- A new translation : the allocator gives it code and slots of its own. -/
structure Fresh (st : State) (b : Block) : Prop where
  code : ∀ pc b', st.cache pc = some b' → b'.code ≠ b.code
  slot : ∀ slot target, .direct slot target ∈ b.exits →
    slot ≠ 0 ∧ ∀ q, ¬st.ExitStores slot q
  exits : ∀ slot p q, .direct slot p ∈ b.exits → .direct slot q ∈ b.exits → p = q

/-- `get_translation` : the cached block, or a new one that is cached. -/
inductive GetTranslation (st : State) (pc : ℕ) : State → Block → Prop
  | hit {b : Block} : st.cache pc = some b → GetTranslation st pc st b
  | miss {b : Block} : st.cache pc = none → Fresh st b → GetTranslation st pc (st.insert pc b) b

/-- Frames left when the innermost one returns. A `MainLoop` that called a generated
function returns after it. -/
def resume : List Frame → List Frame
  | .loop .callStatic :: fs => resume fs
  | .loop .callLoop :: fs => .loop .head :: fs
  | fs => fs

/-- What a step does. -/
inductive Event
  | invoke (t slot code : ℕ)
  | hop (t slot code : ℕ)
  | leave (t : ℕ) (e : Exit) (r : NativeResult)
  | callStatic (t : ℕ)
  | other (t : ℕ)

/-- One step of thread `t`. `isStatic` holds of the PCs `lookup_static_fn_addr` knows. -/
inductive Step (isStatic : ℕ → Prop) : Event → State → State → Prop
  | invoke {st st₁ : State} {b : Block} {t pc ch : ℕ} {fs : List Frame} :
    st.threads t = some ⟨pc, ch, .loop .head :: fs⟩ → ¬isStatic pc → GetTranslation st pc st₁ b →
      Step isStatic (.invoke t ch b.code) st
        ((st₁.chain ch b.code).setThread t ⟨pc, ch, .loop (.native b.code) :: fs⟩)
  | hop {st : State} {b : Block} {t pc ch q slot target code : ℕ} {fs : List Frame} :
    st.threads t = some ⟨pc, ch, .loop (.native b.code) :: fs⟩ → st.cache q = some b →
      .direct slot target ∈ b.exits → st.chained slot = some code →
      Step isStatic (.hop t slot code) st (st.setThread t ⟨pc, ch, .loop (.native code) :: fs⟩)
  | leave {st : State} {b : Block} {e : Exit} {r : NativeResult} {t pc ch q pc' : ℕ}
      {fs : List Frame} :
    st.threads t = some ⟨pc, ch, .loop (.native b.code) :: fs⟩ → st.cache q = some b →
      e ∈ b.exits → (∀ slot target, e = .direct slot target → st.chained slot = none) →
      e.Leaves pc r pc' →
      Step isStatic (.leave t e r) st
        (st.setThread t ⟨pc', r.chainAddress, .loop (.done r.exitCode) :: fs⟩)
  | again {st : State} {t pc ch : ℕ} {fs : List Frame} :
    st.threads t = some ⟨pc, ch, .loop (.done 0) :: fs⟩ →
      Step isStatic (.other t) st (st.setThread t ⟨pc, ch, .loop .head :: fs⟩)
  | nest {st : State} {t pc ch : ℕ} {fs : List Frame} :
    st.threads t = some ⟨pc, ch, .loop (.done 3) :: fs⟩ →
      Step isStatic (.other t) st
        (st.setThread t ⟨pc, ch, .loop .head :: .loop .callLoop :: fs⟩)
  | ret {st : State} {t pc ch : ℕ} {fs : List Frame} :
    st.threads t = some ⟨pc, ch, .loop (.done 4) :: fs⟩ →
      Step isStatic (.other t) st (st.setThread t ⟨pc, ch, resume fs⟩)
  | internalCall {st : State} {t pc ch code pc' : ℕ} {fs : List Frame} :
    st.threads t = some ⟨pc, ch, .loop (.done code) :: fs⟩ → code = 1 ∨ code = 2 →
      Step isStatic (.other t) st (st.setThread t ⟨pc', ch, .loop .head :: fs⟩)
  | clone {st : State} {t u pc ch pc' : ℕ} {fs : List Frame} :
    st.threads t = some ⟨pc, ch, .loop (.done 1) :: fs⟩ → st.threads u = none →
      Step isStatic (.other t) st (st.setThread u ⟨pc', 0, [.loop .head]⟩)
  | callStatic {st : State} {t pc ch : ℕ} {fs : List Frame} :
    st.threads t = some ⟨pc, ch, .loop .head :: fs⟩ → isStatic pc →
      Step isStatic (.callStatic t) st
        (st.setThread t ⟨pc, ch, .static :: .loop .callStatic :: fs⟩)
  | static {st : State} {t pc ch pc' : ℕ} {fs : List Frame} :
    st.threads t = some ⟨pc, ch, .static :: fs⟩ →
      Step isStatic (.other t) st (st.setThread t ⟨pc', ch, .static :: fs⟩)
  | staticCallStatic {st : State} {t pc ch : ℕ} {fs : List Frame} :
    st.threads t = some ⟨pc, ch, .static :: fs⟩ →
      Step isStatic (.other t) st (st.setThread t ⟨pc, ch, .static :: .static :: fs⟩)
  | staticCallLoop {st : State} {t pc ch : ℕ} {fs : List Frame} :
    st.threads t = some ⟨pc, ch, .static :: fs⟩ →
      Step isStatic (.other t) st (st.setThread t ⟨pc, ch, .loop .head :: .static :: fs⟩)
  | staticRet {st : State} {t pc ch : ℕ} {fs : List Frame} :
    st.threads t = some ⟨pc, ch, .static :: fs⟩ →
      Step isStatic (.other t) st (st.setThread t ⟨pc, ch, resume fs⟩)

/-- An empty cache and one thread, at the head of its `MainLoop`. -/
def Initial (st : State) : Prop :=
  st.cache = (fun _ => none) ∧ st.chained = (fun _ => none) ∧
    ∃ t pc, st.threads = Function.update (fun _ => none) t (some ⟨pc, 0, [.loop .head]⟩)

/-- The runtime, over every interleaving of its threads. -/
def runtime (isStatic : ℕ → Prop) : System State where
  init := Initial
  step st st' := ∃ ev, Step isStatic ev st st'

/-- A step that leaves no exit pending while something else than the next `invoke` moves
the PC : a generated function is called with no exit pending, and a block that runs off
its end returns no chain address. -/
def Orderly (st : State) : Event → Prop
  | .callStatic t => ∀ th, st.threads t = some th → th.chainAddress = 0
  | .leave _ .runsOff r => r.chainAddress = 0
  | _ => True

/-- The runs whose steps are all orderly. -/
def orderlyRuntime (isStatic : ℕ → Prop) : System State where
  init := Initial
  step st st' := ∃ ev, Orderly st ev ∧ Step isStatic ev st st'

/-! ## The exit a thread left through -/

theorem State.exitStores_congr {st st' : State} (h : st'.cache = st.cache) {slot target : ℕ} :
    st'.ExitStores slot target ↔ st.ExitStores slot target := by
  simp [State.ExitStores, h]

theorem State.right_congr {st st' : State} (h : st'.cache = st.cache) {slot code : ℕ} :
    st'.Right slot code ↔ st.Right slot code := by
  simp [State.Right, State.exitStores_congr h, h]

/-- The exits after a translation is cached are those before it and its own. -/
theorem State.exitStores_insert {st : State} {pc : ℕ} {b : Block} (h : st.cache pc = none)
    {slot target : ℕ} :
    (st.insert pc b).ExitStores slot target ↔
      st.ExitStores slot target ∨ .direct slot target ∈ b.exits := by
  constructor
  · rintro ⟨q, b', hq, hb⟩
    by_cases hqp : q = pc
    · subst hqp
      obtain rfl : b = b' := by simpa [State.insert] using hq
      exact .inr hb
    · exact .inl ⟨q, b', by simpa [State.insert, hqp] using hq, hb⟩
  · rintro (⟨q, b', hq, hb⟩ | hb)
    · have hqp : q ≠ pc := by
        rintro rfl
        rw [h] at hq
        cases hq
      exact ⟨q, b', by simpa [State.insert, hqp] using hq, hb⟩
    · exact ⟨pc, b, by simp [State.insert], hb⟩

/-- What a pending `chain_address_` means, by what the thread does : the exit stores the
PC while the thread is on its way to the next `invoke`, and none is pending elsewhere. -/
def Pending (st : State) (th : Thread) : Prop :=
  match th.frames with
  | .loop .head :: _ | .loop (.done 0) :: _ =>
    th.chainAddress ≠ 0 → st.ExitStores th.chainAddress th.pc
  | .loop (.native _) :: _ => True
  | _ => th.chainAddress = 0

theorem pending_of_eq_zero {st : State} {th : Thread} (h : th.chainAddress = 0) :
    Pending st th := by
  unfold Pending
  split <;> simp [h]

/-- Slots are addresses of one exit each, patched exits are right, and pending ones store
the PC. -/
structure Inv (st : State) : Prop where
  slot_ne_zero : ∀ {slot target}, st.ExitStores slot target → slot ≠ 0
  slot_unique : ∀ {slot p q}, st.ExitStores slot p → st.ExitStores slot q → p = q
  right : ∀ {slot code}, st.chained slot = some code → st.Right slot code
  pending : ∀ {t th}, st.threads t = some th → Pending st th

theorem Inv.init {st : State} (h : Initial st) : Inv st := by
  obtain ⟨hcache, hchained, t, pc, hth⟩ := h
  have hno : ∀ slot target, ¬st.ExitStores slot target := by
    rintro slot target ⟨q, b, hq, -⟩
    rw [hcache] at hq
    cases hq
  refine ⟨fun h => absurd h (hno _ _), fun h => absurd h (hno _ _), ?_, ?_⟩
  · intro slot code h
    rw [hchained] at h
    cases h
  · intro u th hu
    rw [hth] at hu
    by_cases hut : u = t
    · subst hut
      obtain rfl : _ = th := by simpa using hu
      exact pending_of_eq_zero rfl
    · simp [hut] at hu

/-- A step of a thread that leaves the cache and the exits alone. -/
theorem Inv.setThread {st : State} (h : Inv st) (t : ℕ) {th : Thread} (hth : Pending st th) :
    Inv (st.setThread t th) := by
  have hE : ∀ {slot target}, (st.setThread t th).ExitStores slot target ↔
      st.ExitStores slot target := State.exitStores_congr rfl
  refine ⟨fun hs => h.slot_ne_zero (hE.1 hs),
    fun hp hq => h.slot_unique (hE.1 hp) (hE.1 hq),
    fun hc => (State.right_congr rfl).2 (h.right hc), ?_⟩
  intro u th' hu
  by_cases hut : u = t
  · subst hut
    obtain rfl : th = th' := by simpa [State.setThread] using hu
    exact hth
  · exact h.pending (t := u) (by simpa [State.setThread, hut] using hu)

/-- Caching a new translation. -/
theorem Inv.insert {st : State} (h : Inv st) {pc : ℕ} {b : Block} (hpc : st.cache pc = none)
    (hb : Fresh st b) : Inv (st.insert pc b) := by
  have hE : ∀ {slot target}, (st.insert pc b).ExitStores slot target ↔
      st.ExitStores slot target ∨ .direct slot target ∈ b.exits := State.exitStores_insert hpc
  refine ⟨?_, ?_, ?_, ?_⟩
  · intro slot target hs
    rcases hE.1 hs with hs | hs
    · exact h.slot_ne_zero hs
    · exact (hb.slot slot target hs).1
  · intro slot p q hp hq
    rcases hE.1 hp with hp | hp <;> rcases hE.1 hq with hq | hq
    · exact h.slot_unique hp hq
    · exact absurd hp ((hb.slot slot q hq).2 p)
    · exact absurd hq ((hb.slot slot p hp).2 q)
    · exact hb.exits slot p q hp hq
  · intro slot code hc
    obtain ⟨p, b', hp, huniq, hcache, hcode⟩ := h.right hc
    refine ⟨p, b', hE.2 (.inl hp), fun q hq => ?_, ?_, hcode⟩
    · rcases hE.1 hq with hq | hq
      · exact huniq q hq
      · exact absurd hp ((hb.slot slot q hq).2 p)
    · have hne : p ≠ pc := by
        rintro rfl
        rw [hpc] at hcache
        cases hcache
      simpa [State.insert, hne] using hcache
  · intro t th hth
    have hp := h.pending hth
    unfold Pending at hp ⊢
    split at hp
    · exact fun h0 => hE.2 (.inl (hp h0))
    · exact fun h0 => hE.2 (.inl (hp h0))
    · trivial
    · exact hp

/-- Patching an exit that stores the PC of the block it is patched to. -/
theorem Inv.chain {st : State} (h : Inv st) {slot pc : ℕ} {b : Block} (hb : st.cache pc = some b)
    (hs : slot ≠ 0 → st.ExitStores slot pc) : Inv (st.chain slot b.code) := by
  by_cases h0 : slot = 0
  · simpa [State.chain, h0] using h
  have hE : ∀ {s target}, (st.chain slot b.code).ExitStores s target ↔ st.ExitStores s target :=
    State.exitStores_congr (by simp)
  refine ⟨fun hs => h.slot_ne_zero (hE.1 hs), fun hp hq => h.slot_unique (hE.1 hp) (hE.1 hq),
    fun {s code} hc => (State.right_congr (State.chain_cache st slot b.code)).2 ?_, ?_⟩
  · rw [State.chain, if_neg h0] at hc
    by_cases hss : s = slot
    · subst hss
      obtain rfl : b.code = code := by simpa using hc
      exact ⟨pc, b, hs h0, fun q hq => h.slot_unique hq (hs h0), hb, rfl⟩
    · exact h.right (by simpa [hss] using hc)
  · intro t th hth
    rw [State.chain_threads] at hth
    have hp := h.pending hth
    unfold Pending at hp ⊢
    simpa only [hE] using hp

/-- After `get_translation`, the block it returns is the cached translation. -/
theorem Inv.getTranslation {st st₁ : State} {pc : ℕ} {b : Block} (h : Inv st)
    (hg : GetTranslation st pc st₁ b) :
    Inv st₁ ∧ st₁.cache pc = some b ∧ st₁.threads = st.threads ∧
      ∀ {slot target}, st.ExitStores slot target → st₁.ExitStores slot target := by
  cases hg with
  | hit hc => exact ⟨h, hc, rfl, id⟩
  | miss hc hb =>
    exact ⟨h.insert hc hb, by simp [State.insert], rfl,
      fun hs => (State.exitStores_insert hc).2 (.inl hs)⟩

/-- `invoke` chains the pending exit to the translation of the PC it stores. -/
theorem Inv.invoke {st st₁ : State} {t pc ch : ℕ} {b : Block} {fs : List Frame} (h : Inv st)
    (hth : st.threads t = some ⟨pc, ch, .loop .head :: fs⟩) (hg : GetTranslation st pc st₁ b) :
    Inv (st₁.chain ch b.code) := by
  obtain ⟨h₁, hb, -, hmono⟩ := h.getTranslation hg
  exact h₁.chain hb fun h0 => hmono (h.pending hth h0)

/-- After an orderly exit, the PC is the one the pending exit stores. -/
theorem pending_leave {st : State} {t pc pc' q : ℕ} {b : Block} {e : Exit} {r : NativeResult}
    {fs : List Frame} (hq : st.cache q = some b) (he : e ∈ b.exits)
    (hl : e.Leaves pc r pc') (ho : Orderly st (.leave t e r)) :
    Pending st ⟨pc', r.chainAddress, .loop (.done r.exitCode) :: fs⟩ := by
  cases e with
  | direct slot target =>
    obtain ⟨rfl, rfl⟩ := hl
    exact fun _ => ⟨q, b, hq, he⟩
  | runsOff => exact pending_of_eq_zero ho
  | indirect | call | ret | sys | int =>
    cases hl
    exact pending_of_eq_zero rfl

/-- Every orderly step keeps the invariant. -/
theorem Inv.step {isStatic : ℕ → Prop} {ev : Event} {st st' : State} (h : Inv st)
    (ho : Orderly st ev) (hs : Step isStatic ev st st') : Inv st' := by
  cases hs with
  | invoke hth _ hg => exact (h.invoke hth hg).setThread _ trivial
  | hop => exact h.setThread _ trivial
  | leave hth hq he _ hl => exact h.setThread _ (pending_leave hq he hl ho)
  | again hth =>
    have h0 := h.pending hth
    exact h.setThread _ h0
  | nest hth => exact h.setThread _ (pending_of_eq_zero (h.pending hth))
  | ret hth => exact h.setThread _ (pending_of_eq_zero (h.pending hth))
  | internalCall hth hc =>
    refine h.setThread _ (pending_of_eq_zero ?_)
    rcases hc with rfl | rfl <;> exact h.pending hth
  | clone => exact h.setThread _ (pending_of_eq_zero rfl)
  | callStatic hth =>
    have h0 := ho _ hth
    exact h.setThread _ (pending_of_eq_zero h0)
  | static hth => exact h.setThread _ (pending_of_eq_zero (h.pending hth))
  | staticCallStatic hth => exact h.setThread _ (pending_of_eq_zero (h.pending hth))
  | staticCallLoop hth => exact h.setThread _ (pending_of_eq_zero (h.pending hth))
  | staticRet hth => exact h.setThread _ (pending_of_eq_zero (h.pending hth))

theorem inv_of_reachable {isStatic : ℕ → Prop} {st : State}
    (h : (orderlyRuntime isStatic).Reachable st) : Inv st :=
  h.invariant (fun _ => Inv.init) fun _ _ _ hi ⟨_, ho, hs⟩ => hi.step ho hs

/-- In every orderly run, `invoke` chains the pending exit to the translation of the PC
that exit stores, and a thread that leaves through a chained exit continues there. -/
theorem right_of_reachable {isStatic : ℕ → Prop} {st : State}
    (h : (orderlyRuntime isStatic).Reachable st) :
    (∀ t slot code st', Step isStatic (.invoke t slot code) st st' → slot ≠ 0 →
      st'.Right slot code) ∧
    ∀ t slot code st', Step isStatic (.hop t slot code) st st' → st.Right slot code := by
  constructor
  · intro t slot code st' hs h0
    have ho : Orderly st (.invoke t slot code) := trivial
    have hi := (inv_of_reachable h).step ho hs
    refine hi.right ?_
    cases hs
    simp [State.chain, h0]
  · intro t slot code st' hs
    cases hs with
    | hop _ _ _ hc => exact (inv_of_reachable h).right hc

/-! ## A generated function with an exit pending -/

/-- A block that jumps to PC `1`, with its slot at `8`. -/
def jumpBlock : Block :=
  ⟨100, [.direct 8 1]⟩

/-- One thread, at PC `0`. -/
def start : State :=
  ⟨fun _ => none, fun _ => none, Function.update (fun _ => none) 0 (some ⟨0, 0, [.loop .head]⟩)⟩

/-- The thread runs `jumpBlock`. -/
def running : State :=
  ((start.insert 0 jumpBlock).chain 0 100).setThread 0 ⟨0, 0, [.loop (.native 100)]⟩

/-- The thread has left `jumpBlock`. -/
def left : State :=
  running.setThread 0 ⟨1, 8, [.loop (.done 0)]⟩

/-- The thread stands at the head of `MainLoop` with PC `1` and the exit pending. -/
def jumped : State :=
  left.setThread 0 ⟨1, 8, [.loop .head]⟩

/-- PC `1` is a generated function, and `MainLoop` has called it. -/
def inStatic : State :=
  jumped.setThread 0 ⟨1, 8, [.static, .loop .callStatic]⟩

/-- The generated function has moved the PC to `2`. -/
def moved : State :=
  inStatic.setThread 0 ⟨2, 8, [.static, .loop .callStatic]⟩

/-- The generated function has called `MainLoop`. -/
def afterStatic : State :=
  moved.setThread 0 ⟨2, 8, [.loop .head, .static, .loop .callStatic]⟩

theorem exitStores_jumped {slot target : ℕ} :
    jumped.ExitStores slot target ↔ slot = 8 ∧ target = 1 := by
  rw [show jumped.ExitStores slot target ↔ (start.insert 0 jumpBlock).ExitStores slot target from
    State.exitStores_congr rfl, State.exitStores_insert rfl]
  simp [State.ExitStores, start, jumpBlock]

theorem fresh_jumped (code : ℕ) (h : code ≠ 100) : Fresh jumped ⟨code, [.ret]⟩ where
  code pc b' hb := by
    by_cases hpc : pc = 0
    · subst hpc
      cases hb
      exact h.symm
    · rw [show jumped.cache = (start.insert 0 jumpBlock).cache from rfl] at hb
      simp [State.insert, start, hpc] at hb
  slot := by simp
  exits := by simp

theorem steps_jumped (isStatic : ℕ → Prop) (h : ¬isStatic 0) :
    Step isStatic (.invoke 0 0 100) start running ∧
      Step isStatic (.leave 0 (.direct 8 1) ⟨0, 8⟩) running left ∧
      Step isStatic (.other 0) left jumped := by
  have hfresh : Fresh start jumpBlock :=
    ⟨by simp [start], by simp [State.ExitStores, start, jumpBlock],
      by simp +contextual [jumpBlock]⟩
  have hhead : start.threads 0 = some ⟨0, 0, [.loop .head]⟩ := rfl
  have hrun : running.threads 0 = some ⟨0, 0, [.loop (.native jumpBlock.code)]⟩ := rfl
  have hcache : running.cache 0 = some jumpBlock := rfl
  have hexit : Exit.direct 8 1 ∈ jumpBlock.exits := by simp [jumpBlock]
  have hleaves : (Exit.direct 8 1).Leaves 0 ⟨0, 8⟩ 1 := ⟨rfl, rfl⟩
  exact ⟨.invoke hhead h (.miss rfl hfresh), .leave hrun hcache hexit (fun _ _ _ => rfl) hleaves,
    .again (State.setThread_threads_self running 0 _)⟩

theorem reachable_jumped : (orderlyRuntime fun _ => False).Reachable jumped := by
  obtain ⟨h₁, h₂, h₃⟩ := steps_jumped (fun _ => False) id
  have h0 : (orderlyRuntime fun _ => False).Reachable start := .init ⟨rfl, rfl, 0, 0, rfl⟩
  exact .step (.step (.step h0 ⟨.invoke 0 0 100, trivial, h₁⟩)
    ⟨.leave 0 (.direct 8 1) ⟨0, 8⟩, trivial, h₂⟩) ⟨.other 0, trivial, h₃⟩

/-- With no generated function at PC `1`, the pending exit is chained right. -/
theorem right_jumped :
    ∃ st', Step (fun _ => False) (.invoke 0 8 200) jumped st' ∧ st'.Right 8 200 := by
  have hhead : jumped.threads 0 = some ⟨1, 8, [.loop .head]⟩ := rfl
  have hg : GetTranslation jumped 1 _ ⟨200, [.ret]⟩ := .miss rfl (fresh_jumped 200 (by decide))
  have hs : Step (fun _ => False) _ jumped _ := .invoke hhead id hg
  exact ⟨_, hs, (right_of_reachable reachable_jumped).1 0 8 200 _ hs (by decide)⟩

theorem reachable_afterStatic : (runtime (· = 1)).Reachable afterStatic := by
  obtain ⟨h₁, h₂, h₃⟩ := steps_jumped (· = 1) (by decide)
  have h0 : (runtime (· = 1)).Reachable start := .init ⟨rfl, rfl, 0, 0, rfl⟩
  have hj : (runtime (· = 1)).Reachable jumped := .step (.step (.step h0 ⟨_, h₁⟩) ⟨_, h₂⟩) ⟨_, h₃⟩
  have hcall : Step (· = 1) (.callStatic 0) jumped inStatic :=
    .callStatic (State.setThread_threads_self left 0 _) rfl
  have hmove : Step (· = 1) (.other 0) inStatic moved :=
    .static (State.setThread_threads_self jumped 0 _)
  have hloop : Step (· = 1) (.other 0) moved afterStatic :=
    .staticCallLoop (State.setThread_threads_self inStatic 0 _)
  exact .step (.step (.step hj ⟨_, hcall⟩) ⟨_, hmove⟩) ⟨_, hloop⟩

/-- The next `invoke` chains the exit that stores PC `1` to the translation of PC `2`. -/
theorem not_right_afterStatic :
    ∃ st', (runtime (· = 1)).Reachable afterStatic ∧
      Step (· = 1) (.invoke 0 8 200) afterStatic st' ∧ st'.ExitStores 8 1 ∧ ¬st'.Right 8 200 := by
  have hnone : afterStatic.cache 2 = none := rfl
  have hfresh : Fresh afterStatic ⟨200, [.ret]⟩ :=
    ⟨(fresh_jumped 200 (by decide)).code, by simp, by simp⟩
  have hhead := State.setThread_threads_self moved 0
    ⟨2, 8, [.loop .head, .static, .loop .callStatic]⟩
  have hs : Step (· = 1) _ afterStatic _ := .invoke hhead (by decide) (.miss hnone hfresh)
  refine ⟨_, reachable_afterStatic, hs, ⟨0, jumpBlock, rfl, by simp [jumpBlock]⟩, ?_⟩
  · rintro ⟨pc, b, hE, -, hb, hcode⟩
    have hE' : (afterStatic.insert 2 ⟨200, [.ret]⟩).ExitStores 8 pc :=
      (State.exitStores_congr (by simp)).1 hE
    have hpc : pc = 1 := by
      rcases (State.exitStores_insert hnone).1 hE' with h | h
      · exact (exitStores_jumped.1 h).2
      · simp at h
    subst hpc
    cases hb

end Arancini.Runtime
