import Mathlib.Data.Nat.Basic
import Mathlib.Order.Basic
import Mathlib.Tactic.Common

/-!
# The code buffer

`machine_code_writer` collects the code of a block. It asks an allocator for a buffer, doubles the
buffer when it has too little room, and gives back what it has not used at the end. The allocator
hands out regions of an arena, one after the other. Only the last region may change its size.

The writer doubles once, whatever the size of what comes next, and the allocator looks at the place
where a region begins and not at its end.

`buffer_right_iff` says in which states an emission is right, for all runs.
-/

namespace Arancini.Runtime.CodeBuffer

/-! ## Memory -/

/-- `memcpy`. -/
def writeBytes (a : ℕ) (bytes : List ℕ) (mem : ℕ → ℕ) : ℕ → ℕ :=
  fun x => if a ≤ x then (bytes[x - a]?).getD (mem x) else mem x

/-- The bytes are in memory. -/
def Holds (mem : ℕ → ℕ) (a : ℕ) (bytes : List ℕ) : Prop :=
  ∀ i b, bytes[i]? = some b → mem (a + i) = b

/-! ## The allocator -/

/-- `arena_machine_code_allocator`, with its arena. -/
structure Allocator where
  base : ℕ
  size : ℕ
  nextAllocation : ℕ
  currentAllocation : Option ℕ
  currentAllocationSize : ℕ

/-- `(size + 15) & ~0xf`. -/
def align16 (size : ℕ) : ℕ :=
  (size + 15) / 16 * 16

namespace Allocator

/-- The end of the arena. -/
def limit (a : Allocator) : ℕ :=
  a.base + a.size

/-- `allocate`. The fields change also if it throws. -/
def allocate (original : Option ℕ) (size : ℕ) (a : Allocator) : Except String ℕ × Allocator :=
  match original with
  | none =>
    let next := a.nextAllocation + align16 a.currentAllocationSize
    if next > a.limit then (.error "out of memory", { a with nextAllocation := next })
    else (.ok next, { a with
      nextAllocation := next
      currentAllocation := some next
      currentAllocationSize := size })
  | some p =>
    if a.currentAllocation ≠ some p then (.error "multiple allocations not supported", a)
    else (.ok p, { a with currentAllocationSize := size })

end Allocator

/-! ## The writer -/

/-- The fields of the writer, the allocator and memory. `written` is what has been emitted for the
block, and `blocks` are the places of the blocks that are finished, with what was emitted for
them. -/
structure State where
  codePtr : Option ℕ
  codeSize : ℕ
  allocSize : ℕ
  allocator : Allocator
  mem : ℕ → ℕ
  written : List ℕ
  blocks : List (ℕ × List ℕ)

/-- A writer with an arena at `base`. -/
def State.new (base size : ℕ) (mem : ℕ → ℕ) : State where
  codePtr := none
  codeSize := 0
  allocSize := 0
  allocator := ⟨base, size, base, none, 0⟩
  mem := mem
  written := []
  blocks := []

/-- The operations. `create` is `create_translation` : it finalises, notes the block and resets the
writer. -/
inductive Op
  | ensureCapacity (extra : ℕ)
  | copyIn (bytes : List ℕ)
  | finalise
  | create

/-- What an operation does : it returns, it throws, or it writes through a null pointer. -/
inductive Result
  | done (s : State)
  | throw (msg : String) (s : State)
  | undefined

def Result.bind (r : Result) (f : State → Result) : Result :=
  match r with
  | done s => f s
  | throw msg s => throw msg s
  | undefined => undefined

/-- The state after an operation. -/
def Result.state : Result → Option State
  | done s | throw _ s => some s
  | undefined => none

namespace State

/-- The size that the writer asks for when it needs more. -/
def grown (s : State) : ℕ :=
  if s.allocSize = 0 then 64 else s.allocSize * 2

def ensureCapacity (extra : ℕ) (s : State) : Result :=
  if s.codeSize + extra > s.allocSize then
    match s.allocator.allocate s.codePtr s.grown with
    | (.ok p, a) => .done { s with codePtr := some p, allocSize := s.grown, allocator := a }
    | (.error msg, a) => .throw msg { s with allocSize := s.grown, allocator := a }
  else .done s

def copyIn (bytes : List ℕ) (s : State) : Result :=
  (s.ensureCapacity bytes.length).bind fun s =>
    match s.codePtr with
    | none => if bytes = [] then .done s else .undefined
    | some p => .done { s with
        codeSize := s.codeSize + bytes.length
        mem := writeBytes (p + s.codeSize) bytes s.mem
        written := s.written ++ bytes }

def finalise (s : State) : Result :=
  match s.allocator.allocate s.codePtr s.codeSize with
  | (.ok p, a) => .done { s with codePtr := some p, allocSize := s.codeSize, allocator := a }
  | (.error msg, a) => .throw msg { s with allocator := a }

def reset (s : State) : State :=
  { s with codePtr := none, codeSize := 0, allocSize := 0, written := [] }

def create (s : State) : Result :=
  s.finalise.bind fun s =>
    .done { s.reset with blocks := s.blocks ++ s.codePtr.toList.map fun p => (p, s.written) }

def step (s : State) : Op → Result
  | .ensureCapacity extra => s.ensureCapacity extra
  | .copyIn bytes => s.copyIn bytes
  | .finalise => s.finalise
  | .create => s.create

end State

/-! ## Right states -/

/-- The end of a block. -/
def blockEnd (b : ℕ × List ℕ) : ℕ :=
  b.1 + b.2.length

/-- The finished blocks are in the arena, one after the other, with what was emitted for them, and
the block in progress stands behind them with what has been emitted for it. -/
structure State.Sound (s : State) : Prop where
  inArena : ∀ b ∈ s.blocks, s.allocator.base ≤ b.1 ∧ blockEnd b ≤ s.allocator.limit
  content : ∀ b ∈ s.blocks, Holds s.mem b.1 b.2
  disjoint : s.blocks.Pairwise fun b c => blockEnd b ≤ c.1
  codeSize_eq : s.codeSize = s.written.length
  current : ∀ p, s.codePtr = some p → Holds s.mem p s.written ∧ ∀ b ∈ s.blocks, blockEnd b ≤ p

/-- The buffer is the current region of the arena, and it can hold `extra` more bytes. -/
def State.CanHold (s : State) (extra : ℕ) : Prop :=
  s.codeSize + extra ≤ s.allocSize ∧ (0 < s.codeSize + extra → ∃ p, s.codePtr = some p ∧
    s.allocator.currentAllocation = some p ∧
      s.codeSize + extra ≤ s.allocator.currentAllocationSize ∧
      s.allocator.base ≤ p ∧ p + (s.codeSize + extra) ≤ s.allocator.limit)

/-- Where the buffer is, or where the next one will be. -/
def State.place (s : State) : ℕ :=
  s.codePtr.getD (s.allocator.nextAllocation + align16 s.allocator.currentAllocationSize)

/-- The room that an operation asks for. -/
def Op.extra : Op → ℕ
  | ensureCapacity extra => extra
  | _ => 0

/-- An operation is right : the state after it is, with the room that was asked for, or it throws
because the arena is exhausted. -/
def State.StepRight (s : State) (op : Op) : Prop :=
  (∃ t, s.step op = .done t ∧ t.Sound ∧ t.CanHold op.extra) ∨
    ∃ msg t, s.step op = .throw msg t ∧ t.Sound ∧ s.allocator.limit < s.place

/-- Each operation of a run is right. -/
def State.StepsRight : State → List Op → Prop
  | _, [] => True
  | s, op :: ops => s.StepRight op ∧ ∀ t, (s.step op).state = some t → t.StepsRight ops

/-- There is room for some bytes : none are added to an empty block, or one doubling is enough and
they end in the arena, or there is no buffer yet and no place for one, and the writer asks for
it. -/
def State.Fits (s : State) (extra : ℕ) : Prop :=
  s.codeSize + extra = 0 ∨
    (s.place + (s.codeSize + extra) ≤ s.allocator.limit ∧ s.codeSize + extra ≤ s.grown) ∨
    (s.codePtr = none ∧ s.allocator.limit < s.place ∧ s.allocSize < s.codeSize + extra)

/-- There is room for what an operation emits. -/
def State.OpFits (s : State) : Op → Prop
  | .ensureCapacity extra => s.Fits extra
  | .copyIn bytes => s.Fits bytes.length
  | .finalise | .create => True

/-- There is room for each operation of a run. -/
def State.StepsFit : State → List Op → Prop
  | _, [] => True
  | s, op :: ops => s.OpFits op ∧ ∀ t, (s.step op).state = some t → t.StepsFit ops

/-! ## The invariant -/

/-- The fields of writer and allocator between operations. -/
structure State.Inv (s : State) : Prop extends s.Sound where
  base_le : s.allocator.base ≤ s.allocator.nextAllocation
  buffer : ∀ p, s.codePtr = some p → s.allocator.currentAllocation = some p ∧
    s.allocator.nextAllocation = p ∧ s.allocator.currentAllocationSize = s.allocSize ∧
      p + s.codeSize ≤ s.allocator.limit ∧ s.codeSize ≤ s.allocSize
  noBuffer : s.codePtr = none → s.written = [] ∧
    (s.allocSize = 0 ∨ s.allocator.limit < s.allocator.nextAllocation) ∧
      ∀ b ∈ s.blocks,
        blockEnd b ≤ s.allocator.nextAllocation + s.allocator.currentAllocationSize

theorem le_align16 (size : ℕ) : size ≤ align16 size := by
  rw [align16]
  omega

theorem inv_new (base size : ℕ) (mem : ℕ → ℕ) : (State.new base size mem).Inv where
  inArena _ h := absurd h List.not_mem_nil
  content _ h := absurd h List.not_mem_nil
  disjoint := .nil
  codeSize_eq := rfl
  current _ h := nomatch h
  base_le := le_rfl
  buffer _ h := nomatch h
  noBuffer _ := ⟨rfl, .inl rfl, fun _ h => absurd h List.not_mem_nil⟩

namespace State

variable {s : State}

/-- A buffer of some size, at the place where it is or will be. -/
def resized (s : State) (size : ℕ) : State :=
  { s with
    codePtr := some s.place
    allocSize := size
    allocator := { s.allocator with
      nextAllocation := s.place
      currentAllocation := some s.place
      currentAllocationSize := size } }

/-- The arena is exhausted. -/
def exhausted (s : State) (size : ℕ) : State :=
  { s with
    allocSize := size
    allocator := { s.allocator with nextAllocation := s.place } }

theorem place_of_none (h : s.codePtr = none) :
    s.place = s.allocator.nextAllocation + align16 s.allocator.currentAllocationSize := by
  rw [place, h]
  rfl

theorem place_of_some {p : ℕ} (h : s.codePtr = some p) : s.place = p := by
  rw [place, h]
  rfl

namespace Inv

variable (h : s.Inv)
include h

/-- What the allocator does for the writer. -/
theorem allocate_eq (size : ℕ) : s.allocator.allocate s.codePtr size =
    if s.codePtr = none ∧ s.allocator.limit < s.place then
      (.error "out of memory", (s.exhausted size).allocator)
    else (.ok s.place, (s.resized size).allocator) := by
  cases hptr : s.codePtr with
  | none =>
    rw [Allocator.allocate, exhausted, resized, place_of_none hptr]
    simp only [true_and]
  | some p =>
    obtain ⟨hcurrent, hnext, -⟩ := h.buffer p hptr
    rw [Allocator.allocate, resized, place_of_some hptr, if_neg (not_not.2 hcurrent),
      if_neg fun hnone => nomatch hnone.1]
    simp only [hcurrent, hnext]

theorem base_le_place : s.allocator.base ≤ s.place := by
  cases hptr : s.codePtr with
  | none =>
    rw [place_of_none hptr]
    exact h.base_le.trans (Nat.le_add_right _ _)
  | some p =>
    obtain ⟨-, hnext, -⟩ := h.buffer p hptr
    rw [place_of_some hptr, ← hnext]
    exact h.base_le

theorem blockEnd_le_place {b : ℕ × List ℕ} (hb : b ∈ s.blocks) : blockEnd b ≤ s.place := by
  cases hptr : s.codePtr with
  | none =>
    rw [place_of_none hptr]
    exact ((h.noBuffer hptr).2.2 b hb).trans (Nat.add_le_add_left (le_align16 _) _)
  | some p =>
    rw [place_of_some hptr]
    exact (h.current p hptr).2 b hb

/-- What has been emitted stands at the place of the buffer. -/
theorem holds_place : Holds s.mem s.place s.written := by
  cases hptr : s.codePtr with
  | none =>
    rw [(h.noBuffer hptr).1]
    exact fun _ _ hi => nomatch hi
  | some p =>
    rw [place_of_some hptr]
    exact (h.current p hptr).1

theorem codeSize_of_none (hptr : s.codePtr = none) : s.codeSize = 0 := by
  rw [h.codeSize_eq, (h.noBuffer hptr).1]
  rfl

theorem place_add_le (hplace : ¬(s.codePtr = none ∧ s.allocator.limit < s.place)) :
    s.place + s.codeSize ≤ s.allocator.limit := by
  cases hptr : s.codePtr with
  | none =>
    rw [h.codeSize_of_none hptr]
    exact Nat.le_of_not_lt fun hlt => hplace ⟨hptr, hlt⟩
  | some p =>
    rw [place_of_some hptr]
    exact (h.buffer p hptr).2.2.2.1

/-- The writer has a buffer. -/
theorem resized {size : ℕ} (hplace : ¬(s.codePtr = none ∧ s.allocator.limit < s.place))
    (hsize : s.codeSize ≤ size) : (s.resized size).Inv where
  inArena := h.inArena
  content := h.content
  disjoint := h.disjoint
  codeSize_eq := h.codeSize_eq
  current p hp := by
    obtain rfl := Option.some.inj hp
    exact ⟨h.holds_place, fun _ hb => h.blockEnd_le_place hb⟩
  base_le := h.base_le_place
  buffer _ hp := by
    obtain rfl := Option.some.inj hp
    exact ⟨rfl, rfl, rfl, h.place_add_le hplace, hsize⟩
  noBuffer hnone := nomatch hnone

/-- The allocator has thrown. -/
theorem exhausted {size : ℕ} (hptr : s.codePtr = none) (hplace : s.allocator.limit < s.place) :
    (s.exhausted size).Inv where
  inArena := h.inArena
  content := h.content
  disjoint := h.disjoint
  codeSize_eq := h.codeSize_eq
  current := h.current
  base_le := h.base_le_place
  buffer _ hp := nomatch hptr.symm.trans hp
  noBuffer _ := ⟨(h.noBuffer hptr).1, .inr hplace, fun _ hb =>
    (h.blockEnd_le_place hb).trans (Nat.le_add_right _ _)⟩

end Inv

/-- What `ensure_capacity` does: nothing, or the buffer grows, or the arena is exhausted. -/
theorem ensureCapacity_cases (h : s.Inv) (extra : ℕ) :
    (s.codeSize + extra ≤ s.allocSize ∧ s.ensureCapacity extra = .done s) ∨
      (s.allocSize < s.codeSize + extra ∧ ¬(s.codePtr = none ∧ s.allocator.limit < s.place) ∧
        s.ensureCapacity extra = .done (s.resized s.grown)) ∨
      (s.allocSize < s.codeSize + extra ∧ s.codePtr = none ∧ s.allocator.limit < s.place ∧
        s.ensureCapacity extra = .throw "out of memory" (s.exhausted s.grown)) := by
  unfold ensureCapacity
  by_cases hsize : s.codeSize + extra > s.allocSize
  · rw [if_pos hsize, h.allocate_eq]
    by_cases hplace : s.codePtr = none ∧ s.allocator.limit < s.place
    · rw [if_pos hplace]
      exact .inr (.inr ⟨hsize, hplace.1, hplace.2, rfl⟩)
    · rw [if_neg hplace]
      exact .inr (.inl ⟨hsize, hplace, rfl⟩)
  · rw [if_neg hsize]
    exact .inl ⟨Nat.le_of_not_lt hsize, rfl⟩

theorem finalise_cases (h : s.Inv) :
    (¬(s.codePtr = none ∧ s.allocator.limit < s.place) ∧
        s.finalise = .done (s.resized s.codeSize)) ∨
      (s.codePtr = none ∧ s.allocator.limit < s.place ∧
        s.finalise = .throw "out of memory" (s.exhausted s.allocSize)) := by
  unfold finalise
  rw [h.allocate_eq]
  by_cases hplace : s.codePtr = none ∧ s.allocator.limit < s.place
  · rw [if_pos hplace]
    exact .inr ⟨hplace.1, hplace.2, rfl⟩
  · rw [if_neg hplace]
    exact .inl ⟨hplace, rfl⟩

theorem le_grown (s : State) : s.allocSize ≤ s.grown := by
  rw [grown]
  split_ifs with h
  · omega
  · omega

/-- Bytes that are emitted. -/
def appended (s : State) (p : ℕ) (bytes : List ℕ) : State :=
  { s with
    codeSize := s.codeSize + bytes.length
    mem := writeBytes (p + s.codeSize) bytes s.mem
    written := s.written ++ bytes }

/-- A finished block. -/
def created (s : State) : State :=
  { (s.resized s.codeSize).reset with blocks := s.blocks ++ [(s.place, s.written)] }

namespace Inv

variable (h : s.Inv)
include h

theorem canHold_iff {extra : ℕ} : s.CanHold extra ↔ s.codeSize + extra ≤ s.allocSize ∧
    (0 < s.codeSize + extra →
      s.codePtr ≠ none ∧ s.place + (s.codeSize + extra) ≤ s.allocator.limit) := by
  refine and_congr_right fun hsize => imp_congr_right fun _ => ?_
  constructor
  · rintro ⟨p, hptr, -, -, -, hlimit⟩
    rw [hptr, place_of_some hptr]
    exact ⟨Option.some_ne_none p, hlimit⟩
  · rintro ⟨hne, hlimit⟩
    obtain ⟨p, hptr⟩ := Option.ne_none_iff_exists'.1 hne
    obtain ⟨hcurrent, hnext, hcurrentSize, -⟩ := h.buffer p hptr
    rw [place_of_some hptr] at hlimit
    exact ⟨p, hptr, hcurrent, hcurrentSize ▸ hsize, hnext ▸ h.base_le, hlimit⟩

/-- Without a buffer there is no room, unless the writer asks for it. -/
theorem not_fits_of_none (hptr : s.codePtr = none) {extra : ℕ} (hpos : 0 < s.codeSize + extra)
    (hsize : s.codeSize + extra ≤ s.allocSize) : ¬s.Fits extra := by
  rintro (hzero | ⟨hlimit, -⟩ | ⟨-, -, hlt⟩)
  · omega
  · rcases (h.noBuffer hptr).2.1 with hzero | hout
    · omega
    · have hle : s.allocator.nextAllocation ≤ s.place := by
        rw [place_of_none hptr]
        exact Nat.le_add_right _ _
      omega
  · omega

theorem sound_appended {p : ℕ} (hptr : s.codePtr = some p) (bytes : List ℕ) :
    (s.appended p bytes).Sound := by
  obtain ⟨hholds, hblocks⟩ := h.current p hptr
  refine ⟨h.inArena, fun b hb i c hc => ?_, h.disjoint, ?_, fun q hq => ⟨fun i c hc => ?_, ?_⟩⟩
  · -- A finished block ends before the bytes.
    have hi : i < b.2.length := (List.getElem?_eq_some_iff.1 hc).1
    have hend : b.1 + b.2.length ≤ p := hblocks b hb
    have hout : ¬p + s.codeSize ≤ b.1 + i := by omega
    have hkept : (s.appended p bytes).mem (b.1 + i) = s.mem (b.1 + i) := if_neg hout
    exact hkept.trans (h.content b hb i c hc)
  · rw [appended, List.length_append, h.codeSize_eq]
  · obtain rfl := Option.some.inj (hptr.symm.trans hq)
    have hlength := h.codeSize_eq
    rw [State.appended, List.getElem?_append] at hc
    split_ifs at hc with hi
    · have hkept : (s.appended p bytes).mem (p + i) = s.mem (p + i) := if_neg (by omega)
      exact hkept.trans (hholds i c hc)
    · have hnew : (s.appended p bytes).mem (p + i) =
          (bytes[p + i - (p + s.codeSize)]?).getD (s.mem (p + i)) := if_pos (by omega)
      rw [hnew, show p + i - (p + s.codeSize) = i - s.written.length by omega, hc]
      rfl
  · obtain rfl := Option.some.inj (hptr.symm.trans hq)
    exact hblocks

theorem appended {p : ℕ} (hptr : s.codePtr = some p) {bytes : List ℕ}
    (hsize : s.codeSize + bytes.length ≤ s.allocSize)
    (hlimit : p + (s.codeSize + bytes.length) ≤ s.allocator.limit) : (s.appended p bytes).Inv where
  toSound := h.sound_appended hptr bytes
  base_le := h.base_le
  buffer q hq := by
    obtain rfl := Option.some.inj (hptr.symm.trans hq)
    obtain ⟨hcurrent, hnext, hcurrentSize, -⟩ := h.buffer p hptr
    exact ⟨hcurrent, hnext, hcurrentSize, hlimit, hsize⟩
  noBuffer hnone := nomatch hptr.symm.trans hnone

theorem created (hplace : ¬(s.codePtr = none ∧ s.allocator.limit < s.place)) :
    s.created.Inv where
  inArena b hb := by
    rcases List.mem_append.1 hb with hb | hb
    · exact h.inArena b hb
    · obtain rfl := List.mem_singleton.1 hb
      have hlimit := h.place_add_le hplace
      rw [h.codeSize_eq] at hlimit
      exact ⟨h.base_le_place, hlimit⟩
  content b hb := by
    rcases List.mem_append.1 hb with hb | hb
    · exact h.content b hb
    · obtain rfl := List.mem_singleton.1 hb
      exact h.holds_place
  disjoint := by
    refine List.pairwise_append.2 ⟨h.disjoint, List.pairwise_singleton .., fun b hb c hc => ?_⟩
    obtain rfl := List.mem_singleton.1 hc
    exact h.blockEnd_le_place hb
  codeSize_eq := rfl
  current _ hp := nomatch hp
  base_le := h.base_le_place
  buffer _ hp := nomatch hp
  noBuffer _ := by
    refine ⟨rfl, .inl rfl, fun b hb => ?_⟩
    rcases List.mem_append.1 hb with hb | hb
    · exact (h.blockEnd_le_place hb).trans (Nat.le_add_right _ _)
    · obtain rfl := List.mem_singleton.1 hb
      exact Nat.add_le_add_left h.codeSize_eq.ge _

end Inv

/-! ## Operations that are right -/

theorem stepRight_of_done {op : Op} {t : State} (hstep : s.step op = .done t) :
    s.StepRight op ↔ t.Sound ∧ t.CanHold op.extra := by
  constructor
  · rintro (⟨u, hu, hright⟩ | ⟨_, _, hu, -⟩)
    · obtain rfl := Result.done.inj (hstep.symm.trans hu)
      exact hright
    · exact nomatch hstep.symm.trans hu
  · exact fun hright => .inl ⟨t, hstep, hright⟩

theorem Inv.codeSize_le_grown (h : s.Inv) : s.codeSize ≤ s.grown := by
  cases hptr : s.codePtr with
  | none =>
    rw [h.codeSize_of_none hptr]
    exact Nat.zero_le _
  | some p => exact (h.buffer p hptr).2.2.2.2.trans (le_grown s)

theorem Inv.canHold_iff_fits (h : s.Inv) {extra : ℕ} (hsize : s.codeSize + extra ≤ s.allocSize) :
    s.CanHold extra ↔ s.Fits extra := by
  rw [h.canHold_iff]
  constructor
  · rintro ⟨-, hroom⟩
    rcases Nat.eq_zero_or_pos (s.codeSize + extra) with hzero | hpos
    · exact .inl hzero
    · exact .inr (.inl ⟨(hroom hpos).2, hsize.trans (le_grown s)⟩)
  · refine fun hfits => ⟨hsize, fun hpos => ?_⟩
    have hptr : s.codePtr ≠ none := fun hnone => h.not_fits_of_none hnone hpos hsize hfits
    rcases hfits with hzero | ⟨hlimit, -⟩ | ⟨hnone, -⟩
    · omega
    · exact ⟨hptr, hlimit⟩
    · exact absurd hnone hptr

theorem Inv.resized_canHold_iff_fits (h : s.Inv) {extra : ℕ}
    (hsize : s.allocSize < s.codeSize + extra)
    (hplace : ¬(s.codePtr = none ∧ s.allocator.limit < s.place)) :
    (s.resized s.grown).CanHold extra ↔ s.Fits extra := by
  rw [(h.resized hplace h.codeSize_le_grown).canHold_iff]
  constructor
  · rintro ⟨hgrown, hroom⟩
    exact .inr (.inl ⟨(hroom (by exact Nat.zero_lt_of_lt hsize)).2, hgrown⟩)
  · rintro (hzero | ⟨hlimit, hgrown⟩ | ⟨hnone, hlt, -⟩)
    · omega
    · exact ⟨hgrown, fun _ => ⟨Option.some_ne_none _, hlimit⟩⟩
    · exact absurd ⟨hnone, hlt⟩ hplace

theorem copyIn_of_some {bytes : List ℕ} {t : State} {p : ℕ}
    (hens : s.ensureCapacity bytes.length = .done t) (hptr : t.codePtr = some p) :
    s.copyIn bytes = .done (t.appended p bytes) := by
  rw [copyIn, hens, Result.bind, appended, hptr]

theorem copyIn_of_none {bytes : List ℕ} {t : State}
    (hens : s.ensureCapacity bytes.length = .done t) (hptr : t.codePtr = none) :
    s.copyIn bytes = if bytes = [] then .done t else .undefined := by
  rw [copyIn, hens, Result.bind, hptr]

/-- Bytes are right when the buffer can hold them. -/
theorem copyIn_right_iff {bytes : List ℕ} {t : State}
    (hens : s.ensureCapacity bytes.length = .done t) (ht : t.Inv) :
    s.StepRight (.copyIn bytes) ↔ t.CanHold bytes.length := by
  cases hptr : t.codePtr with
  | some p =>
    have hstep : s.step (.copyIn bytes) = .done (t.appended p bytes) := copyIn_of_some hens hptr
    rw [stepRight_of_done hstep]
    exact and_iff_right (ht.sound_appended hptr bytes)
  | none =>
    have hcopy : s.step (.copyIn bytes) = _ := copyIn_of_none hens hptr
    by_cases hbytes : bytes = []
    · rw [if_pos hbytes] at hcopy
      rw [stepRight_of_done hcopy, hbytes]
      exact and_iff_right ht.toSound
    · rw [if_neg hbytes] at hcopy
      have hpos : 0 < t.codeSize + bytes.length :=
        Nat.add_pos_right _ (List.length_pos_iff.2 hbytes)
      refine iff_of_false ?_ fun hcan => (ht.canHold_iff.1 hcan).2 hpos |>.1 hptr
      rintro (⟨u, hu, -⟩ | ⟨_, _, hu, -⟩)
      · exact nomatch hcopy.symm.trans hu
      · exact nomatch hcopy.symm.trans hu

theorem canHold_zero_resized (h : s.Inv)
    (hplace : ¬(s.codePtr = none ∧ s.allocator.limit < s.place)) :
    (s.resized s.codeSize).CanHold 0 :=
  (h.resized hplace le_rfl).canHold_iff.2
    ⟨le_rfl, fun _ => ⟨Option.some_ne_none _, h.place_add_le hplace⟩⟩

/-- An operation is right when there is room for what it emits. -/
theorem stepRight_iff (h : s.Inv) (op : Op) : s.StepRight op ↔ s.OpFits op := by
  cases op with
  | ensureCapacity extra =>
    rcases ensureCapacity_cases h extra with
      ⟨hsize, hens⟩ | ⟨hsize, hplace, hens⟩ | ⟨hsize, hptr, hplace, hens⟩
    · have hstep : s.step (.ensureCapacity extra) = .done s := hens
      rw [stepRight_of_done hstep]
      exact (and_iff_right h.toSound).trans (h.canHold_iff_fits hsize)
    · have hresized := h.resized hplace h.codeSize_le_grown
      have hstep : s.step (.ensureCapacity extra) = .done (s.resized s.grown) := hens
      rw [stepRight_of_done hstep]
      exact (and_iff_right hresized.toSound).trans (h.resized_canHold_iff_fits hsize hplace)
    · refine iff_of_true ?_ (.inr (.inr ⟨hptr, hplace, hsize⟩))
      exact .inr ⟨_, _, hens, (h.exhausted hptr hplace).toSound, hplace⟩
  | copyIn bytes =>
    rcases ensureCapacity_cases h bytes.length with
      ⟨hsize, hens⟩ | ⟨hsize, hplace, hens⟩ | ⟨hsize, hptr, hplace, hens⟩
    · exact (copyIn_right_iff hens h).trans (h.canHold_iff_fits hsize)
    · have hresized := h.resized hplace h.codeSize_le_grown
      exact (copyIn_right_iff hens hresized).trans (h.resized_canHold_iff_fits hsize hplace)
    · have hcopy : s.copyIn bytes = .throw "out of memory" (s.exhausted s.grown) := by
        rw [copyIn, hens, Result.bind]
      refine iff_of_true ?_ (.inr (.inr ⟨hptr, hplace, hsize⟩))
      exact .inr ⟨_, _, hcopy, (h.exhausted hptr hplace).toSound, hplace⟩
  | finalise =>
    refine iff_of_true ?_ trivial
    rcases finalise_cases h with ⟨hplace, hfin⟩ | ⟨hptr, hplace, hfin⟩
    · exact .inl ⟨_, hfin, (h.resized hplace le_rfl).toSound, canHold_zero_resized h hplace⟩
    · exact .inr ⟨_, _, hfin, (h.exhausted hptr hplace).toSound, hplace⟩
  | create =>
    refine iff_of_true ?_ trivial
    rcases finalise_cases h with ⟨hplace, hfin⟩ | ⟨hptr, hplace, hfin⟩
    · have hcreate : s.create = .done s.created := by
        rw [create, hfin]
        rfl
      exact .inl ⟨_, hcreate, (h.created hplace).toSound, le_rfl, fun hlt => nomatch hlt⟩
    · have hcreate : s.create = .throw "out of memory" (s.exhausted s.allocSize) := by
        rw [create, hfin]
        rfl
      exact .inr ⟨_, _, hcreate, (h.exhausted hptr hplace).toSound, hplace⟩

/-- What a right `ensure_capacity` leaves. -/
theorem Inv.ensured (h : s.Inv) {extra : ℕ} (hfits : s.Fits extra) {t : State}
    (hens : s.ensureCapacity extra = .done t) : t.Inv ∧ t.CanHold extra := by
  rcases ensureCapacity_cases h extra with
    ⟨hsize, heq⟩ | ⟨hsize, hplace, heq⟩ | ⟨-, -, -, heq⟩
  · obtain rfl := Result.done.inj (heq.symm.trans hens)
    exact ⟨h, (h.canHold_iff_fits hsize).2 hfits⟩
  · obtain rfl := Result.done.inj (heq.symm.trans hens)
    exact ⟨h.resized hplace h.codeSize_le_grown, (h.resized_canHold_iff_fits hsize hplace).2 hfits⟩
  · exact nomatch heq.symm.trans hens

/-- The invariant is kept by an operation for which there is room. -/
theorem Inv.step (h : s.Inv) {op : Op} (hfits : s.OpFits op) {t : State}
    (ht : (s.step op).state = some t) : t.Inv := by
  cases op with
  | ensureCapacity extra =>
    rcases ensureCapacity_cases h extra with
      ⟨-, hens⟩ | ⟨-, hplace, hens⟩ | ⟨-, hptr, hplace, hens⟩
    · rw [State.step, hens] at ht
      obtain rfl := Option.some.inj ht
      exact h
    · rw [State.step, hens] at ht
      obtain rfl := Option.some.inj ht
      exact h.resized hplace h.codeSize_le_grown
    · rw [State.step, hens] at ht
      obtain rfl := Option.some.inj ht
      exact h.exhausted hptr hplace
  | copyIn bytes =>
    cases hens : s.ensureCapacity bytes.length with
    | done u =>
      obtain ⟨hu, hcan⟩ := h.ensured hfits hens
      cases hptr : u.codePtr with
      | some p =>
        rw [State.step, copyIn_of_some hens hptr] at ht
        obtain rfl := Option.some.inj ht
        obtain ⟨hsize, hroom⟩ := hu.canHold_iff.1 hcan
        refine hu.appended hptr hsize ?_
        have hlimit := (hu.buffer p hptr).2.2.2.1
        rcases Nat.eq_zero_or_pos (u.codeSize + bytes.length) with hzero | hpos
        · omega
        · rw [← place_of_some hptr]
          exact (hroom hpos).2
      | none =>
        rw [State.step, copyIn_of_none hens hptr] at ht
        split_ifs at ht
        · obtain rfl := Option.some.inj ht
          exact hu
        · exact nomatch ht
    | throw msg u =>
      rcases ensureCapacity_cases h bytes.length with
        ⟨-, heq⟩ | ⟨-, -, heq⟩ | ⟨-, hptr, hplace, heq⟩
      · exact nomatch heq.symm.trans hens
      · exact nomatch heq.symm.trans hens
      · rw [State.step, copyIn, heq] at ht
        obtain rfl := Option.some.inj ht
        exact h.exhausted hptr hplace
    | undefined =>
      rw [State.step, copyIn, hens] at ht
      exact nomatch ht
  | finalise =>
    rcases finalise_cases h with ⟨hplace, hfin⟩ | ⟨hptr, hplace, hfin⟩
    · rw [State.step, hfin] at ht
      obtain rfl := Option.some.inj ht
      exact h.resized hplace le_rfl
    · rw [State.step, hfin] at ht
      obtain rfl := Option.some.inj ht
      exact h.exhausted hptr hplace
  | create =>
    rcases finalise_cases h with ⟨hplace, hfin⟩ | ⟨hptr, hplace, hfin⟩
    · rw [State.step, create, hfin] at ht
      obtain rfl := Option.some.inj ht
      exact h.created hplace
    · rw [State.step, create, hfin] at ht
      obtain rfl := Option.some.inj ht
      exact h.exhausted hptr hplace

theorem Inv.stepsRight_iff (h : s.Inv) (ops : List Op) : s.StepsRight ops ↔ s.StepsFit ops := by
  induction ops generalizing s with
  | nil => exact Iff.rfl
  | cons op ops ih =>
    rw [StepsRight, StepsFit, stepRight_iff h op]
    exact and_congr_right fun hfits => forall_congr' fun t => imp_congr_right fun ht =>
      ih (h.step hfits ht)

end State

/-- The operations on a new writer are right exactly when there is room for what they emit. -/
theorem buffer_right_iff (base size : ℕ) (mem : ℕ → ℕ) (ops : List Op) :
    (State.new base size mem).StepsRight ops ↔ (State.new base size mem).StepsFit ops :=
  (inv_new base size mem).stepsRight_iff ops

/-- The first buffer has 64 bytes, also for more. -/
theorem not_buffer_right :
    ¬(State.new 4096 4096 fun _ => 0).StepsRight [.copyIn (List.replicate 65 144)] := by
  rintro ⟨hright, -⟩
  rw [State.stepRight_iff (inv_new ..)] at hright
  have hnone : ¬(State.new 4096 4096 fun _ => 0).Fits 65 := by
    rw [State.Fits]
    decide
  exact hnone hright

end Arancini.Runtime.CodeBuffer
