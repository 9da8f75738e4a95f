import Mathlib.Algebra.Group.Nat.Defs
import Mathlib.Data.Nat.Basic
import Mathlib.Order.Basic
import Mathlib.Order.MinMax
import Mathlib.Tactic.Common
import Mathlib.Tactic.SplitIfs

/-!
# The guest break

`execution_context` reserves the guest memory, makes the regions of the program and of the stack
accessible, and serves the `brk` system call. The break begins behind the regions of the program
and has to stay below the regions that are reserved.

A request below the break moves it, however low, and a request below the limit moves it also where
`mprotect` fails. `breaks_right_iff` says which requests are answered right, for all runs.
-/

namespace Arancini.Runtime.GuestBreak

/-- `x & ~0xfff`. -/
def pageDown (x : ℕ) : ℕ :=
  x / 4096 * 4096

/-- `memory_size_`. -/
def memorySize : ℕ :=
  0x10000000

/-- The system under the runtime : the guest memory that `mmap` has found, the pages that are mapped
and accessible at the start, and `mprotect` with read and write permission. Pages have numbers. -/
structure Host where
  memory : ℕ
  mapped : ℕ → Bool
  accessible : ℕ → Bool
  mprotect : ℕ → ℕ → (ℕ → Bool) → ℕ → Bool
  memory_pos : 0 < memory
  memory_lt : memory < 2 ^ 64
  memory_aligned : memory % 4096 = 0
  mapped_of_accessible : ∀ p, accessible p = true → mapped p = true
  /-- A range that is mapped is made accessible. -/
  mprotect_mapped : ∀ start length acc,
    (∀ p, start ≤ p * 4096 → p * 4096 < start + length → mapped p = true) →
      ∀ p, start ≤ p * 4096 → p * 4096 < start + length → mprotect start length acc p = true
  /-- No permission is taken away. -/
  mprotect_mono : ∀ start length acc p, acc p = true → mprotect start length acc p = true
  /-- A page that is not mapped stays so. -/
  mapped_of_mprotect : ∀ start length acc p,
    mprotect start length acc p = true → acc p = true ∨ mapped p = true

/-- The arguments of `add_memory_region`. -/
structure Region where
  base : BitVec 64
  size : BitVec 64
  ignoreBrk : Bool

/-- The fields of `execution_context`, with the page permissions. -/
structure State where
  brk : ℕ
  brkLimit : ℕ
  accessible : ℕ → Bool

/-- The fields after the constructor. -/
def Host.start (h : Host) : State :=
  ⟨h.memory, 2 ^ 64 - 1, h.accessible⟩

/-! ## Regions -/

namespace Region

variable (h : Host) (r : Region)

/-- The region does not end behind the guest memory. -/
def InBounds : Prop :=
  (r.base + r.size).toNat ≤ memorySize

instance : Decidable r.InBounds :=
  inferInstanceAs (Decidable (_ ≤ _))

def basePtr : ℕ :=
  (h.memory + r.base.toNat) % 2 ^ 64

def alignedBasePtr : ℕ :=
  pageDown (r.basePtr h)

def alignedSize : ℕ :=
  pageDown ((r.size.toNat + r.basePtr h % 4096 + 0xfff) % 2 ^ 64)

/-- The end of the last page. -/
def pageEnd : ℕ :=
  (r.alignedBasePtr h + r.alignedSize h) % 2 ^ 64

end Region

namespace State

/-- `add_memory_region`. -/
def addMemoryRegion (h : Host) (r : Region) (s : State) : Except String State :=
  if r.InBounds then
    let s := { s with
      accessible := h.mprotect (r.alignedBasePtr h) (r.alignedSize h) s.accessible }
    if r.ignoreBrk then .ok { s with brkLimit := min s.brkLimit (r.alignedBasePtr h) }
    else .ok { s with brk := max (r.pageEnd h) s.brk }
  else .error "memory region out of bounds"

/-- The state after a call of `add_memory_region`. A call that throws changes nothing. -/
def withRegion (h : Host) (r : Region) (s : State) : State :=
  match s.addMemoryRegion h r with
  | .ok t => t
  | .error _ => s

def addRegions (h : Host) : List Region → State → State
  | [], s => s
  | r :: rs, s => (s.withRegion h r).addRegions h rs

/-- The system call `brk` : what it returns in `RAX`, and the new state. A guest address is a host
address (`get_memory_ptr`). -/
def brkCall (h : Host) (addr : BitVec 64) (s : State) : ℕ × State :=
  if addr = 0 then (s.brk, s)
  else if addr.toNat < s.brk then (addr.toNat, { s with brk := addr.toNat })
  else if addr.toNat < s.brkLimit then
    let size := addr.toNat - s.brk
    let alignedSize := pageDown ((size + s.brk % 4096 + 0xfff) % 2 ^ 64)
    (addr.toNat, { s with
      brk := addr.toNat
      accessible := h.mprotect (pageDown s.brk) alignedSize s.accessible })
  else (s.brk, s)

end State

/-! ## Right breaks -/

section Breaks

variable (h : Host)

/-- The end of the regions of the program. -/
def initialBreak : List Region → ℕ
  | [] => h.memory
  | r :: rs =>
    if r.InBounds ∧ r.ignoreBrk = false then max (r.pageEnd h) (initialBreak rs)
    else initialBreak rs

/-- The lowest reserved region. -/
def lowestReserved : List Region → ℕ
  | [] => 2 ^ 64 - 1
  | r :: rs =>
    if r.InBounds ∧ r.ignoreBrk = true then min (r.alignedBasePtr h) (lowestReserved rs)
    else lowestReserved rs

end Breaks

/-- The break is between its bounds, and the pages below it are accessible. -/
structure State.Sound (init limit : ℕ) (s : State) : Prop where
  init_le : init ≤ s.brk
  le_limit : s.brk ≤ limit
  accessible_below : ∀ p, init ≤ p * 4096 → p * 4096 < s.brk → s.accessible p = true

/-- A call returns the break, and a request that it refuses has changed nothing. -/
def Answered (addr : BitVec 64) (s : State) (out : ℕ × State) : Prop :=
  out.1 = out.2.brk ∧ (out.1 ≠ addr.toNat → out.2 = s)

/-- The state is right before and after each call, and each call is answered. -/
def State.CallsRight (h : Host) (init limit : ℕ) : State → List (BitVec 64) → Prop
  | s, [] => s.Sound init limit
  | s, addr :: addrs => s.Sound init limit ∧ Answered addr s (s.brkCall h addr) ∧
      (s.brkCall h addr).2.CallsRight h init limit addrs

/-- A request that is answered right : it asks for the break, or it is refused, or it is not below
the initial break and the pages up to it are mapped. -/
def Allowed (h : Host) (init limit : ℕ) (addr : BitVec 64) : Prop :=
  addr = 0 ∨ limit ≤ addr.toNat ∨
    (init ≤ addr.toNat ∧ ∀ p, init ≤ p * 4096 → p * 4096 < addr.toNat → h.mapped p = true)

/-! ## The regions of the program -/

namespace State

variable {h : Host} {s : State}

theorem withRegion_brk (r : Region) : (s.withRegion h r).brk =
    if r.InBounds ∧ r.ignoreBrk = false then max (r.pageEnd h) s.brk else s.brk := by
  rw [withRegion, addMemoryRegion]
  by_cases hin : r.InBounds
  · cases hignore : r.ignoreBrk with
    | true => simp [hin]
    | false => simp [hin]
  · simp [hin]

theorem withRegion_brkLimit (r : Region) : (s.withRegion h r).brkLimit =
    if r.InBounds ∧ r.ignoreBrk = true then min s.brkLimit (r.alignedBasePtr h)
    else s.brkLimit := by
  rw [withRegion, addMemoryRegion]
  by_cases hin : r.InBounds
  · cases hignore : r.ignoreBrk with
    | true => simp [hin]
    | false => simp [hin]
  · simp [hin]

theorem mapped_withRegion (r : Region) (hs : ∀ p, s.accessible p = true → h.mapped p = true)
    (p : ℕ) (hp : (s.withRegion h r).accessible p = true) : h.mapped p = true := by
  rw [withRegion, addMemoryRegion] at hp
  by_cases hin : r.InBounds
  · have hprotect : h.mprotect (r.alignedBasePtr h) (r.alignedSize h) s.accessible p = true := by
      cases hignore : r.ignoreBrk with
      | true => simpa [hin, hignore] using hp
      | false => simpa [hin, hignore] using hp
    exact (h.mapped_of_mprotect _ _ _ _ hprotect).elim (hs p) id
  · exact hs p (by simpa [hin] using hp)

theorem addRegions_brk (rs : List Region) (hs : h.memory ≤ s.brk) :
    (s.addRegions h rs).brk = max s.brk (initialBreak h rs) := by
  induction rs generalizing s with
  | nil => exact (max_eq_left hs).symm
  | cons r rs ih =>
    have hbrk := withRegion_brk (h := h) (s := s) r
    rw [addRegions, initialBreak]
    split_ifs at hbrk ⊢ with hr
    · rw [ih (hbrk ▸ hs.trans (le_max_right _ _)), hbrk, max_left_comm, max_assoc]
    · rw [ih (hbrk ▸ hs), hbrk]

theorem addRegions_brkLimit (rs : List Region) (hs : s.brkLimit ≤ 2 ^ 64 - 1) :
    (s.addRegions h rs).brkLimit = min s.brkLimit (lowestReserved h rs) := by
  induction rs generalizing s with
  | nil => exact (min_eq_left hs).symm
  | cons r rs ih =>
    have hlimit := withRegion_brkLimit (h := h) (s := s) r
    rw [addRegions, lowestReserved]
    split_ifs at hlimit ⊢ with hr
    · rw [ih (hlimit ▸ (min_le_left _ _).trans hs), hlimit, min_assoc]
    · rw [ih (hlimit ▸ hs), hlimit]

theorem mapped_addRegions (rs : List Region) (hs : ∀ p, s.accessible p = true → h.mapped p = true) :
    ∀ p, (s.addRegions h rs).accessible p = true → h.mapped p = true := by
  induction rs generalizing s with
  | nil => exact hs
  | cons r rs ih => exact ih (mapped_withRegion r hs)

end State

theorem pageDown_mod (x : ℕ) : pageDown x % 4096 = 0 :=
  Nat.mul_mod_left _ _

theorem pageEnd_mod (h : Host) (r : Region) : r.pageEnd h % 4096 = 0 := by
  have hbase : r.alignedBasePtr h % 4096 = 0 := pageDown_mod _
  have hsize : r.alignedSize h % 4096 = 0 := pageDown_mod _
  rw [Region.pageEnd]
  omega

theorem initialBreak_spec (h : Host) (rs : List Region) : h.memory ≤ initialBreak h rs ∧
    initialBreak h rs % 4096 = 0 := by
  induction rs with
  | nil => exact ⟨le_rfl, h.memory_aligned⟩
  | cons r rs ih =>
    rw [initialBreak]
    split_ifs
    · refine ⟨ih.1.trans (le_max_right _ _), ?_⟩
      rcases max_choice (r.pageEnd h) (initialBreak h rs) with hmax | hmax
      · rw [hmax]
        exact pageEnd_mod h r
      · rw [hmax]
        exact ih.2
    · exact ih

theorem lowestReserved_le (h : Host) (rs : List Region) : lowestReserved h rs ≤ 2 ^ 64 - 1 := by
  induction rs with
  | nil => exact le_rfl
  | cons r rs ih =>
    rw [lowestReserved]
    split_ifs
    · exact (min_le_right _ _).trans ih
    · exact ih

/-! ## Calls that are right -/

/-- What holds between calls. -/
structure State.Inv (h : Host) (init limit : ℕ) (s : State) : Prop extends s.Sound init limit where
  init_pos : 0 < init
  init_aligned : init % 4096 = 0
  limit_le : limit ≤ 2 ^ 64 - 1
  brkLimit_eq : s.brkLimit = limit
  mapped : ∀ p, s.accessible p = true → h.mapped p = true

namespace State

variable {h : Host} {init limit : ℕ} {s : State}

/-- Requests that change nothing. -/
theorem brkCall_refused {addr : BitVec 64} (hs : s.Inv h init limit)
    (haddr : addr = 0 ∨ limit ≤ addr.toNat) : s.brkCall h addr = (s.brk, s) := by
  rw [brkCall]
  rcases haddr with rfl | hle
  · exact if_pos rfl
  · have hbrk := hs.le_limit
    have hlimit := hs.brkLimit_eq
    split_ifs
    · rfl
    · omega
    · omega
    · rfl

theorem init_le_pageDown {init brk : ℕ} (haligned : init % 4096 = 0) (hinit : init ≤ brk) :
    init ≤ pageDown brk := by
  unfold pageDown
  omega

/-- A page begins below the end of the last page exactly when it begins below the address. -/
theorem lt_last_page_iff {finish addr p : ℕ} (hfinish : finish = (addr + 4095) / 4096 * 4096) :
    p * 4096 < finish ↔ p * 4096 < addr := by
  omega

/-- What is asked for ends with the page of the new break. -/
theorem grown_end {brk addr : ℕ} (hpos : 4096 ≤ brk) (hle : brk ≤ addr) (haddr : addr < 2 ^ 64) :
    pageDown brk + pageDown ((addr - brk + brk % 4096 + 0xfff) % 2 ^ 64) =
      (addr + 4095) / 4096 * 4096 := by
  unfold pageDown
  omega

theorem brkCall_grown {addr : BitVec 64} (hs : s.Inv h init limit) (hzero : addr ≠ 0)
    (hle : s.brk ≤ addr.toNat) (hlt : addr.toNat < limit) :
    ∃ size, pageDown s.brk + size = (addr.toNat + 4095) / 4096 * 4096 ∧
      s.brkCall h addr = (addr.toNat,
        ⟨addr.toNat, limit, h.mprotect (pageDown s.brk) size s.accessible⟩) := by
  have hinit := hs.init_le
  have hpos := hs.init_pos
  have haligned := hs.init_aligned
  have hbrk : 4096 ≤ s.brk := by omega
  refine ⟨_, grown_end hbrk hle addr.isLt, ?_⟩
  rw [brkCall, if_neg hzero, if_neg (Nat.not_lt.2 hle), hs.brkLimit_eq, if_pos hlt]

/-- Requests that move the break. -/
theorem brkCall_moved {addr : BitVec 64} (hs : s.Inv h init limit) (hzero : addr ≠ 0)
    (hlt : addr.toNat < limit) : ∃ acc, s.brkCall h addr = (addr.toNat, ⟨addr.toNat, limit, acc⟩) ∧
      (∀ p, s.accessible p = true → acc p = true) ∧ (∀ p, acc p = true → h.mapped p = true) ∧
      ((∀ p, init ≤ p * 4096 → p * 4096 < addr.toNat → h.mapped p = true) →
        ∀ p, init ≤ p * 4096 → p * 4096 < addr.toNat → acc p = true) := by
  by_cases hbelow : addr.toNat < s.brk
  · rw [brkCall, if_neg hzero, if_pos hbelow, hs.brkLimit_eq]
    exact ⟨s.accessible, rfl, fun _ hp => hp, hs.mapped, fun _ p hp hpaddr =>
      hs.accessible_below p hp (hpaddr.trans hbelow)⟩
  · obtain ⟨size, hend, hcall⟩ := brkCall_grown hs hzero (Nat.le_of_not_lt hbelow) hlt
    refine ⟨_, hcall, h.mprotect_mono _ _ _, fun p hp => ?_, fun hmapped p hp hpaddr => ?_⟩
    · exact (h.mapped_of_mprotect _ _ _ p hp).elim (hs.mapped p) id
    · by_cases hpage : pageDown s.brk ≤ p * 4096
      · refine h.mprotect_mapped _ _ _ (fun q hq hqend => hmapped q ?_ ?_) p hpage ?_
        · exact (init_le_pageDown hs.init_aligned hs.init_le).trans hq
        · exact (lt_last_page_iff hend).1 hqend
        · exact (lt_last_page_iff hend).2 hpaddr
      · refine h.mprotect_mono _ _ _ p (hs.accessible_below p hp ?_)
        unfold pageDown at hpage
        omega

theorem answered_brkCall (hs : s.Inv h init limit) (addr : BitVec 64) :
    Answered addr s (s.brkCall h addr) := by
  by_cases haddr : addr = 0 ∨ limit ≤ addr.toNat
  · rw [brkCall_refused hs haddr]
    exact ⟨rfl, fun _ => rfl⟩
  · obtain ⟨hzero, hlt⟩ := not_or.1 haddr
    obtain ⟨acc, hcall, -⟩ := brkCall_moved hs hzero (Nat.lt_of_not_le hlt)
    rw [hcall]
    exact ⟨rfl, fun hne => absurd rfl hne⟩

/-- A call keeps the state right exactly when the request is allowed. -/
theorem inv_brkCall (hs : s.Inv h init limit) (addr : BitVec 64) :
    ((s.brkCall h addr).2.Sound init limit ↔ Allowed h init limit addr) ∧
      ((s.brkCall h addr).2.Sound init limit → (s.brkCall h addr).2.Inv h init limit) := by
  by_cases haddr : addr = 0 ∨ limit ≤ addr.toNat
  · rw [brkCall_refused hs haddr]
    exact ⟨iff_of_true hs.toSound (or_assoc.1 (.inl haddr)), fun _ => hs⟩
  · obtain ⟨hzero, hlt⟩ := not_or.1 haddr
    replace hlt := Nat.lt_of_not_le hlt
    obtain ⟨acc, hcall, -, hmapped, hgrown⟩ := brkCall_moved hs hzero hlt
    rw [hcall]
    refine ⟨⟨fun ht => ?_, ?_⟩, fun ht => ?_⟩
    · exact .inr (.inr ⟨ht.init_le, fun p hp hpaddr =>
        hmapped p (ht.accessible_below p hp hpaddr)⟩)
    · rintro (hfalse | hfalse | ⟨hinit, hpages⟩)
      · exact absurd hfalse hzero
      · omega
      · exact ⟨hinit, hlt.le, hgrown hpages⟩
    · exact { ht with
        init_pos := hs.init_pos
        init_aligned := hs.init_aligned
        limit_le := hs.limit_le
        brkLimit_eq := rfl
        mapped := hmapped }

/-- All calls are right exactly when all requests are allowed. -/
theorem Inv.callsRight_iff (hs : s.Inv h init limit) (addrs : List (BitVec 64)) :
    s.CallsRight h init limit addrs ↔ ∀ addr ∈ addrs, Allowed h init limit addr := by
  induction addrs generalizing s with
  | nil => exact iff_of_true hs.toSound fun _ hmem => absurd hmem List.not_mem_nil
  | cons addr addrs ih =>
    obtain ⟨hsound, hinv⟩ := inv_brkCall hs addr
    rw [CallsRight, List.forall_mem_cons, ← hsound]
    constructor
    · rintro ⟨-, -, hcalls⟩
      have ht : (s.brkCall h addr).2.Sound init limit := by
        cases addrs with
        | nil => exact hcalls
        | cons _ _ => exact hcalls.1
      exact ⟨ht, (ih (hinv ht)).1 hcalls⟩
    · rintro ⟨ht, hall⟩
      exact ⟨hs.toSound, answered_brkCall hs addr, (ih (hinv ht)).2 hall⟩

/-- The break after the calls of `add_memory_region`. -/
theorem inv_addRegions (rs : List Region) (hle : initialBreak h rs ≤ lowestReserved h rs) :
    (h.start.addRegions h rs).Inv h (initialBreak h rs) (lowestReserved h rs) := by
  obtain ⟨hmemory, haligned⟩ := initialBreak_spec h rs
  have hbrk : (h.start.addRegions h rs).brk = initialBreak h rs :=
    (addRegions_brk rs le_rfl).trans (max_eq_right hmemory)
  have hlimit : (h.start.addRegions h rs).brkLimit = lowestReserved h rs :=
    (addRegions_brkLimit rs le_rfl).trans (min_eq_right (lowestReserved_le h rs))
  exact {
    init_le := hbrk.ge
    le_limit := hbrk.le.trans hle
    accessible_below := fun p hp hlt => absurd (hlt.trans_le hbrk.le) (Nat.not_lt.2 hp)
    init_pos := h.memory_pos.trans_le hmemory
    init_aligned := haligned
    limit_le := lowestReserved_le h rs
    brkLimit_eq := hlimit
    mapped := mapped_addRegions rs h.mapped_of_accessible }

end State

/-- The calls of `brk` are right exactly when the program ends below the reserved regions and each
request is allowed. -/
theorem breaks_right_iff (h : Host) (rs : List Region) (addrs : List (BitVec 64)) :
    (h.start.addRegions h rs).CallsRight h (initialBreak h rs) (lowestReserved h rs) addrs ↔
      initialBreak h rs ≤ lowestReserved h rs ∧
        ∀ addr ∈ addrs, Allowed h (initialBreak h rs) (lowestReserved h rs) addr := by
  constructor
  · intro hright
    have hsound : (h.start.addRegions h rs).Sound (initialBreak h rs) (lowestReserved h rs) := by
      cases addrs with
      | nil => exact hright
      | cons _ _ => exact hright.1
    have hle := hsound.init_le.trans hsound.le_limit
    exact ⟨hle, ((State.inv_addRegions rs hle).callsRight_iff addrs).1 hright⟩
  · rintro ⟨hle, hall⟩
    exact ((State.inv_addRegions rs hle).callsRight_iff addrs).2 hall

/-- A host where all pages are mapped. -/
def Host.allMapped : Host where
  memory := 0x600000000000
  mapped _ := true
  accessible _ := false
  mprotect start length acc p :=
    acc p || (decide (start ≤ p * 4096) && decide (p * 4096 < start + length))
  memory_pos := by decide
  memory_lt := by decide
  memory_aligned := rfl
  mapped_of_accessible _ _ := rfl
  mprotect_mapped start length acc _ p hp hlt := by
    simp [hp, hlt]
  mprotect_mono _ _ _ _ hp := by
    simp [hp]
  mapped_of_mprotect _ _ _ _ _ := .inr rfl

/-- The stack of the guest. -/
def Region.stack : Region :=
  ⟨0x10000000 - 0x10000, 0x10000, true⟩

/-- A request for a low address moves the break below the program. -/
theorem not_breaks_right :
    ¬(Host.allMapped.start.addRegions Host.allMapped [.stack]).CallsRight Host.allMapped
      (initialBreak Host.allMapped [.stack]) (lowestReserved Host.allMapped [.stack]) [1] := by
  rintro ⟨-, -, hsound⟩
  exact absurd hsound.init_le (by decide)

end Arancini.Runtime.GuestBreak
