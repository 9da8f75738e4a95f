import Mathlib.Data.List.Induction
import Mathlib.Order.Nat

/-!
# The arena of the nodes

The nodes of a chunk are made in the slots of an allocator, which moves a pointer through a page and
takes a new page when a slot does not fit. The slots lie in the pages and do not overlap
(`Arena.placed_run`).

An allocator notes a slot as an object when it hands it out, before the node is constructed, and
destroys all that it has noted. A slot whose constructor has thrown is destroyed as well :
`arena_right_iff` says that what is destroyed are the nodes exactly if no constructor throws.
-/

namespace Arancini.Ir

/-! ## The allocator -/

/-- `ALLOCATION_SIZE`. -/
def allocationSize : ℕ :=
  10200

/-- What `new` returns for the pages of an allocator. Pages do not overlap. -/
structure Heap where
  page : ℕ → ℕ
  disjoint : ∀ i j, i ≠ j →
    page i + allocationSize ≤ page j ∨ page j + allocationSize ≤ page i

/-- The memory that is handed out for a node. -/
structure Slot where
  address : ℕ
  size : ℕ
  deriving DecidableEq

/-- The slot lies in the page. -/
def Slot.Inside (s : Slot) (page : ℕ) : Prop :=
  page ≤ s.address ∧ s.address + s.size ≤ page + allocationSize

def Slot.Disjoint (s t : Slot) : Prop :=
  s.address + s.size ≤ t.address ∨ t.address + t.size ≤ s.address

/-- `Allocator`. The first page is the last one that was made, and an object is noted by its
address. -/
structure Allocator where
  pages : List ℕ
  objects : List ℕ
  currentPage : ℕ
  limit : ℕ

namespace Allocator

variable (heap : Heap)

def new : Allocator where
  pages := [heap.page 0]
  objects := []
  currentPage := heap.page 0
  limit := heap.page 0 + allocationSize

/-- Take a new page. -/
def newPage (a : Allocator) : Allocator where
  pages := heap.page a.pages.length :: a.pages
  objects := a.objects
  currentPage := heap.page a.pages.length
  limit := heap.page a.pages.length + allocationSize

/-- Hand out the next slot of the page, and note it as an object. -/
def bump (size : ℕ) (a : Allocator) : ℕ × Allocator :=
  (a.currentPage,
    { a with currentPage := a.currentPage + size, objects := a.objects ++ [a.currentPage] })

/-- `allocate`, for a type of some size. -/
def allocate (size : ℕ) (a : Allocator) : Option ℕ × Allocator :=
  if a.currentPage + size ≤ a.limit then
    let (slot, a) := a.bump size
    (some slot, a)
  else if size ≤ allocationSize then
    let (slot, a) := (a.newPage heap).bump size
    (some slot, a)
  else (none, a)

/-- `~Allocator` : the objects that are destroyed, in order, before the pages are released. -/
def destroyed (a : Allocator) : List ℕ :=
  a.objects

end Allocator

/-! ## The creation of nodes -/

/-- The creation of a node : the size of its type, and whether its constructor throws. A type fits
into a page. -/
structure Creation where
  size : ℕ
  throws : Bool
  pos : 0 < size
  fits : size ≤ allocationSize

/-- The allocator of a builder, the slots that it has handed out, and the nodes whose construction
has completed. -/
structure Arena where
  allocator : Allocator
  slots : List Slot
  nodes : List ℕ

namespace Arena

variable (heap : Heap)

def new : Arena :=
  ⟨.new heap, [], []⟩

/-- `create_and_insert` : a slot is allocated, and the node is constructed in it. -/
def createAndInsert (b : Arena) (c : Creation) : Arena :=
  match b.allocator.allocate heap c.size with
  | (some slot, a) =>
    { allocator := a
      slots := b.slots ++ [⟨slot, c.size⟩]
      nodes := if c.throws then b.nodes else b.nodes ++ [slot] }
  | (none, a) => { b with allocator := a }

/-- The nodes of a chunk are created. -/
def run (creations : List Creation) : Arena :=
  creations.foldl (createAndInsert heap) (new heap)

/-- Each slot lies in a page, and no two of them overlap. -/
structure Placed (b : Arena) : Prop where
  inside : ∀ s ∈ b.slots, ∃ page ∈ b.allocator.pages, s.Inside page
  disjoint : b.slots.Pairwise Slot.Disjoint

/-- The slots are as they should be, and the objects that are destroyed with the allocator are the
nodes. -/
def Right (creations : List Creation) : Prop :=
  (run heap creations).Placed ∧
    ((run heap creations).allocator.destroyed).Perm (run heap creations).nodes

end Arena

/-! ## Slots -/

variable {heap : Heap}

/-- The pointer is in the last page, behind the slots of it, and all slots are noted. -/
structure Allocator.Inv (heap : Heap) (a : Allocator) (slots : List Slot) : Prop where
  pages : ∀ i < a.pages.length, heap.page i ∈ a.pages
  last : ∃ i, a.pages.length = i + 1 ∧ heap.page i ≤ a.currentPage ∧
    a.currentPage ≤ a.limit ∧ a.limit = heap.page i + allocationSize
  inside : ∀ s ∈ slots, ∃ i < a.pages.length, s.Inside (heap.page i) ∧
    (i + 1 = a.pages.length → s.address + s.size ≤ a.currentPage)
  disjoint : slots.Pairwise Slot.Disjoint
  objects : a.objects = slots.map Slot.address

namespace Allocator.Inv

variable {a : Allocator} {slots : List Slot} {size : ℕ}

theorem new (heap : Heap) : Inv heap (.new heap) [] := by
  refine ⟨fun i hi => ?_, ⟨0, rfl, Nat.le_refl _, Nat.le_add_right _ _, rfl⟩, nofun, .nil, rfl⟩
  obtain rfl : i = 0 := Nat.lt_one_iff.1 hi
  exact List.mem_cons_self

theorem newPage (h : Inv heap a slots) : Inv heap (a.newPage heap) slots := by
  refine ⟨fun i hi => ?_, ⟨a.pages.length, rfl, Nat.le_refl _, Nat.le_add_right _ _, rfl⟩,
    fun s hs => ?_, h.disjoint, h.objects⟩
  · rcases Nat.lt_succ_iff_lt_or_eq.1 hi with hi | rfl
    · exact List.mem_cons_of_mem _ (h.pages i hi)
    · exact List.mem_cons_self
  · obtain ⟨i, hi, hinside, -⟩ := h.inside s hs
    exact ⟨i, Nat.lt_succ_of_lt hi, hinside, fun heq => absurd (Nat.succ.inj heq) hi.ne⟩

/-- A slot behind the pointer overlaps no slot that has been handed out. -/
theorem disjoint_bump (h : Inv heap a slots) (hfits : a.currentPage + size ≤ a.limit) {s : Slot}
    (hs : s ∈ slots) : s.Disjoint ⟨a.currentPage, size⟩ := by
  obtain ⟨n, hn, hlow, -, hlimit⟩ := h.last
  obtain ⟨i, hi, ⟨hstart, hend⟩, hlast⟩ := h.inside s hs
  by_cases heq : i = n
  · exact .inl (hlast (by rw [heq, hn]))
  · rcases heap.disjoint i n heq with hbefore | hafter
    · exact .inl (hend.trans (hbefore.trans hlow))
    · refine .inr ?_
      show a.currentPage + size ≤ s.address
      exact hfits.trans (hlimit.le.trans (hafter.trans hstart))

theorem bump (h : Inv heap a slots) (hfits : a.currentPage + size ≤ a.limit) :
    Inv heap (a.bump size).2 (slots ++ [⟨a.currentPage, size⟩]) := by
  obtain ⟨n, hn, hlow, -, hlimit⟩ := h.last
  refine ⟨h.pages, ⟨n, hn, hlow.trans (Nat.le_add_right _ _), hfits, hlimit⟩, fun s hs => ?_, ?_,
    ?_⟩
  · rcases List.mem_append.1 hs with hs | hs
    · obtain ⟨i, hi, hinside, hlast⟩ := h.inside s hs
      exact ⟨i, hi, hinside, fun heq => (hlast heq).trans (Nat.le_add_right _ _)⟩
    · obtain rfl := List.mem_singleton.1 hs
      exact ⟨n, hn.symm ▸ Nat.lt_succ_self n, ⟨hlow, hfits.trans hlimit.le⟩, fun _ => Nat.le_refl _⟩
  · refine List.pairwise_append.2 ⟨h.disjoint, List.pairwise_singleton _ _, fun s hs t ht => ?_⟩
    obtain rfl := List.mem_singleton.1 ht
    exact h.disjoint_bump hfits hs
  · rw [List.map_append, ← h.objects]
    rfl

/-- What fits into a page is allocated. -/
theorem allocate (h : Inv heap a slots) (hsize : size ≤ allocationSize) :
    ∃ slot, (a.allocate heap size).1 = some slot ∧
      Inv heap (a.allocate heap size).2 (slots ++ [⟨slot, size⟩]) := by
  unfold Allocator.allocate
  split_ifs with hfits
  · exact ⟨_, rfl, h.bump hfits⟩
  · exact ⟨_, rfl, h.newPage.bump (Nat.add_le_add_left hsize _)⟩

end Allocator.Inv

namespace Arena

/-- The nodes are the slots whose constructors have returned. -/
structure Inv (heap : Heap) (b : Arena) (creations : List Creation) : Prop where
  allocator : b.allocator.Inv heap b.slots
  slots : b.slots.length = creations.length
  nodes : b.nodes.length = creations.countP (!·.throws)
  complete : (∀ c ∈ creations, c.throws = false) → b.nodes = b.slots.map Slot.address

theorem Inv.createAndInsert {b : Arena} {creations : List Creation} (h : Inv heap b creations)
    (c : Creation) : Inv heap (b.createAndInsert heap c) (creations ++ [c]) := by
  obtain ⟨slot, hslot, hinv⟩ := h.allocator.allocate c.fits
  generalize hallocate : b.allocator.allocate heap c.size = result at hslot hinv
  obtain ⟨first, a⟩ := result
  obtain rfl : first = some slot := hslot
  unfold Arena.createAndInsert
  rw [hallocate]
  refine ⟨hinv, ?_, ?_, fun hreturn => ?_⟩
  · rw [List.length_append, List.length_append, h.slots]
    rfl
  · rw [List.countP_append, ← h.nodes, List.countP_singleton]
    cases c.throws
    · exact List.length_append
    · rfl
  · have hc : c.throws = false := hreturn c (List.mem_append_right _ List.mem_cons_self)
    have hnodes := h.complete fun d hd => hreturn d (List.mem_append_left _ hd)
    simp only [hc, Bool.false_eq_true, if_false, hnodes, List.map_append, List.map_cons,
      List.map_nil]

theorem inv_run (heap : Heap) (creations : List Creation) :
    Inv heap (run heap creations) creations := by
  induction creations using List.reverseRecOn with
  | nil => exact ⟨.new heap, rfl, rfl, fun _ => rfl⟩
  | append_singleton creations c ih =>
    unfold run
    rw [List.foldl_append]
    exact ih.createAndInsert c

/-- After any creations, the slots lie in the pages and do not overlap. -/
theorem placed_run (heap : Heap) (creations : List Creation) : (run heap creations).Placed := by
  have hinv := (inv_run heap creations).allocator
  refine ⟨fun s hs => ?_, hinv.disjoint⟩
  obtain ⟨i, hi, hinside, -⟩ := hinv.inside s hs
  exact ⟨heap.page i, hinv.pages i hi, hinside⟩

/-- Each slot is destroyed, once. -/
theorem destroyed_run (heap : Heap) (creations : List Creation) :
    (run heap creations).allocator.destroyed = (run heap creations).slots.map Slot.address :=
  (inv_run heap creations).allocator.objects

/-- A slot whose constructor has thrown is no node. -/
theorem Right.returns {creations : List Creation} (h : Right heap creations) :
    ∀ c ∈ creations, c.throws = false := by
  have hinv := inv_run heap creations
  have hlength := h.2.length_eq
  rw [destroyed_run, List.length_map, hinv.slots, hinv.nodes] at hlength
  intro c hc
  simpa using List.countP_eq_length.1 hlength.symm c hc

/-- What is destroyed at the end of a chunk are the nodes that were constructed exactly if no
constructor has thrown. -/
theorem arena_right_iff (heap : Heap) (creations : List Creation) :
    Right heap creations ↔ ∀ c ∈ creations, c.throws = false := by
  constructor
  · exact Right.returns
  · intro h
    refine ⟨placed_run heap creations, ?_⟩
    rw [destroyed_run, (inv_run heap creations).complete h]

/-- Pages one after the other. -/
def pagesInOrder : Heap where
  page i := allocationSize * i
  disjoint i j h := by
    rcases Nat.lt_or_gt_of_ne h with hlt | hlt
    · exact .inl (Nat.mul_le_mul_left allocationSize hlt)
    · exact .inr (Nat.mul_le_mul_left allocationSize hlt)

/-- A node, and one whose constructor throws. -/
def nodeThenThrow : List Creation :=
  [⟨248, false, by decide, by decide⟩, ⟨192, true, by decide, by decide⟩]

theorem not_nodeThenThrow_right : ¬Right pagesInOrder nodeThenThrow := by
  intro h
  have hreturn := h.returns ⟨192, true, by decide, by decide⟩
    (List.mem_cons_of_mem _ List.mem_cons_self)
  exact absurd hreturn (by decide)

end Arena

end Arancini.Ir
