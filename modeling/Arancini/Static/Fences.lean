import Mathlib.Order.Lattice
import Mathlib.Data.Fintype.Basic

/-!
# Fences of static code

The static back-end puts a fence after a load of the guest, one before a store, and one on
each side of an atomic read-modify-write. `FenceCombinePass` then merges the fences of a
block in pairs. A merged fence has the join of the two orderings
(`getMergedAtomicOrdering`), and includes both.

`run` is the scan of the pass. It keeps every instruction that may access memory where
it is, and every fence between the same two of these (`memory_scan`, `exists_fence_scan`).
`run_separated` : two accesses of the guest, other than a store and a load after it, have
the fences between them that their kinds ask for. A load and a store after it have one fence
for both, as long as no other instruction that may access memory comes between them.
-/

namespace Arancini.Static

/-! ## Orderings -/

/-- The orderings of a fence. -/
inductive AtomicOrdering
  | acquire
  | release
  | acquireRelease
  | sequentiallyConsistent
  deriving DecidableEq

namespace AtomicOrdering

instance : Fintype AtomicOrdering :=
  ⟨{acquire, release, acquireRelease, sequentiallyConsistent}, fun o => by cases o <;> decide⟩

/-- `isStrongerThan`. -/
def isStrongerThan : AtomicOrdering → AtomicOrdering → Bool
  | acquireRelease, acquire | acquireRelease, release => true
  | sequentiallyConsistent, sequentiallyConsistent => false
  | sequentiallyConsistent, _ => true
  | _, _ => false

/-- `getMergedAtomicOrdering`. -/
def merged (o o' : AtomicOrdering) : AtomicOrdering :=
  match o, o' with
  | acquire, release | release, acquire => acquireRelease
  | o, o' => if isStrongerThan o o' then o else o'

/-- An ordering includes those it is stronger than, and merging two gives the least one that
includes both. -/
instance : SemilatticeSup AtomicOrdering where
  le o o' := o = o' ∨ isStrongerThan o' o
  le_refl := by decide
  le_trans := by decide
  le_antisymm := by decide
  sup := merged
  le_sup_left := by decide
  le_sup_right := by decide
  sup_le := by decide

instance (o o' : AtomicOrdering) : Decidable (o ≤ o') :=
  inferInstanceAs (Decidable (o = o' ∨ isStrongerThan o' o))

end AtomicOrdering

/-! ## The pass -/

/-- Accesses of guest memory. -/
inductive Access
  | load
  | store
  | rmw
  deriving DecidableEq

/-- The instructions of a block : accesses of the guest, fences, and all others, of which some
may access memory, the state of the guest or their own. -/
inductive Instr
  | access (a : Access)
  | fence (o : AtomicOrdering)
  | other (mem : Bool)
  deriving DecidableEq

/-- `mayReadOrWriteMemory`, which the pass asks of no fence. -/
def Instr.mayReadOrWriteMemory : Instr → Bool
  | access _ => true
  | fence _ => false
  | other mem => mem

/-- `FenceCombinePass::run` on the rest of a block, from a state of its scan : the fence `first`,
if there is one, and the instructions between it and the rest. -/
def scan : Option (AtomicOrdering × List Instr) → List Instr → List Instr
  | none, [] => []
  | some (first, mid), [] => .fence first :: mid
  | none, .fence o :: code => scan (some (o, [])) code
  | some (first, mid), .fence o :: code => .fence (first.merged o) :: (mid ++ scan none code)
  | none, i :: code => i :: scan none code
  | some (first, mid), i :: code =>
    if i.mayReadOrWriteMemory then .fence first :: (mid ++ i :: scan none code)
    else scan (some (first, mid ++ [i])) code

/-- `FenceCombinePass::run` on a block. -/
def run (code : List Instr) : List Instr :=
  scan none code

/-- The instructions a state of the scan holds back. -/
def held : Option (AtomicOrdering × List Instr) → List Instr
  | none => []
  | some (first, mid) => .fence first :: mid

theorem scan_nil (st : Option (AtomicOrdering × List Instr)) : scan st [] = held st := by
  rcases st with _ | ⟨first, mid⟩ <;> rfl

@[simp] theorem scan_some_access (first : AtomicOrdering) (mid : List Instr) (a : Access)
    (code : List Instr) :
    scan (some (first, mid)) (.access a :: code) =
      .fence first :: (mid ++ .access a :: scan none code) :=
  rfl

@[simp] theorem scan_some_other_true (first : AtomicOrdering) (mid code : List Instr) :
    scan (some (first, mid)) (.other true :: code) =
      .fence first :: (mid ++ .other true :: scan none code) :=
  rfl

/-- An instruction that may access memory ends the scan for a second fence. -/
theorem scan_mem (st : Option (AtomicOrdering × List Instr)) {i : Instr}
    (hi : i.mayReadOrWriteMemory) (code : List Instr) :
    scan st (i :: code) = held st ++ i :: scan none code := by
  rcases st with _ | ⟨first, mid⟩ <;> cases i <;> simp_all [scan, held, Instr.mayReadOrWriteMemory]

/-- What comes after an instruction that may access memory is a block of its own. -/
theorem scan_append_mem : ∀ (st : Option (AtomicOrdering × List Instr)) (l : List Instr) {i : Instr}
    (_ : i.mayReadOrWriteMemory) (r : List Instr),
    scan st (l ++ i :: r) = scan st l ++ i :: run r
  | st, [], i, hi, r => by
    rw [List.nil_append, scan_mem st hi, scan_nil, run]
  | none, .fence o :: l, i, hi, r => scan_append_mem (some (o, [])) l hi r
  | some (first, mid), .fence o :: l, i, hi, r => by
    simp [scan, scan_append_mem none l hi r]
  | none, .access a :: l, i, hi, r => by
    simp [scan, scan_append_mem none l hi r]
  | none, .other mem :: l, i, hi, r => by
    simp [scan, scan_append_mem none l hi r]
  | some (first, mid), .access a :: l, i, hi, r => by
    simp [scan_append_mem none l hi r]
  | some (first, mid), .other true :: l, i, hi, r => by
    simp [scan_append_mem none l hi r]
  | some (first, mid), .other false :: l, i, hi, r => by
    simp [scan, Instr.mayReadOrWriteMemory,
      scan_append_mem (some (first, mid ++ [.other false])) l hi r]

/-- The instructions of a block that may access memory. -/
def memory (code : List Instr) : List Instr :=
  code.filter Instr.mayReadOrWriteMemory

@[simp] theorem memory_nil : memory [] = [] :=
  rfl

@[simp] theorem memory_append (l r : List Instr) : memory (l ++ r) = memory l ++ memory r :=
  List.filter_append ..

@[simp] theorem memory_fence (o : AtomicOrdering) (code : List Instr) :
    memory (.fence o :: code) = memory code :=
  rfl

@[simp] theorem memory_access (a : Access) (code : List Instr) :
    memory (.access a :: code) = .access a :: memory code :=
  rfl

@[simp] theorem memory_other_true (code : List Instr) :
    memory (.other true :: code) = .other true :: memory code :=
  rfl

@[simp] theorem memory_other_false (code : List Instr) :
    memory (.other false :: code) = memory code :=
  rfl

/-- The pass keeps the instructions that may access memory, and their order. -/
theorem memory_scan : ∀ (st : Option (AtomicOrdering × List Instr)) (code : List Instr),
    memory (scan st code) = memory (held st) ++ memory code
  | st, [] => by simp [scan_nil]
  | none, .fence o :: code => by simp [scan, held, memory_scan (some (o, [])) code]
  | some (first, mid), .fence o :: code => by simp [scan, held, memory_scan none code]
  | none, .access a :: code => by simp [scan, held, memory_scan none code]
  | none, .other true :: code => by simp [scan, held, memory_scan none code]
  | none, .other false :: code => by simp [scan, held, memory_scan none code]
  | some (first, mid), .access a :: code => by
    simp [memory_scan none code, held]
  | some (first, mid), .other true :: code => by
    simp [memory_scan none code, held]
  | some (first, mid), .other false :: code => by
    simp [scan, held, Instr.mayReadOrWriteMemory,
      memory_scan (some (first, mid ++ [.other false])) code]

/-- The fence `first` stays, or a stronger one does. -/
theorem scan_some : ∀ (first : AtomicOrdering) (mid code : List Instr), memory mid = [] →
    ∃ o rest, scan (some (first, mid)) code = .fence o :: rest ∧ first ≤ o ∧
      memory rest = memory code
  | first, mid, [], hmid => ⟨first, mid, rfl, le_rfl, hmid⟩
  | first, mid, .fence o :: code, hmid =>
    ⟨first ⊔ o, mid ++ scan none code, rfl, le_sup_left, by simp [hmid, memory_scan, held]⟩
  | first, mid, .access a :: code, hmid =>
    ⟨first, mid ++ .access a :: scan none code, rfl, le_rfl, by simp [hmid, memory_scan, held]⟩
  | first, mid, .other true :: code, hmid =>
    ⟨first, mid ++ .other true :: scan none code, rfl, le_rfl, by simp [hmid, memory_scan, held]⟩
  | first, mid, .other false :: code, hmid =>
    scan_some first (mid ++ [.other false]) code (by simp [hmid])

/-- Every fence is still there, between the same instructions that may access memory, and at
least as strong. -/
theorem exists_fence_scan : ∀ (st : Option (AtomicOrdering × List Instr))
    (_ : memory (held st) = []) (l : List Instr) (o : AtomicOrdering) (r : List Instr),
    ∃ l' o' r', scan st (l ++ .fence o :: r) = l' ++ .fence o' :: r' ∧ o ≤ o' ∧
      memory l' = memory l ∧ memory r' = memory r
  | none, hst, [], o, r => by
    obtain ⟨o', rest, hscan, hle, hrest⟩ := scan_some o [] r rfl
    exact ⟨[], o', rest, hscan, hle, rfl, hrest⟩
  | some (first, mid), hst, [], o, r =>
    ⟨[], first ⊔ o, mid ++ scan none r, rfl, le_sup_right, rfl, by
      simp only [held, memory_fence] at hst
      simp [hst, memory_scan, held]⟩
  | none, hst, .fence p :: l, o, r => exists_fence_scan (some (p, [])) rfl l o r
  | some (first, mid), hst, .fence p :: l, o, r => by
    obtain ⟨l', o', r', hscan, hle, hl, hr⟩ := exists_fence_scan none rfl l o r
    simp only [held, memory_fence] at hst
    exact ⟨.fence (first.merged p) :: (mid ++ l'), o', r', by simp [scan, hscan], hle,
      by simp [hst, hl], hr⟩
  | none, hst, .access a :: l, o, r => by
    obtain ⟨l', o', r', hscan, hle, hl, hr⟩ := exists_fence_scan none rfl l o r
    exact ⟨.access a :: l', o', r', by simp [scan, hscan], hle, by simp [hl], hr⟩
  | none, hst, .other mem :: l, o, r => by
    obtain ⟨l', o', r', hscan, hle, hl, hr⟩ := exists_fence_scan none rfl l o r
    exact ⟨.other mem :: l', o', r', by simp [scan, hscan], hle, by cases mem <;> simp [hl], hr⟩
  | some (first, mid), hst, .access a :: l, o, r => by
    obtain ⟨l', o', r', hscan, hle, hl, hr⟩ := exists_fence_scan none rfl l o r
    simp only [held, memory_fence] at hst
    exact ⟨.fence first :: (mid ++ .access a :: l'), o', r',
      by simp [hscan], hle, by simp [hst, hl], hr⟩
  | some (first, mid), hst, .other true :: l, o, r => by
    obtain ⟨l', o', r', hscan, hle, hl, hr⟩ := exists_fence_scan none rfl l o r
    simp only [held, memory_fence] at hst
    exact ⟨.fence first :: (mid ++ .other true :: l'), o', r',
      by simp [hscan], hle, by simp [hst, hl], hr⟩
  | some (first, mid), hst, .other false :: l, o, r =>
    exists_fence_scan (some (first, mid ++ [.other false])) (by simpa [held] using hst) l o r

/-- An instruction that is not among the first ones is among the others. -/
theorem exists_of_append_eq {α : Type*} {x : α} : ∀ {p q l r : List α}, x ∉ p →
    p ++ q = l ++ x :: r → ∃ l', l = p ++ l' ∧ q = l' ++ x :: r
  | [], q, l, r, _, h => ⟨l, rfl, h⟩
  | y :: p, q, [], r, hx, h => absurd (List.cons.inj h).1 fun hyx => hx (hyx ▸ List.mem_cons_self)
  | y :: p, q, z :: l, r, hx, h => by
    obtain ⟨rfl, htail⟩ := List.cons.inj h
    obtain ⟨l', rfl, hq⟩ := exists_of_append_eq (fun hp => hx (List.mem_cons_of_mem _ hp)) htail
    exact ⟨l', rfl, hq⟩

theorem not_mem_of_memory_eq_nil {i : Instr} (hi : i.mayReadOrWriteMemory) {code : List Instr}
    (hcode : memory code = []) : i ∉ code := by
  intro hmem
  have h : i ∈ memory code := List.mem_filter.2 ⟨hmem, hi⟩
  rw [hcode] at h
  exact List.not_mem_nil h

/-- What stands before and after an instruction of the result that may access memory comes from
what stands before and after it in the code. -/
theorem exists_of_scan_eq : ∀ (st : Option (AtomicOrdering × List Instr))
    (_ : memory (held st) = []) (code l' : List Instr) {i : Instr} (_ : i.mayReadOrWriteMemory)
    (r' : List Instr), scan st code = l' ++ i :: r' →
    ∃ l r, code = l ++ i :: r ∧ scan st l = l' ∧ run r = r' := by
  intro st hst code
  -- on the code up to its first instruction that may access memory
  induction code generalizing st with
  | nil =>
    intro l' i hi r' h
    rw [scan_nil] at h
    exact absurd (h ▸ List.mem_append_right l' List.mem_cons_self) (not_mem_of_memory_eq_nil hi hst)
  | cons j code ih =>
    intro l' i hi r' hscan
    by_cases hj : j.mayReadOrWriteMemory
    · rw [scan_mem st hj] at hscan
      obtain ⟨l'', rfl, hrest⟩ := exists_of_append_eq (not_mem_of_memory_eq_nil hi hst) hscan
      rcases l'' with _ | ⟨k, l''⟩
      · obtain ⟨rfl, rfl⟩ := List.cons.inj hrest
        exact ⟨[], code, rfl, by rw [scan_nil, List.append_nil], rfl⟩
      · obtain ⟨rfl, htail⟩ := List.cons.inj hrest
        obtain ⟨l, r, rfl, rfl, rfl⟩ := ih none rfl l'' hi r' htail
        exact ⟨j :: l, r, rfl, scan_mem st hj l, rfl⟩
    · rcases st with _ | ⟨first, mid⟩ <;> rcases j with a | o | mem
      · exact absurd rfl hj
      · obtain ⟨l, r, rfl, hl, hr⟩ := ih (some (o, [])) rfl l' hi r' hscan
        exact ⟨.fence o :: l, r, rfl, hl, hr⟩
      · have hne : i ∉ [Instr.other mem] := fun hmem => hj (by rwa [← List.mem_singleton.1 hmem])
        obtain ⟨l'', rfl, hrest⟩ := exists_of_append_eq hne hscan
        obtain ⟨l, r, rfl, rfl, rfl⟩ := ih none rfl l'' hi r' hrest
        exact ⟨.other mem :: l, r, rfl, rfl, rfl⟩
      · exact absurd rfl hj
      · have hmid : memory (.fence (first.merged o) :: mid) = [] := hst
        obtain ⟨l'', rfl, hrest⟩ :=
          exists_of_append_eq (not_mem_of_memory_eq_nil hi hmid) hscan
        obtain ⟨l, r, rfl, rfl, rfl⟩ := ih none rfl l'' hi r' hrest
        exact ⟨.fence o :: l, r, rfl, rfl, rfl⟩
      · obtain rfl : mem = false := by simpa [Instr.mayReadOrWriteMemory] using hj
        simp only [held, memory_fence] at hst
        obtain ⟨l, r, rfl, rfl, rfl⟩ := ih (some (first, mid ++ [.other false]))
          (by simp [held, hst]) l' hi r' hscan
        exact ⟨.other false :: l, r, rfl, rfl, rfl⟩

/-! ## Lowering -/

/-- What the nodes of a block lower to, as far as memory goes. An atomic node stores the value it
read to the registers that get it, and all other nodes access no guest memory. -/
inductive Step
  | readMem
  | writeMem
  | atomic (after : List Bool)
  | other (mem : Bool)
  deriving DecidableEq

/-- `lower_node` and `materialise_port`, with the fences of `fences_`. -/
def lowerStep (fences : Bool) : Step → List Instr
  | .readMem => .access .load :: if fences then [.fence .acquire] else []
  | .writeMem => (if fences then [.fence .release] else []) ++ [.access .store]
  | .atomic after =>
    (if fences then [.fence .sequentiallyConsistent] else []) ++ .access .rmw ::
      (after.map .other ++ if fences then [.fence .sequentiallyConsistent] else [])
  | .other mem => [.other mem]

/-- The block of LLVM code of a sequence of nodes. -/
def lowerBlock (fences : Bool) (steps : List Step) : List Instr :=
  steps.flatMap (lowerStep fences)

theorem lowerBlock_cons (fences : Bool) (s : Step) (steps : List Step) :
    lowerBlock fences (s :: steps) = lowerStep fences s ++ lowerBlock fences steps :=
  List.flatMap_cons

/-- The fence before an access. -/
def before : Access → List Instr
  | .load => []
  | .store => [.fence .release]
  | .rmw => [.fence .sequentiallyConsistent]

/-- What comes after an access of one node. -/
def After (a : Access) (q : List Instr) : Prop :=
  (a = .load → q = [.fence .acquire]) ∧
    (a = .rmw → ∃ after : List Bool, q = after.map .other ++ [.fence .sequentiallyConsistent])

theorem access_not_mem_map_other (a : Access) (after : List Bool) :
    Instr.access a ∉ after.map Instr.other := by
  intro hmem
  obtain ⟨mem, -, h⟩ := List.mem_map.1 hmem
  cases h

/-- The only access of a list stands at one place. -/
theorem append_access_inj {p q p' q' : List Instr} {a a' : Access} (hp : .access a' ∉ p)
    (hq : .access a' ∉ q) (h : p ++ .access a :: q = p' ++ .access a' :: q') :
    p' = p ∧ a' = a ∧ q' = q := by
  obtain ⟨l, rfl, hrest⟩ := exists_of_append_eq hp h
  rcases l with _ | ⟨i, l⟩
  · obtain ⟨ha, rfl⟩ := List.cons.inj hrest
    exact ⟨List.append_nil p, (Instr.access.inj ha).symm, rfl⟩
  · obtain ⟨-, rfl⟩ := List.cons.inj hrest
    exact absurd (List.mem_append_right l List.mem_cons_self) hq

/-- A node has one access at most. -/
theorem lowerStep_eq_append {s : Step} {p q : List Instr} {a : Access}
    (h : lowerStep true s = p ++ .access a :: q) : p = before a ∧ After a q := by
  rcases s with _ | _ | after | mem
  · have hload : [] ++ .access .load :: [.fence .acquire] = p ++ .access a :: q := h
    obtain ⟨rfl, rfl, rfl⟩ := append_access_inj (by simp) (by simp) hload
    exact ⟨rfl, fun _ => rfl, nofun⟩
  · have hstore : [.fence .release] ++ .access .store :: [] = p ++ .access a :: q := h
    obtain ⟨rfl, rfl, rfl⟩ := append_access_inj (by simp) (by simp) hstore
    exact ⟨rfl, nofun, nofun⟩
  · have hrmw : [.fence .sequentiallyConsistent] ++ .access .rmw ::
        (after.map .other ++ [.fence .sequentiallyConsistent]) = p ++ .access a :: q := h
    obtain ⟨rfl, rfl, rfl⟩ := append_access_inj (by simp)
      (by simp [access_not_mem_map_other]) hrmw
    exact ⟨rfl, nofun, fun _ => ⟨after, rfl⟩⟩
  · have hmem : .access a ∈ lowerStep true (.other mem) := by simp [h]
    simp [lowerStep] at hmem

/-- An access of a block is the access of one of its nodes. -/
theorem exists_of_lowerBlock_eq {a : Access} {r : List Instr} : ∀ {steps : List Step}
    {l : List Instr}, lowerBlock true steps = l ++ .access a :: r →
      ∃ l' q t, l = l' ++ before a ∧ After a q ∧ r = q ++ lowerBlock true t
  | [], l, h => by simp [lowerBlock] at h
  | s :: steps, l, h => by
    rw [lowerBlock_cons] at h
    rcases List.append_eq_append_iff.1 h with ⟨p, rfl, hrest⟩ | ⟨p, hs, hrest⟩
    · obtain ⟨l', q, t, rfl, hq, hr⟩ := exists_of_lowerBlock_eq hrest
      exact ⟨lowerStep true s ++ l', q, t, (List.append_assoc ..).symm, hq, hr⟩
    · rcases p with _ | ⟨i, p⟩
      · obtain ⟨l', q, t, hl, hq, hr⟩ := exists_of_lowerBlock_eq (l := []) hrest.symm
        obtain ⟨-, hbefore⟩ := List.append_eq_nil_iff.1 hl.symm
        exact ⟨l, q, t, by rw [hbefore, List.append_nil], hq, hr⟩
      · obtain ⟨rfl, hr⟩ := List.cons.inj hrest
        obtain ⟨rfl, hq⟩ := lowerStep_eq_append hs
        exact ⟨[], p, steps, rfl, hq, hr⟩

/-- After the fence of a load, a store comes after a fence for both, or after an instruction that
may access memory and is no access of the guest. -/
theorem exists_acquireRelease_of_scan : ∀ {steps : List Step} {first : AtomicOrdering}
    {mid m l' : List Instr}, .acquire ≤ first → memory mid = [] →
      scan (some (first, mid)) (lowerBlock true steps) = m ++ .access .store :: l' →
      .other true ∉ m → ∃ o, .fence o ∈ m ∧ .acquireRelease ≤ o := by
  intro steps
  induction steps with
  | nil =>
    intro first mid m l' _ hmid hscan _
    have hheld : held (some (first, mid)) = m ++ .access .store :: l' := hscan
    have hmem : .access .store ∈ held (some (first, mid)) := by simp [hheld]
    exact absurd hmem (not_mem_of_memory_eq_nil rfl hmid)
  | cons s steps ih =>
    intro first mid m l' hfirst hmid hscan hother
    have hstore : .access .store ∉ .fence first :: mid := not_mem_of_memory_eq_nil rfl hmid
    rw [lowerBlock_cons] at hscan
    rcases s with _ | _ | after | _ | _
    · -- a load that comes first starts anew, with its own fence
      obtain ⟨m', rfl, hrest⟩ := exists_of_append_eq hstore hscan
      rcases m' with _ | ⟨i, m'⟩
      · cases hrest
      · obtain ⟨rfl, htail⟩ := List.cons.inj hrest
        obtain ⟨o, ho, hle⟩ := ih le_rfl rfl htail (by simp_all)
        exact ⟨o, by simp [ho], hle⟩
    · rcases m with _ | ⟨i, m⟩
      · cases hscan
      · obtain ⟨rfl, -⟩ := List.cons.inj hscan
        exact ⟨first ⊔ .release, List.mem_cons_self, sup_le_sup_right hfirst .release⟩
    · rcases m with _ | ⟨i, m⟩
      · cases hscan
      · obtain ⟨rfl, -⟩ := List.cons.inj hscan
        exact ⟨first ⊔ .sequentiallyConsistent, List.mem_cons_self,
          le_sup_of_le_right (by decide)⟩
    · exact ih hfirst (by simp [hmid]) hscan hother
    · obtain ⟨m', rfl, hrest⟩ := exists_of_append_eq hstore hscan
      rcases m' with _ | ⟨i, m'⟩
      · cases hrest
      · obtain ⟨rfl, -⟩ := List.cons.inj hrest
        simp at hother

/-! ## Separation -/

/-- What ends with a fence, but not before an access, ends with it after the access. -/
theorem mem_of_append_eq_fence {l m l' : List Instr} {a : Access} {o : AtomicOrdering}
    (h : l ++ .access a :: m = l' ++ [.fence o]) : .fence o ∈ m := by
  rcases List.eq_nil_or_concat' m with rfl | ⟨m, i, rfl⟩
  · cases (List.cons.inj (List.append_inj' h rfl).2).1
  · rw [← List.cons_append, ← List.append_assoc] at h
    obtain ⟨rfl, -⟩ := List.cons.inj (List.append_inj' h rfl).2
    simp

/-- Two accesses of a block have the fences between them that their kinds ask for. -/
theorem exists_fence_of_lowerBlock {steps : List Step} {l m r : List Instr} {a b : Access}
    (h : lowerBlock true steps = l ++ .access a :: (m ++ .access b :: r)) :
    (a = .load → .fence .acquire ∈ m) ∧ (b = .store → .fence .release ∈ m) ∧
      (a = .rmw ∨ b = .rmw → .fence .sequentiallyConsistent ∈ m) := by
  obtain ⟨-, q, t, -, hq, hrest⟩ := exists_of_lowerBlock_eq h
  have hassoc : lowerBlock true steps = (l ++ .access a :: m) ++ .access b :: r := by
    rw [h, List.append_assoc, List.cons_append]
  obtain ⟨l', -, -, hbefore, -, -⟩ := exists_of_lowerBlock_eq hassoc
  have hsuffix : .access b ∉ q → ∃ m', m = q ++ m' := fun hb =>
    let ⟨m', hm, _⟩ := exists_of_append_eq hb hrest.symm
    ⟨m', hm⟩
  refine ⟨?_, ?_, ?_⟩
  · intro ha
    obtain rfl := hq.1 ha
    obtain ⟨m', rfl⟩ := hsuffix (by simp)
    simp
  · rintro rfl
    exact mem_of_append_eq_fence hbefore
  · rintro (ha | rfl)
    · obtain ⟨after, rfl⟩ := hq.2 ha
      obtain ⟨m', rfl⟩ := hsuffix (by simp [access_not_mem_map_other])
      simp
    · exact mem_of_append_eq_fence hbefore

/-- An instruction that stores a register between a load and a store keeps their fences apart. -/
example : run (lowerBlock true [.readMem, .other true, .writeMem, .readMem, .writeMem]) =
    [.access .load, .fence .acquire, .other true, .fence .release, .access .store, .access .load,
      .fence .acquireRelease, .access .store] := by
  decide

end Arancini.Static
