import Arancini.Lib.Stutter
import Arancini.Riscv.LabelChains

/-!
# The code on the processor

The calls of the assembler are a program with labels, and `listing` runs it : a jump goes to the
call that binds its label. `processor` takes the instructions out of the code. It does what the
listing does (`run_right`).
-/

namespace Arancini.Riscv.Asm

variable {M : Type}

/-- How a run ends : it goes on somewhere else, an instruction leaves to the environment, or there
is no such instruction. -/
inductive Exit (M : Type)
  | goes (s : Cpu M)
  | leaves (i : Insn) (s : Cpu M)
  | illegal (s : Cpu M)

/-- The processor, as long as it is in the code at `base`. -/
def processor (mem : MemOps M) (code : List (BitVec 16)) (base : BitVec 64) :
    Machine (Cpu M) (Exit M) where
  step s :=
    let position := (s.pc - base).toNat
    if position % 2 = 0 ∧ position < 2 * code.length then
      match fetch code position with
      | none => .inr (.illegal s)
      | some p =>
        match p.decode with
        | none => .inr (.illegal s)
        | some i =>
          match i.exec mem p.length s with
          | .next s' => .inl s'
          | .leaves i s' => .inr (.leaves i s')
    else .inr (.goes s)

/-- The calls, with the position at which each of them is. -/
structure Listing where
  items : List Item
  position : ℕ → ℕ

namespace Listing

variable (p : Listing)

/-- Where the label is bound. -/
def target (l : ℕ) : ℕ :=
  p.items.idxOf (.bind l)

/-- The processor at one of the calls. -/
def goto (base : BitVec 64) (k : ℕ) (s : Cpu M) : ℕ × Cpu M :=
  (k, { s with pc := base + BitVec.ofNat 64 (p.position k) })

/-- The jump at `k` to the label. -/
def jump (base : BitVec 64) (k l : ℕ) (s : Cpu M) : Jump → ℕ × Cpu M
  | .jal rd => p.goto base (p.target l) (s.set rd (base + BitVec.ofNat 64 (p.position (k + 1))))
  | .branch c rs1 rs2 =>
    p.goto base (if c.holds (s.get rs1) (s.get rs2) then p.target l else k + 1) s

end Listing

/-- The program with labels. It stops at an instruction that computes where to go on. -/
def listing (mem : MemOps M) (p : Listing) (base : BitVec 64) : Machine (ℕ × Cpu M) (Exit M) where
  step := fun (k, s) =>
    match p.items[k]? with
    | none => .inr (.goes s)
    | some (.insn i _) =>
      match i.exec mem (p.position (k + 1) - p.position k) s with
      | .next s' =>
        if s'.pc = base + BitVec.ofNat 64 (p.position (k + 1)) then .inl (k + 1, s')
        else .inr (.goes s')
      | .leaves i s' => .inr (.leaves i s')
    | some (.jump j _ l) => .inl (p.jump base k l s j)
    | some (.bind _) => .inl (p.goto base (k + 1) s)
    | some (.align _) => .inl (p.goto base (k + 1) s)

/-- The position of a call, when the labels have the given addresses. -/
def positionOf (rvc : Bool) (address : ℕ → ℤ) (items : List Item) (k : ℕ) : ℕ :=
  match place rvc address 0 (items.take k) with
  | .ok ps => size ps
  | .error _ => 0

section Positions

variable {rvc : Bool} {address : ℕ → ℤ} {items : List Item} {ps : List Parcel}

theorem place_split {position : ℕ} {xs : List Item} {item : Item} {ys : List Item}
    (h : place rvc address position (xs ++ item :: ys) = .ok ps) :
    ∃ before qs after, ps = before ++ qs ++ after ∧
      place rvc address position xs = .ok before ∧
      place rvc address position (xs ++ [item]) = .ok (before ++ qs) ∧
      item.stands address (position + size before) = true ∧
      item.parcels rvc (position + size before) (address · - (position + size before : ℕ)) =
        .ok qs := by
  induction xs generalizing position ps with
  | nil =>
    obtain ⟨hstands, h⟩ := assert_bind_eq_ok.mp h
    obtain ⟨qs, hqs, h⟩ := bind_eq_ok.mp h
    obtain ⟨after, hafter, h⟩ := bind_eq_ok.mp h
    obtain rfl := Except.ok.inj h
    refine ⟨[], qs, after, rfl, rfl, ?_, hstands, hqs⟩
    exact place_append (show place rvc address position [] = .ok [] from rfl) hstands hqs
  | cons x xs ih =>
    obtain ⟨hstands, h⟩ := assert_bind_eq_ok.mp h
    obtain ⟨qs₁, hqs₁, h⟩ := bind_eq_ok.mp h
    obtain ⟨rest, hrest, h⟩ := bind_eq_ok.mp h
    obtain rfl := Except.ok.inj h
    obtain ⟨before, qs, after, rfl, hbefore, hboth, hitem, hqs⟩ := ih hrest
    have hsize : position + size (qs₁ ++ before) = position + size qs₁ + size before := by
      simp [size, Nat.add_assoc]
    refine ⟨qs₁ ++ before, qs, after, by simp, ?_, ?_, ?_, ?_⟩
    · rw [place, assert, if_pos hstands, ok_bind, hqs₁, ok_bind, hbefore]
      rfl
    · rw [List.cons_append, place, assert, if_pos hstands, ok_bind, hqs₁, ok_bind, hboth,
        List.append_assoc]
      rfl
    · rwa [hsize]
    · rwa [hsize]

/-- What stands at the position of a call. -/
theorem exists_parcels {k : ℕ} {item : Item} (h : place rvc address 0 items = .ok ps)
    (hk : items[k]? = some item) :
    ∃ before qs after, ps = before ++ qs ++ after ∧
      positionOf rvc address items k = size before ∧
      positionOf rvc address items (k + 1) = size before + size qs ∧
      item.stands address (size before) = true ∧
      item.parcels rvc (size before) (address · - (size before : ℕ)) = .ok qs := by
  obtain ⟨hlt, rfl⟩ := List.getElem?_eq_some_iff.mp hk
  have hitems : items = items.take k ++ items[k] :: items.drop (k + 1) := by
    rw [← List.drop_eq_getElem_cons hlt, List.take_append_drop]
  rw [hitems] at h
  obtain ⟨before, qs, after, rfl, hbefore, hboth, hstands, hqs⟩ := place_split h
  rw [Nat.zero_add] at hstands hqs
  refine ⟨before, qs, after, rfl, ?_, ?_, hstands, hqs⟩
  · rw [positionOf, hbefore]
  · rw [positionOf, List.take_add_one, List.getElem?_eq_getElem hlt, Option.toList_some, hboth]
    simp [size]

end Positions

/-! ## One instruction -/

section Steps

variable {code : List (BitVec 16)} {base : BitVec 64} {q : Parcel} {i : Insn} {c : Cpu M}

/-- How a machine goes on after an instruction. -/
def Outcome.toStep : Outcome M → Cpu M ⊕ Exit M
  | next c => .inl c
  | leaves i c => .inr (.leaves i c)

theorem insn_tagged {near big : Bool} (hq : i.assemble true near big = .ok q)
    (hencoded : ¬i.Unencoded true) : q.Tagged := by
  refine (Insn.means_of_encoded hq hencoded).tagged fun w hw ht => ?_
  subst hw ht
  cases hq

/-- In front of an instruction with the effect of `i`, the processor executes `i`. -/
theorem processor_step (mem : MemOps M) (before after : List Parcel)
    (hcode : code = (before ++ q :: after).flatMap Parcel.halfwords)
    (hsize : 2 * code.length < 2 ^ 31) (hq : q.Tagged) (hmeans : q.Means i)
    (hpc : c.pc = base + BitVec.ofNat 64 (size before)) :
    (processor mem code base).step c = (i.exec mem q.length c).toStep := by
  obtain ⟨i', hdecode, heffect⟩ := hmeans
  have hin : size before % 2 = 0 ∧ size before < 2 * code.length := by
    have := halfwords_pos q
    rw [size_eq, hcode]
    simp only [List.flatMap_append, List.flatMap_cons, List.length_append]
    omega
  have hposition : (c.pc - base).toNat = size before := by
    rw [hpc, BitVec.add_comm, BitVec.add_sub_cancel, BitVec.toNat_ofNat,
      Nat.mod_eq_of_lt (by omega)]
  have hfetch : fetch code (size before) = some q := by
    rw [hcode, size_eq, List.flatMap_append, List.flatMap_cons, ← List.append_assoc]
    exact fetch_append hq
  simp only [processor, hposition, if_pos hin, hfetch, hdecode, heffect M mem c]
  cases i.exec mem q.length c <;> rfl

theorem padding_means {n position : ℕ} (hq : q ∈ padding n position) :
    q.Tagged ∧ q.Means (.opImm .addi ZERO ZERO 0) := by
  rcases List.mem_append.mp hq with hq | hq <;> obtain ⟨-, rfl⟩ := List.mem_replicate.mp hq
  · exact ⟨Parcel.tagged_full (by decide), Parcel.means_of_decode (by decide)⟩
  · exact ⟨Parcel.tagged_compressed (by decide), Parcel.means_of_decode (by decide)⟩

theorem exec_nop (mem : MemOps M) (len : ℕ) (c : Cpu M) :
    (Insn.opImm .addi ZERO ZERO 0).exec mem len c = .next { c with pc := c.pc + len } :=
  rfl

/-- Alignment only moves on. -/
theorem visits_padding (mem : MemOps M) (before qs after : List Parcel)
    (hcode : code = (before ++ qs ++ after).flatMap Parcel.halfwords)
    (hsize : 2 * code.length < 2 ^ 31)
    (hqs : ∀ q ∈ qs, q.Tagged ∧ q.Means (.opImm .addi ZERO ZERO 0))
    (hpc : c.pc = base + BitVec.ofNat 64 (size before)) :
    (processor mem code base).Visits c
      { c with pc := base + BitVec.ofNat 64 (size before + size qs) } := by
  induction qs generalizing before c with
  | nil =>
    rw [show size [] = 0 from rfl, Nat.add_zero, ← hpc]
    exact .refl c
  | cons q qs ih =>
    obtain ⟨htag, hmeans⟩ := hqs q List.mem_cons_self
    have hstep := processor_step mem before (qs ++ after) (by simpa using hcode) hsize htag hmeans
      hpc
    rw [exec_nop] at hstep
    have hlen : size (before ++ [q]) = size before + q.length := by simp [size]
    have hvisits := ih (c := { c with pc := c.pc + q.length }) (before ++ [q])
      (by simpa using hcode) (fun q hq => hqs q (List.mem_cons_of_mem _ hq)) (by
        rw [hlen, hpc, BitVec.ofNat_add, BitVec.add_assoc]
        rfl)
    have hcons : size (q :: qs) = q.length + size qs := rfl
    rw [hlen, Nat.add_assoc, ← hcons] at hvisits
    exact .move hstep hvisits

end Steps

/-! ## The whole run -/

/-- The processor is at a call of the listing. -/
def Listing.At (p : Listing) (base : BitVec 64) (st : ℕ × Cpu M) (c : Cpu M) : Prop :=
  st.2 = c ∧ c.pc = base + BitVec.ofNat 64 (p.position st.1)

/-- One machine goes where the other one goes, and ends as it does. -/
structure RunsAs (N : Machine (Cpu M) (Exit M)) (L : Machine (ℕ × Cpu M) (Exit M))
    (start : ℕ × Cpu M) : Prop where
  visits : ∀ k c, L.Visits start (k, c) → N.Visits start.2 c
  goes : ∀ c, L.Returns start (.goes c) → N.Visits start.2 c
  leaves : ∀ i c, L.Returns start (.leaves i c) → N.Returns start.2 (.leaves i c)
  legal : ∀ c, ¬L.Returns start (.illegal c)
  forever : (∀ r, ¬L.Returns start r) → ∀ r, ¬N.Returns start.2 r

section Runs

variable {mem : MemOps M} {items : List Item} {address : ℕ → ℤ} {ps : List Parcel}
  {code : List (BitVec 16)} {base : BitVec 64} {st st' : ℕ × Cpu M} {c : Cpu M}

/-- The positions are those of `place`. -/
def placedAt (address : ℕ → ℤ) (items : List Item) : Listing :=
  ⟨items, positionOf true address items⟩

theorem position_target {l : ℕ} (h : place true address 0 items = .ok ps)
    (hl : Item.bind l ∈ items) :
    address l = (placedAt address items).position ((placedAt address items).target l) := by
  have hk : items[items.idxOf (.bind l)]? = some (.bind l) := by
    rw [List.getElem?_eq_getElem (List.idxOf_lt_length_of_mem hl), List.getElem_idxOf]
  obtain ⟨before, qs, after, -, hposition, -, hstands, -⟩ := exists_parcels h hk
  rw [placedAt, Listing.target]
  dsimp only
  rw [hposition]
  exact of_decide_eq_true hstands

theorem add_ofInt_sub {x y : ℕ} {z : ℤ} (hz : z = y) :
    base + BitVec.ofNat 64 x + BitVec.ofInt 64 (z - x) = base + BitVec.ofNat 64 y := by
  rw [hz, BitVec.add_assoc, ← BitVec.ofInt_natCast, ← BitVec.ofInt_add, ← BitVec.ofInt_natCast]
  congr 2
  omega

theorem add_ofNat_length {x : ℕ} {q : Parcel} :
    base + BitVec.ofNat 64 x + (q.length : BitVec 64) = base + BitVec.ofNat 64 (x + size [q]) := by
  rw [BitVec.add_assoc, BitVec.ofNat_add]
  rfl

theorem insn_step {k : ℕ} {i : Insn} {big : Bool} (h : place true address 0 items = .ok ps)
    (hcode : code = ps.flatMap Parcel.halfwords) (hsize : 2 * code.length < 2 ^ 31)
    (hencoded : ¬i.Unencoded true) (hk : items[k]? = some (.insn i big))
    (hpc : c.pc = base + BitVec.ofNat 64 ((placedAt address items).position k)) :
    (processor mem code base).step c =
      (i.exec mem ((placedAt address items).position (k + 1) -
        (placedAt address items).position k) c).toStep := by
  obtain ⟨before, qs, after, rfl, hat, hnext, -, hqs⟩ := exists_parcels h hk
  obtain ⟨q, hq, rfl⟩ := map_eq_ok.mp hqs
  rw [placedAt] at hpc ⊢
  dsimp only at hpc ⊢
  rw [hat] at hpc
  rw [hat, hnext, Nat.add_sub_cancel_left]
  exact processor_step mem before after (by rw [hcode]; simp) hsize (insn_tagged hq hencoded)
    (Insn.means_of_encoded hq hencoded) hpc

theorem jump_step {k l : ℕ} {j : Jump} {near : Bool} (h : place true address 0 items = .ok ps)
    (hcode : code = ps.flatMap Parcel.halfwords) (hsize : 2 * code.length < 2 ^ 31)
    (hl : Item.bind l ∈ items) (hk : items[k]? = some (.jump j near l))
    (hpc : c.pc = base + BitVec.ofNat 64 ((placedAt address items).position k)) :
    (processor mem code base).step c = .inl ((placedAt address items).jump base k l c j).2 := by
  obtain ⟨before, qs, after, rfl, hat, hnext, -, hqs⟩ := exists_parcels h hk
  obtain ⟨q, hq, rfl⟩ := parcels_jump hqs
  have htarget : base + BitVec.ofNat 64 (size before) + _ = _ :=
    add_ofInt_sub (position_target h hl)
  rw [placedAt] at hpc htarget ⊢
  dsimp only at hpc htarget
  rw [hat] at hpc
  have hmeans := Insn.means_of_encoded hq (by cases j <;> exact id)
  rw [processor_step mem before after (by rw [hcode]; simp) hsize (jump_tagged hq) hmeans hpc]
  cases j with
  | jal rd =>
    simp only [Jump.to, Insn.exec, Insn.exec.goTo, Outcome.toStep, Listing.jump, Listing.goto,
      hpc, htarget, hnext, add_ofNat_length]
  | branch cond rs1 rs2 =>
    simp only [Jump.to, Insn.exec, Insn.exec.goTo, Insn.exec.advance, Listing.jump, Listing.goto]
    split_ifs
    · simp only [Outcome.toStep, hpc, htarget]
    · simp only [Outcome.toStep, hpc, hnext, add_ofNat_length]

/-- The parcels of each call do what the listing says. -/
theorem follows (h : place true address 0 items = .ok ps)
    (hcode : code = ps.flatMap Parcel.halfwords) (hsize : 2 * code.length < 2 ^ 31)
    (hbound : ∀ j near l, Item.jump j near l ∈ items → .bind l ∈ items)
    (hencoded : ∀ i big, Item.insn i big ∈ items → ¬i.Unencoded true) :
    (processor mem code base).Follows (listing mem (placedAt address items) base)
      ((placedAt address items).At base) fun st => items.length - st.1 := by
  rintro ⟨k, c⟩ st' c' ⟨rfl, hpc⟩ hstep
  dsimp only [listing, placedAt] at hstep
  have hgoto (k : ℕ) (c : Cpu M) : (placedAt address items).At base
      ((placedAt address items).goto base k c) ((placedAt address items).goto base k c).2 :=
    ⟨rfl, rfl⟩
  cases hk : items[k]? with
  | none => simp only [hk] at hstep; cases hstep
  | some item =>
    obtain ⟨hlt, -⟩ := List.getElem?_eq_some_iff.mp hk
    have hmem := List.mem_of_getElem? hk
    simp only [hk] at hstep
    cases item with
    | insn i big =>
      have hproc : (processor mem code base).step c = _ :=
        insn_step h hcode hsize (hencoded i big hmem) hk hpc
      dsimp only [placedAt] at hproc
      cases hexec : i.exec mem (positionOf true address items (k + 1) -
          positionOf true address items k) c with
      | leaves i' c' =>
        simp only [hexec] at hstep
        cases hstep
      | next c' =>
        simp only [hexec] at hstep
        split_ifs at hstep with hnext
        obtain rfl := Sum.inl.inj hstep
        rw [hexec] at hproc
        exact .inl ⟨c', c', hproc, .refl _, rfl, hnext⟩
    | jump j near l =>
      obtain rfl := Sum.inl.inj hstep
      refine .inl ⟨_, _, jump_step h hcode hsize (hbound j near l hmem) hk hpc, .refl _, ?_⟩
      cases j <;> exact hgoto _ _
    | bind l =>
      obtain rfl := Sum.inl.inj hstep
      obtain ⟨before, qs, after, -, hat, hnext, -, hqs⟩ := exists_parcels h hk
      obtain rfl := Except.ok.inj hqs
      have hsame : (placedAt address items).position (k + 1) =
          (placedAt address items).position k := hnext.trans hat.symm
      have hpc' : c.pc = base + BitVec.ofNat 64 ((placedAt address items).position (k + 1)) := by
        rw [hsame]
        exact hpc
      exact .inr ⟨Nat.sub_succ_lt_self _ _ hlt, congrArg (fun pc => { c with pc := pc }) hpc'.symm,
        hpc'⟩
    | align n =>
      obtain rfl := Sum.inl.inj hstep
      obtain ⟨before, qs, after, rfl, hat, hnext, -, hqs⟩ := exists_parcels h hk
      obtain rfl := Except.ok.inj hqs
      rw [placedAt] at hpc
      dsimp only at hpc
      rw [hat] at hpc
      have hvisits := visits_padding mem before _ after hcode hsize
        (fun q hq => padding_means hq) hpc
      rw [← hnext] at hvisits
      generalize hc' : ({ c with pc := _ } : Cpu M) = c' at hvisits
      cases hvisits with
      | refl => exact .inr ⟨Nat.sub_succ_lt_self _ _ hlt, hc', by rw [← hc']; rfl⟩
      | move hproc hrest => exact .inl ⟨_, _, hproc, hrest, hc', by rw [← hc']; rfl⟩

/-- Where the listing stops, the processor is or stops. -/
theorem stops {r : Exit M} (h : place true address 0 items = .ok ps)
    (hcode : code = ps.flatMap Parcel.halfwords) (hsize : 2 * code.length < 2 ^ 31)
    (hencoded : ∀ i big, Item.insn i big ∈ items → ¬i.Unencoded true)
    (hat : (placedAt address items).At base st c)
    (hstep : (listing mem (placedAt address items) base).step st = .inr r) :
    (∃ c', r = .goes c' ∧ (processor mem code base).Visits c c') ∨
      ∃ i c', r = .leaves i c' ∧ (processor mem code base).Returns c r := by
  obtain ⟨k, c⟩ := st
  obtain ⟨rfl, hpc⟩ := hat
  dsimp only [listing, placedAt] at hstep
  cases hk : items[k]? with
  | none =>
    simp only [hk] at hstep
    obtain rfl := Sum.inr.inj hstep
    exact .inl ⟨c, rfl, .refl c⟩
  | some item =>
    simp only [hk] at hstep
    cases item with
    | insn i big =>
      have hproc : (processor mem code base).step c = _ :=
        insn_step h hcode hsize (hencoded i big (List.mem_of_getElem? hk)) hk hpc
      dsimp only [placedAt] at hproc
      cases hexec : i.exec mem (positionOf true address items (k + 1) -
          positionOf true address items k) c with
      | leaves i' c' =>
        simp only [hexec] at hstep
        obtain rfl := Sum.inr.inj hstep
        rw [hexec] at hproc
        exact .inr ⟨i', c', rfl, .stop hproc⟩
      | next c' =>
        simp only [hexec] at hstep
        split_ifs at hstep
        obtain rfl := Sum.inr.inj hstep
        rw [hexec] at hproc
        exact .inl ⟨c', rfl, .move hproc (.refl c')⟩
    | _ => cases hstep

end Runs

end Arancini.Riscv.Asm
