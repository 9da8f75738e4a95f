import Arancini.Riscv.CodeLabels

/-!
# The chains of branches to a label

`place` is an assembler that is told the addresses of the labels, and each branch has the distance
to its label. The code of `assemble` is compared with it. Before a label is bound, the offsets of
its branches are the chain (`Chained`), and afterwards the distances. `Threaded` says so for all
labels at once, and each call of the assembler keeps it.
-/

namespace Arancini.Riscv.Asm

/-! ## Placement at known addresses -/

/-- The bytes of a list of instructions. -/
def size (ps : List Parcel) : ℕ :=
  (ps.map Parcel.length).sum

/-- The instructions for one call at a position, with an offset for each label. -/
def Item.parcels (rvc : Bool) (position : ℕ) (offset : ℕ → ℤ) : Item → Except String (List Parcel)
  | insn i big => ([·]) <$> i.assemble rvc i.reaches big
  | jump j near l => ([·]) <$> (j.to (offset l)).assemble rvc near false
  | bind _ => .ok []
  | align n => .ok (padding n position)

/-- A label that is bound here has this address. -/
def Item.stands (address : ℕ → ℤ) (position : ℕ) : Item → Bool
  | bind l => address l == position
  | _ => true

/-- The code when the labels have the given addresses. -/
def place (rvc : Bool) (address : ℕ → ℤ) : ℕ → List Item → Except String (List Parcel)
  | _, [] => .ok []
  | position, item :: items => do
    assert (item.stands address position) "the label has this address"
    let ps ← item.parcels rvc position (address · - position)
    let rest ← place rvc address (position + size ps) items
    return ps ++ rest

/-! ## Halfwords -/

namespace Parcel

/-- The low bits tell how long it is. -/
def Tagged (p : Parcel) : Prop :=
  ∀ low ∈ p.halfwords.head?, isCInstruction low = (p.length == 2)

theorem length_halfwords (p : Parcel) : 2 * p.halfwords.length = p.length := by
  cases p <;> rfl

theorem isCInstruction_eq (h : BitVec 16) : isCInstruction h = (part 0 2 h != 3) := by
  have hand : h &&& 3 = (part 0 2 h).setWidth 16 := by
    refine BitVec.eq_of_getLsbD_eq fun i hi => ?_
    simp only [part]
    interval_cases i <;> simp
  rw [isCInstruction, hand]
  generalize part 0 2 h = x
  revert x
  decide

theorem tagged_full {w : BitVec 32} (h : part 0 2 w = 3) : (full w).Tagged := by
  rintro low ⟨⟩
  rw [isCInstruction_eq, part_part (by decide), h]
  rfl

theorem tagged_compressed {h : BitVec 16} (hne : part 0 2 h ≠ 3) : (compressed h).Tagged := by
  rintro low ⟨⟩
  rw [isCInstruction_eq, bne_iff_ne.mpr hne]
  rfl

end Parcel

theorem fetch_append {a b : List (BitVec 16)} {p : Parcel} (h : p.Tagged) :
    fetch (a ++ p.halfwords ++ b) (2 * a.length) = some p := by
  cases p with
  | compressed w =>
    have hc : isCInstruction w = true := h w rfl
    simp [fetch, Parcel.halfwords, hc]
  | full w =>
    have hc : isCInstruction (part 0 16 w) = false := h _ rfl
    have hw : part 16 16 w ++ part 0 16 w = w := by
      refine BitVec.eq_of_getLsbD_eq fun i hi => ?_
      simp only [part, BitVec.getLsbD_append, BitVec.getLsbD_setWidth, BitVec.getLsbD_ushiftRight]
      by_cases hlow : i < 16
      · simp [hlow]
      · simp [hlow, show i - 16 < 16 by omega, show 16 + (i - 16) = i by omega]
    simp [fetch, Parcel.halfwords, hc, hw]

theorem write_append {a b : List (BitVec 16)} {p p' : Parcel} (h : p.length = p'.length) :
    write (a ++ p.halfwords ++ b) (2 * a.length) p' = a ++ p'.halfwords ++ b := by
  have hlen : (2 * a.length + p'.length) / 2 = (a ++ p.halfwords).length := by
    have := p.length_halfwords
    rw [List.length_append]
    omega
  rw [write, hlen, Nat.mul_div_cancel_left _ two_pos, List.drop_left, List.append_assoc a,
    List.take_left]

theorem Opcode.part_of_ofCode {b : BitVec 7} {o : Opcode} (h : Opcode.ofCode b = some o) :
    part 0 2 b = 3 := by
  have hcode : o.code = b := by simpa using List.find?_some h
  rw [← hcode]
  cases o <;> decide

theorem tagged_of_decodeFull {w : BitVec 32} {i : Insn} (h : decodeFull w = some i) (hw : w ≠ 0) :
    (Parcel.full w).Tagged := by
  refine Parcel.tagged_full ?_
  cases ho : Opcode.ofCode (part 0 7 w) with
  | none =>
    simp only [decodeFull, ho] at h
    rw [if_neg hw] at h
    cases h
  | some o => rw [← part_part (k := 7) (by decide), Opcode.part_of_ofCode ho]

theorem tagged_of_decodeCompressed {h : BitVec 16} {i : Insn} (hi : decodeCompressed h = some i) :
    (Parcel.compressed h).Tagged := by
  refine Parcel.tagged_compressed fun hthree => ?_
  unfold decodeCompressed at hi
  rw [hthree] at hi
  split at hi <;> simp_all

/-- Memory that reads as zero. -/
def MemOps.zero : MemOps Unit :=
  ⟨fun _ _ _ => 0, fun _ _ _ _ => (), fun _ _ _ _ _ _ => (0, ())⟩

theorem Insn.eq_trap_of_sameEffect {len : ℕ} {i : Insn} (h : SameEffect len .trap i) :
    i = .trap := by
  have hexec := h Unit .zero ⟨fun _ => 0, 0, ()⟩
  cases i with
  | branch c rs1 rs2 offset =>
    rw [exec, exec] at hexec
    split_ifs at hexec <;> cases hexec
  | trap => rfl
  | _ => cases hexec

/-- An instruction of 32 bits is not the trap of 16 bits. -/
theorem Parcel.Means.tagged {p : Parcel} {i : Insn} (h : p.Means i)
    (hp : ∀ w, p = .full w → i ≠ .trap) : p.Tagged := by
  obtain ⟨i', hdecode, heffect⟩ := h
  cases p with
  | full w =>
    refine tagged_of_decodeFull hdecode ?_
    rintro rfl
    obtain rfl := Option.some.inj hdecode
    exact hp _ rfl (Insn.eq_trap_of_sameEffect heffect)
  | compressed w => exact tagged_of_decodeCompressed hdecode

/-! ## Jumps -/

section Jump

variable {rvc near : Bool} {j : Jump} {offset offset' : ℤ} {p p' : Parcel}

theorem jump_tagged (h : (j.to offset).assemble rvc near false = .ok p) : p.Tagged :=
  (Insn.means_of_encoded h (by cases j <;> exact id)).tagged fun _ _ ht => by
    cases j <;> cases ht

theorem jump_length (h : (j.to offset).assemble rvc near false = .ok p)
    (h' : (j.to offset').assemble rvc near false = .ok p') : p.length = p'.length := by
  have hlen {n : ℕ} {x y : Except String (BitVec n)} {f : BitVec n → Parcel}
      (hf : ∀ a b, (f a).length = (f b).length) (hx : f <$> x = .ok p) (hy : f <$> y = .ok p') :
      p.length = p'.length := by
    obtain ⟨a, -, rfl⟩ := map_eq_ok.mp hx
    obtain ⟨b, -, rfl⟩ := map_eq_ok.mp hy
    exact hf a b
  have hfull {x y : Except String (BitVec 32)} (hx : Parcel.full <$> x = .ok p)
      (hy : Parcel.full <$> y = .ok p') : p.length = p'.length := hlen (fun _ _ => rfl) hx hy
  have hshort {x y : Except String (BitVec 16)} (hx : Parcel.compressed <$> x = .ok p)
      (hy : Parcel.compressed <$> y = .ok p') : p.length = p'.length := hlen (fun _ _ => rfl) hx hy
  have hzero {base : BitVec 16} {c : Cond} {rs1 rs2 : Register}
      (hx : branchZero rvc near base c rs1 rs2 offset = .ok p)
      (hy : branchZero rvc near base c rs1 rs2 offset' = .ok p') : p.length = p'.length := by
    unfold branchZero at hx hy
    split_ifs at hx hy
    · exact hshort hx hy
    · exact hshort hx hy
    · exact hfull hx hy
  cases j with
  | jal rd =>
    simp only [Jump.to, Insn.assemble, jal] at h h'
    split_ifs at h h'
    · exact hshort h h'
    · exact hfull h h'
  | branch c rs1 rs2 =>
    cases c with
    | beq => exact hzero h h'
    | bne => exact hzero h h'
    | _ => exact hfull h h'

end Jump

/-! ## Code with an offset for each branch -/

/-- The code of the calls, the latest first, with the offset `disp position` for a branch. -/
inductive Laid (rvc : Bool) (disp : ℕ → ℤ) : List (ℕ × Item) → List (BitVec 16) → Prop
  | nil : Laid rvc disp [] []
  | cons {trace : List (ℕ × Item)} {code : List (BitVec 16)} {item : Item} {ps : List Parcel}
      (laid : Laid rvc disp trace code)
      (parcels : item.parcels rvc (2 * code.length) (fun _ => disp (2 * code.length)) = .ok ps) :
      Laid rvc disp ((2 * code.length, item) :: trace) (code ++ ps.flatMap Parcel.halfwords)

/-- The positions of the branches to a label, the latest first. -/
def sites (l : ℕ) : List (ℕ × Item) → List ℕ
  | [] => []
  | (position, .jump _ _ l') :: trace => if l' = l then position :: sites l trace else sites l trace
  | _ :: trace => sites l trace

/-- From the number in a label, the offsets lead from one branch to the one before. -/
def Chained (disp : ℕ → ℤ) : List ℕ → ℤ → Prop
  | [], q => q = 0
  | position :: positions, q => q = position + 8 ∧ Chained disp positions (disp position)

section Laid

variable {rvc : Bool} {disp disp' : ℕ → ℤ} {trace : List (ℕ × Item)} {code : List (BitVec 16)}
  {l position : ℕ}

theorem sites_jump (j : Jump) (near : Bool) (l' : ℕ) :
    sites l ((position, .jump j near l') :: trace) =
      if l' = l then position :: sites l trace else sites l trace :=
  rfl

theorem mem_sites :
    position ∈ sites l trace ↔ ∃ j near, (position, Item.jump j near l) ∈ trace := by
  induction trace with
  | nil => simp [sites]
  | cons x trace ih =>
    obtain ⟨position', item⟩ := x
    cases item with
    | jump j near l' =>
      by_cases hl : l' = l
      · subst hl
        simp [sites, ih, exists_or]
      · simp [sites, ih, hl, Ne.symm hl]
    | _ => simp [sites, ih]

theorem parcels_jump {j : Jump} {near : Bool} {offset : ℕ → ℤ} {ps : List Parcel}
    (h : (Item.jump j near l).parcels rvc position offset = .ok ps) :
    ∃ p, (j.to (offset l)).assemble rvc near false = .ok p ∧ ps = [p] := by
  obtain ⟨p, hp, rfl⟩ := map_eq_ok.mp h
  exact ⟨p, hp, rfl⟩

theorem halfwords_pos (p : Parcel) : 0 < p.halfwords.length := by
  cases p <;> exact Nat.succ_pos _

theorem Laid.lt_of_mem_sites (h : Laid rvc disp trace code) (hs : position ∈ sites l trace) :
    position < 2 * code.length := by
  induction h with
  | nil => cases hs
  | @cons trace code item ps laid parcels ih =>
    rw [List.length_append]
    cases item with
    | jump j near l' =>
      obtain ⟨p, -, rfl⟩ := parcels_jump parcels
      have hpos := halfwords_pos p
      simp only [List.flatMap_cons, List.flatMap_nil, List.append_nil]
      rw [sites_jump] at hs
      split_ifs at hs
      · rcases List.mem_cons.mp hs with rfl | hs
        · omega
        · have := ih hs
          omega
      · have := ih hs
        omega
    | _ =>
      have := ih hs
      omega

theorem Laid.length_sites (h : Laid rvc disp trace code) (l : ℕ) :
    (sites l trace).length ≤ code.length := by
  induction h with
  | nil => exact le_rfl
  | @cons trace code item ps laid parcels ih =>
    rw [List.length_append]
    cases item with
    | jump j near l' =>
      obtain ⟨p, -, rfl⟩ := parcels_jump parcels
      have hpos := halfwords_pos p
      simp only [List.flatMap_cons, List.flatMap_nil, List.append_nil]
      rw [sites_jump]
      split_ifs
      · rw [List.length_cons]
        omega
      · omega
    | _ => exact ih.trans (Nat.le_add_right _ _)

/-- The branches to a label stand one behind the other. -/
theorem Laid.sorted_sites (h : Laid rvc disp trace code) (l : ℕ) :
    (sites l trace).Pairwise fun a b => b < a := by
  induction h with
  | nil => exact .nil
  | @cons trace code item ps laid parcels ih =>
    cases item with
    | jump j near l' =>
      rw [sites_jump]
      split_ifs
      · exact .cons (fun _ => laid.lt_of_mem_sites) ih
      · exact ih
    | _ => exact ih

/-- Only the offsets of the branches matter. -/
theorem Laid.congr (h : Laid rvc disp trace code)
    (heq : ∀ l, ∀ position ∈ sites l trace, disp' position = disp position) :
    Laid rvc disp' trace code := by
  induction h with
  | nil => exact .nil
  | @cons trace code item ps laid parcels ih =>
    have hrest := ih fun l position hs => heq l position <| by
      rw [mem_sites] at hs ⊢
      exact hs.imp fun j => Exists.imp fun near => List.mem_cons_of_mem _
    refine .cons hrest ?_
    cases item with
    | jump j near l' =>
      rwa [heq l' _ (mem_sites.mpr ⟨j, near, List.mem_cons_self⟩)]
    | _ => exact parcels

theorem Laid.update (h : Laid rvc disp trace code) (hp : 2 * code.length ≤ position) (d : ℤ) :
    Laid rvc (Function.update disp position d) trace code :=
  h.congr fun _ _ hs => Function.update_of_ne (by have := h.lt_of_mem_sites hs; omega) _ _

theorem Laid.eq_of_mem_sites {l' : ℕ} (h : Laid rvc disp trace code)
    (hl : position ∈ sites l trace) (hl' : position ∈ sites l' trace) : l' = l := by
  obtain ⟨j, near, hm⟩ := mem_sites.mp hl
  obtain ⟨j', near', hm'⟩ := mem_sites.mp hl'
  induction h with
  | nil => cases hm
  | @cons trace code item ps laid parcels ih =>
    have hlt {l : ℕ} {j : Jump} {near : Bool} (hm : (position, Item.jump j near l) ∈ trace) :
        position < 2 * code.length := laid.lt_of_mem_sites (mem_sites.mpr ⟨j, near, hm⟩)
    rcases List.mem_cons.mp hm with he | hm <;> rcases List.mem_cons.mp hm' with he' | hm'
    · cases he
      cases he'
      rfl
    · obtain ⟨rfl, -⟩ := Prod.mk.inj he
      exact absurd (hlt hm') (lt_irrefl _)
    · obtain ⟨rfl, -⟩ := Prod.mk.inj he'
      exact absurd (hlt hm) (lt_irrefl _)
    · exact ih (mem_sites.mpr ⟨j, near, hm⟩) (mem_sites.mpr ⟨j', near', hm'⟩) hm hm'

/-- A branch is added, with any offset. -/
theorem Laid.cons_jump {d : ℤ} {j : Jump} {near : Bool} {p : Parcel} (h : Laid rvc disp trace code)
    (hp : (j.to d).assemble rvc near false = .ok p) :
    Laid rvc (Function.update disp (2 * code.length) d)
      ((2 * code.length, .jump j near l) :: trace) (code ++ p.halfwords) := by
  have hps : (Item.jump j near l).parcels rvc (2 * code.length)
      (fun _ => Function.update disp (2 * code.length) d (2 * code.length)) = .ok [p] := by
    rw [Function.update_self, Item.parcels, hp]
    rfl
  have hcons := Laid.cons (h.update le_rfl d) hps
  rwa [List.flatMap_singleton] at hcons

/-- A branch can be replaced by the one with another offset. -/
theorem Laid.split (h : Laid rvc disp trace code) (hs : position ∈ sites l trace) :
    ∃ (a b : List (BitVec 16)) (p : Parcel) (j : Jump) (near : Bool),
      code = a ++ p.halfwords ++ b ∧ 2 * a.length = position ∧
      (j.to (disp position)).assemble rvc near false = .ok p ∧
      ∀ d p', (j.to d).assemble rvc near false = .ok p' →
        Laid rvc (Function.update disp position d) trace (a ++ p'.halfwords ++ b) := by
  induction h with
  | nil => cases hs
  | @cons trace code item ps laid parcels ih =>
    by_cases hrest : position ∈ sites l trace
    · obtain ⟨a, b, p, j, near, rfl, hlen, hp, hnew⟩ := ih hrest
      refine ⟨a, b ++ ps.flatMap Parcel.halfwords, p, j, near, by simp, hlen, hp, ?_⟩
      intro d p' hp'
      have hlt := laid.lt_of_mem_sites hrest
      have hsame : (a ++ p.halfwords ++ b).length = (a ++ p'.halfwords ++ b).length := by
        have := jump_length hp hp'
        have := p.length_halfwords
        have := p'.length_halfwords
        simp only [List.length_append]
        omega
      rw [hsame, ← List.append_assoc]
      refine .cons (hnew d p' hp') ?_
      rw [← hsame]
      rwa [Function.update_of_ne (by omega)]
    · cases item with
      | jump j near l' =>
        obtain ⟨p, hp, rfl⟩ := parcels_jump parcels
        rw [sites_jump] at hs
        split_ifs at hs with hl
        · obtain rfl := (List.mem_cons.mp hs).resolve_right hrest
          refine ⟨code, [], p, j, near, by simp, rfl, hp, fun d p' hp' => ?_⟩
          rw [List.append_nil]
          exact laid.cons_jump hp'
        · exact absurd hs hrest
      | _ => exact absurd hs hrest

end Laid

/-! ## Binding -/

theorem int32_eq {x : ℤ} (hlow : -2 ^ 31 ≤ x) (hhigh : x < 2 ^ 31) : int32 x = x := by
  rw [int32, BitVec.toInt_ofInt]
  exact Int.bmod_eq_of_le_mul_two (by omega) (by omega)

theorem ImmFormat.int32_decode {n : ℕ} {f : ImmFormat} (hf : f.signed = true) (w : BitVec n) :
    int32 (f.decode w) = f.decode w := by
  simp [decode, hf, int32]

theorem Parcel.int32_of_decodeOffset {p : Parcel} {d : ℤ} (h : p.decodeOffset = .ok d) :
    int32 d = d := by
  cases p with
  | full w =>
    simp only [decodeOffset, decodeBranchOrJumpOffset] at h
    split_ifs at h <;> obtain rfl := Except.ok.inj h <;> exact ImmFormat.int32_decode rfl w
  | compressed w =>
    simp only [decodeOffset, decodeCBranchOrJumpOffset] at h
    split_ifs at h <;> obtain rfl := Except.ok.inj h <;> exact ImmFormat.int32_decode rfl w

section Bind

variable {rvc : Bool} {disp : ℕ → ℤ} {trace : List (ℕ × Item)} {code code' : List (BitVec 16)}
  {l : ℕ} {positions : List ℕ} {q : ℤ}

theorem Chained.congr {disp' : ℕ → ℤ} (h : Chained disp positions q)
    (heq : ∀ position ∈ positions, disp' position = disp position) :
    Chained disp' positions q := by
  induction positions generalizing q with
  | nil => exact h
  | cons position positions ih =>
    refine ⟨h.1, ?_⟩
    rw [heq _ List.mem_cons_self]
    exact ih h.2 fun p hp => heq p (List.mem_cons_of_mem _ hp)

/-- One turn of the loop gives the distance to the branch at the head of the chain. -/
theorem bindLoop_turn {position : ℕ} (h : Laid rvc disp trace code)
    (hs : position ∈ sites l trace) (hsize : 2 * code.length < 2 ^ 31) :
    ∃ (j : Jump) (near : Bool) (write : Parcel → List (BitVec 16)),
      (∀ d new, (j.to d).assemble rvc near false = .ok new →
        (write new).length = code.length ∧
          Laid rvc (Function.update disp position d) trace (write new)) ∧
      ∀ fuel, bindLoop (2 * code.length : ℕ) (fuel + 1) (position + 8) code =
        (j.to ((2 * code.length : ℕ) - position)).assemble rvc near false >>=
          fun new => bindLoop (2 * code.length : ℕ) fuel (disp position) (write new) := by
  have hlt := h.lt_of_mem_sites hs
  obtain ⟨a, b, p, j, near, hcode, hlen, hp, hnew⟩ := h.split hs
  obtain ⟨hdecode, hencode⟩ := jump_offset hp
  refine ⟨j, near, fun new => a ++ new.halfwords ++ b, fun d new hok => ⟨?_, hnew d new hok⟩,
    fun fuel => ?_⟩
  · have := jump_length hp hok
    have := p.length_halfwords
    have := new.length_halfwords
    rw [hcode]
    simp only [List.length_append]
    omega
  have hposition : int32 (labelPosition (position + 8)) = position := by
    rw [labelPosition, isBound, decide_eq_false (by omega), if_neg (by decide),
      add_sub_cancel_right]
    exact int32_eq (by omega) (by omega)
  have hoffset : int32 ((2 * code.length : ℕ) - position) = (2 * code.length : ℕ) - position :=
    int32_eq (by omega) (by omega)
  have hfetch : fetch code position = some p := by
    rw [hcode, ← hlen]
    exact fetch_append (jump_tagged hp)
  rw [bindLoop, isLinked, decide_eq_true (by omega), if_pos rfl]
  simp only [hposition, hoffset, Int.toNat_natCast, hfetch, hdecode,
    hencode _ (show (2 * code.length : ℕ) - (position : ℤ) ≠ 0 by omega)]
  refine bind_congr_ok fun new hok => ?_
  have hwrite : write code position new = a ++ new.halfwords ++ b := by
    rw [hcode, ← hlen]
    exact write_append (jump_length hp hok)
  rw [ok_bind, Parcel.int32_of_decodeOffset hdecode, hwrite]

/-- The loop gives the distance to all branches of the chain. -/
theorem bindLoop_laid {fuel : ℕ} (h : Laid rvc disp trace code)
    (hs : ∀ position ∈ positions, position ∈ sites l trace) (hnodup : positions.Nodup)
    (hchain : Chained disp positions q) (hsize : 2 * code.length < 2 ^ 31)
    (hok : bindLoop (2 * code.length : ℕ) fuel q code = .ok code') :
    code'.length = code.length ∧ ∃ disp', Laid rvc disp' trace code' ∧
      (∀ position ∈ positions, disp' position = (2 * code.length : ℕ) - position) ∧
      ∀ position ∉ positions, disp' position = disp position := by
  induction positions generalizing disp code q fuel with
  | nil =>
    obtain rfl : q = 0 := hchain
    cases fuel with
    | zero => cases hok
    | succ fuel =>
      obtain rfl := Except.ok.inj hok
      exact ⟨rfl, disp, h, by simp, fun _ _ => rfl⟩
  | cons position positions ih =>
    obtain ⟨rfl, hrest⟩ := hchain
    obtain ⟨hnot, hnodup⟩ := List.nodup_cons.mp hnodup
    cases fuel with
    | zero => cases hok
    | succ fuel =>
      obtain ⟨j, near, write, hwrite, hturn⟩ := bindLoop_turn h (hs _ List.mem_cons_self) hsize
      rw [hturn] at hok
      obtain ⟨new, hnew, hok⟩ := bind_eq_ok.mp hok
      obtain ⟨hlen, hlaid⟩ := hwrite _ _ hnew
      rw [← hlen] at hok hsize
      obtain ⟨hlen', disp', hlaid', hin, hout⟩ := ih hlaid
        (fun p hp => hs p (List.mem_cons_of_mem _ hp)) hnodup
        (hrest.congr fun p hp => Function.update_of_ne (ne_of_mem_of_not_mem hp hnot) _ _) hsize hok
      rw [hlen] at hin
      refine ⟨hlen'.trans hlen, disp', hlaid', fun p hp => ?_, fun p hp => ?_⟩
      · rcases List.mem_cons.mp hp with rfl | hp
        · rw [hout _ hnot, Function.update_self]
        · exact hin p hp
      · obtain ⟨hne, hp⟩ := not_or.mp (mt List.mem_cons.mpr hp)
        rw [hout p hp, Function.update_of_ne hne]

/-- There is no need for more turns than there are branches. -/
theorem bindLoop_fuel {fuel fuel' : ℕ} (h : Laid rvc disp trace code)
    (hs : ∀ position ∈ positions, position ∈ sites l trace) (hnodup : positions.Nodup)
    (hchain : Chained disp positions q) (hsize : 2 * code.length < 2 ^ 31)
    (hfuel : positions.length < fuel) (hfuel' : positions.length < fuel') :
    bindLoop (2 * code.length : ℕ) fuel q code = bindLoop (2 * code.length : ℕ) fuel' q code := by
  induction positions generalizing disp code q fuel fuel' with
  | nil =>
    obtain rfl : q = 0 := hchain
    obtain ⟨fuel, rfl⟩ := Nat.exists_eq_succ_of_ne_zero hfuel.ne'
    obtain ⟨fuel', rfl⟩ := Nat.exists_eq_succ_of_ne_zero hfuel'.ne'
    rfl
  | cons position positions ih =>
    obtain ⟨rfl, hrest⟩ := hchain
    obtain ⟨hnot, hnodup⟩ := List.nodup_cons.mp hnodup
    obtain ⟨fuel, rfl⟩ := Nat.exists_eq_succ_of_ne_zero (Nat.ne_zero_of_lt hfuel)
    obtain ⟨fuel', rfl⟩ := Nat.exists_eq_succ_of_ne_zero (Nat.ne_zero_of_lt hfuel')
    obtain ⟨j, near, write, hwrite, hturn⟩ := bindLoop_turn h (hs _ List.mem_cons_self) hsize
    rw [hturn, hturn]
    refine bind_congr_ok fun new hnew => ?_
    obtain ⟨hlen, hlaid⟩ := hwrite _ _ hnew
    rw [← hlen] at hsize ⊢
    exact ih hlaid (fun p hp => hs p (List.mem_cons_of_mem _ hp)) hnodup
      (hrest.congr fun p hp => Function.update_of_ne (ne_of_mem_of_not_mem hp hnot) _ _) hsize
      (Nat.lt_of_succ_lt_succ hfuel) (Nat.lt_of_succ_lt_succ hfuel')

end Bind

/-! ## All labels -/

/-- The branches to a label that is not bound are its chain, and those to a bound one have the
distance. -/
structure Threaded (rvc : Bool) (disp : ℕ → ℤ) (trace : List (ℕ × Item)) (s : State) : Prop where
  laid : Laid rvc disp trace s.code
  chained : ∀ l, isBound (s.labels l) = false → Chained disp (sites l trace) (s.labels l)
  reached : ∀ l, isBound (s.labels l) = true → ∀ position ∈ sites l trace,
    disp position = labelPosition (s.labels l) - position
  bound : ∀ position l, (position, Item.bind l) ∈ trace →
    isBound (s.labels l) = true ∧ labelPosition (s.labels l) = position

section Threaded

variable {rvc : Bool} {disp : ℕ → ℤ} {trace : List (ℕ × Item)} {s s' : State} {item : Item}

theorem Threaded.empty : Threaded rvc disp [] .empty where
  laid := .nil
  chained _ _ := rfl
  reached _ h := by cases h
  bound _ _ h := by cases h

theorem foldl_emit (ps : List Parcel) (s : State) :
    ps.foldl State.emit s = ⟨s.code ++ ps.flatMap Parcel.halfwords, s.labels⟩ := by
  induction ps generalizing s with
  | nil => simp
  | cons p ps ih => simp [ih, State.emit]

/-- What is neither a jump nor a label only adds instructions. -/
theorem Threaded.append {ps : List Parcel} (h : Threaded rvc disp trace s) (item : Item)
    (hsites : ∀ l, sites l ((s.position, item) :: trace) = sites l trace)
    (hitem : ∀ l, item ≠ .bind l)
    (hps : item.parcels rvc s.position (fun _ => disp s.position) = .ok ps) :
    Threaded rvc disp ((s.position, item) :: trace)
      ⟨s.code ++ ps.flatMap Parcel.halfwords, s.labels⟩ where
  laid := .cons h.laid hps
  chained l hl := by rw [hsites]; exact h.chained l hl
  reached l hl position hp := by rw [hsites] at hp; exact h.reached l hl position hp
  bound position l hp := by
    rcases List.mem_cons.mp hp with hp | hp
    · exact absurd (Prod.mk.inj hp).2.symm (hitem l)
    · exact h.bound position l hp

theorem Threaded.update (h : Threaded rvc disp trace s) (d : ℤ) :
    Threaded rvc (Function.update disp s.position d) trace s :=
  have heq {l : ℕ} (position : ℕ) (hp : position ∈ sites l trace) :
      Function.update disp s.position d position = disp position :=
    Function.update_of_ne (h.laid.lt_of_mem_sites hp).ne _ _
  { laid := h.laid.update le_rfl d
    chained := fun l hl => (h.chained l hl).congr heq
    reached := fun l hl position hp => (heq position hp).trans (h.reached l hl position hp)
    bound := h.bound }

theorem Threaded.emitJump {j : Jump} {near : Bool} {l : ℕ} (h : Threaded rvc disp trace s)
    (hok : s.emitJump rvc j near l = .ok s') :
    ∃ disp', Threaded rvc disp' ((s.position, .jump j near l) :: trace) s' := by
  obtain ⟨p, hp, hok⟩ := bind_eq_ok.mp hok
  have hlaid {d : ℤ} (hd : (j.to d).assemble rvc near false = .ok p) :
      Laid rvc (Function.update disp s.position d) ((s.position, .jump j near l) :: trace)
        (s.code ++ p.halfwords) := h.laid.cons_jump hd
  have hbound (position : ℕ) (l' : ℕ)
      (hm : (position, Item.bind l') ∈ (s.position, Item.jump j near l) :: trace) :
      isBound (s.labels l') = true ∧ labelPosition (s.labels l') = position :=
    h.bound position l' ((List.mem_cons.mp hm).resolve_left fun he => by cases he)
  cases hl : isBound (s.labels l) with
  | true =>
    rw [hl, if_pos rfl] at hp
    rw [hl, if_pos rfl] at hok
    obtain rfl := Except.ok.inj hok
    have hd := h.update (labelPosition (s.labels l) - s.position)
    refine ⟨_, hlaid hp, fun l' hl' => ?_, fun l' hl' position hm => ?_, hbound⟩
    · have hne : l ≠ l' := by
        rintro rfl
        exact absurd (hl.symm.trans hl') (by decide)
      rw [sites, if_neg hne]
      exact hd.chained l' hl'
    · rw [sites_jump] at hm
      split_ifs at hm with he
      · subst he
        rcases List.mem_cons.mp hm with rfl | hm
        · exact Function.update_self ..
        · exact hd.reached l hl' position hm
      · exact hd.reached l' hl' position hm
  | false =>
    rw [hl, if_neg (by decide)] at hp
    rw [hl, if_neg (by decide)] at hok
    obtain rfl := Except.ok.inj hok
    have hd := h.update (s.labels l)
    have hlinked : isBound ((s.position : ℤ) + 8) = false := decide_eq_false (by omega)
    refine ⟨_, hlaid hp, fun l' hl' => ?_, fun l' hl' position hm => ?_, fun position l' hm => ?_⟩
    · by_cases he : l = l'
      · subst he
        rw [sites, if_pos rfl]
        refine ⟨Function.update_self .., ?_⟩
        rw [Function.update_self]
        exact hd.chained l hl
      · rw [sites, if_neg he]
        dsimp only at hl' ⊢
        rw [Function.update_of_ne (Ne.symm he)] at hl' ⊢
        exact hd.chained l' hl'
    · have he : l ≠ l' := by
        rintro rfl
        dsimp only at hl'
        rw [Function.update_self, hlinked] at hl'
        cases hl'
      rw [sites, if_neg he] at hm
      dsimp only at hl' ⊢
      rw [Function.update_of_ne (Ne.symm he)] at hl' ⊢
      exact hd.reached l' hl' position hm
    · obtain ⟨hl', hposition⟩ := hbound position l' hm
      have he : l' ≠ l := by
        rintro rfl
        exact absurd (hl.symm.trans hl') (by decide)
      dsimp only
      rw [Function.update_of_ne he]
      exact ⟨hl', hposition⟩

theorem Threaded.bind {l : ℕ} (h : Threaded rvc disp trace s) (hsize : s.position < 2 ^ 31)
    (hok : s.bind l = .ok s') :
    ∃ disp', Threaded rvc disp' ((s.position, .bind l) :: trace) s' := by
  obtain ⟨hl, hok⟩ := assert_bind_eq_ok.mp hok
  rw [Bool.not_eq_true'] at hl
  obtain ⟨code, hcode, hok⟩ := bind_eq_ok.mp hok
  obtain rfl := Except.ok.inj hok
  obtain ⟨hlen, disp', hlaid, hin, hout⟩ := bindLoop_laid h.laid (fun _ hp => hp)
    ((h.laid.sorted_sites l).imp ne_of_gt) (h.chained l hl) hsize hcode
  have hsame {l' : ℕ} (hne : l' ≠ l) (position : ℕ) (hp : position ∈ sites l' trace) :
      disp' position = disp position :=
    hout position fun hp' => hne (h.laid.eq_of_mem_sites hp' hp)
  have hnew : isBound (-(s.position : ℤ) - 8) = true := decide_eq_true (by omega)
  have hposition : labelPosition (-(s.position : ℤ) - 8) = s.position := by
    rw [labelPosition, hnew, if_pos rfl]
    omega
  refine ⟨disp', ?_, fun l' hl' => ?_, fun l' hl' position hm => ?_, fun position l' hm => ?_⟩
  · have hps : (Item.bind l).parcels rvc (2 * code.length) (fun _ => disp' (2 * code.length)) =
        .ok [] := rfl
    have hcons := Laid.cons hlaid hps
    rw [hlen] at hcons
    simpa [State.position] using hcons
  · have he : l' ≠ l := by
      rintro rfl
      dsimp only at hl'
      rw [Function.update_self, hnew] at hl'
      cases hl'
    dsimp only at hl' ⊢
    rw [Function.update_of_ne he] at hl' ⊢
    exact (h.chained l' hl').congr (hsame he)
  · dsimp only at hl' ⊢
    by_cases he : l' = l
    · subst he
      rw [Function.update_self, hposition]
      exact hin position hm
    · rw [Function.update_of_ne he] at hl' ⊢
      exact (hsame he position hm).trans (h.reached l' hl' position hm)
  · dsimp only
    rcases List.mem_cons.mp hm with hm | hm
    · cases hm
      rw [Function.update_self]
      exact ⟨hnew, hposition⟩
    · obtain ⟨hl', hold⟩ := h.bound position l' hm
      have he : l' ≠ l := by
        rintro rfl
        exact absurd (hl.symm.trans hl') (by decide)
      rw [Function.update_of_ne he]
      exact ⟨hl', hold⟩

/-- Each call of the assembler keeps the chains. -/
theorem Threaded.emit (h : Threaded rvc disp trace s) (hsize : s.position < 2 ^ 31)
    (hok : item.emit rvc s = .ok s') :
    ∃ disp', Threaded rvc disp' ((s.position, item) :: trace) s' := by
  cases item with
  | insn i big =>
    obtain ⟨p, hp, rfl⟩ := map_eq_ok.mp hok
    have hps : (Item.insn i big).parcels rvc s.position (fun _ => disp s.position) = .ok [p] := by
      rw [Item.parcels, hp]
      rfl
    have happend := h.append _ (fun _ => rfl) (fun l he => by cases he) hps
    exact ⟨disp, by simpa [State.emit] using happend⟩
  | jump j near l => exact h.emitJump hok
  | bind l => exact h.bind hsize hok
  | align n =>
    obtain ⟨-, hok⟩ := assert_bind_eq_ok.mp hok
    obtain ⟨-, hok⟩ := assert_bind_eq_ok.mp hok
    obtain rfl := Except.ok.inj hok
    rw [foldl_emit]
    exact ⟨disp, h.append (.align n) (fun _ => rfl) (fun l he => by cases he) rfl⟩

end Threaded

/-! ## The size of the code -/

section Size

variable {rvc : Bool} {code code' : List (BitVec 16)} {p p' : Parcel} {s s' : State}

theorem Parcel.length_encodeOffset {offset : ℤ} (h : p.encodeOffset offset = .ok p') :
    p.length = p'.length := by
  cases p with
  | full w => obtain ⟨w', -, rfl⟩ := map_eq_ok.mp h; rfl
  | compressed w => obtain ⟨w', -, rfl⟩ := map_eq_ok.mp h; rfl

theorem write_length {position : ℕ} (h : fetch code position = some p)
    (hlen : p.length = p'.length) : (write code position p').length = code.length := by
  have hin : position / 2 + p.halfwords.length ≤ code.length := by
    obtain ⟨low, hlow, h⟩ := Option.bind_eq_some_iff.mp h
    obtain ⟨hl, -⟩ := List.getElem?_eq_some_iff.mp hlow
    split_ifs at h
    · obtain rfl := Option.some.inj h
      exact hl
    · obtain ⟨high, hhigh, h⟩ := Option.bind_eq_some_iff.mp h
      obtain ⟨hh, -⟩ := List.getElem?_eq_some_iff.mp hhigh
      obtain rfl := Option.some.inj h
      exact hh
  have := p.length_halfwords
  have := p'.length_halfwords
  simp only [write, List.length_append, List.length_take, List.length_drop]
  omega

theorem bindLoop_length {target q : ℤ} {fuel : ℕ} (h : bindLoop target fuel q code = .ok code') :
    code'.length = code.length := by
  induction fuel generalizing q code with
  | zero => cases h
  | succ fuel ih =>
    rw [bindLoop] at h
    split_ifs at h
    · cases hf : fetch code (int32 (labelPosition q)).toNat with
      | none => simp only [hf] at h; cases h
      | some old =>
        simp only [hf] at h
        obtain ⟨new, hnew, h⟩ := bind_eq_ok.mp h
        obtain ⟨q', -, h⟩ := bind_eq_ok.mp h
        exact (ih h).trans (write_length hf (Parcel.length_encodeOffset hnew))
    · obtain rfl := Except.ok.inj h
      rfl

theorem position_le_of_emit {item : Item} (h : item.emit rvc s = .ok s') :
    s.position ≤ s'.position := by
  have happend (code : List (BitVec 16)) : s.position ≤ 2 * (s.code ++ code).length := by
    rw [State.position, List.length_append]
    omega
  cases item with
  | insn i big =>
    obtain ⟨p, hp, rfl⟩ := map_eq_ok.mp h
    exact happend _
  | jump j near l =>
    obtain ⟨p, hp, h⟩ := bind_eq_ok.mp h
    dsimp only at h
    split_ifs at h <;> obtain rfl := Except.ok.inj h <;> exact happend _
  | bind l =>
    obtain ⟨-, h⟩ := assert_bind_eq_ok.mp h
    obtain ⟨code, hcode, h⟩ := bind_eq_ok.mp h
    obtain rfl := Except.ok.inj h
    exact (congrArg (2 * ·) (bindLoop_length hcode)).ge
  | align n =>
    obtain ⟨-, h⟩ := assert_bind_eq_ok.mp h
    obtain ⟨-, h⟩ := assert_bind_eq_ok.mp h
    obtain rfl := Except.ok.inj h
    rw [foldl_emit]
    exact happend _

theorem position_le_of_run {items : List Item} (h : items.foldlM (Item.emit rvc) s = .ok s') :
    s.position ≤ s'.position := by
  induction items generalizing s with
  | nil => obtain rfl := Except.ok.inj h; rfl
  | cons item items ih =>
    obtain ⟨s₁, hemit, h⟩ := bind_eq_ok.mp h
    exact (position_le_of_emit hemit).trans (ih h)

end Size

/-! ## The whole code -/

section Whole

variable {rvc : Bool} {disp : ℕ → ℤ} {address : ℕ → ℤ} {trace : List (ℕ × Item)}
  {code : List (BitVec 16)} {s s' : State} {items : List Item}

/-- The chains are kept by any calls. -/
theorem Threaded.run (h : Threaded rvc disp trace s)
    (hok : items.foldlM (Item.emit rvc) s = .ok s') (hsize : s'.position < 2 ^ 31) :
    ∃ disp' trace', Threaded rvc disp' trace' s' ∧
      (trace'.map Prod.snd).reverse = (trace.map Prod.snd).reverse ++ items := by
  induction items generalizing disp trace s with
  | nil =>
    obtain rfl := Except.ok.inj hok
    exact ⟨disp, trace, h, by simp⟩
  | cons item items ih =>
    obtain ⟨s₁, hemit, hok⟩ := bind_eq_ok.mp hok
    have hle := (position_le_of_emit hemit).trans (position_le_of_run hok)
    obtain ⟨disp₁, h₁⟩ := h.emit (hle.trans_lt hsize) hemit
    obtain ⟨disp', trace', h', htrace⟩ := ih h₁ hok
    exact ⟨disp', trace', h', by simp [htrace]⟩

theorem size_eq (ps : List Parcel) : size ps = 2 * (ps.flatMap Parcel.halfwords).length := by
  induction ps with
  | nil => rfl
  | cons p ps ih =>
    have hp := p.length_halfwords
    rw [size, List.map_cons, List.sum_cons, ← size, ih, List.flatMap_cons, List.length_append]
    omega

theorem place_append {position : ℕ} {item : Item} {ps qs : List Parcel}
    (h : place rvc address position items = .ok ps)
    (hstands : item.stands address (position + size ps) = true)
    (hitem : item.parcels rvc (position + size ps)
      (address · - (position + size ps : ℕ)) = .ok qs) :
    place rvc address position (items ++ [item]) = .ok (ps ++ qs) := by
  induction items generalizing position ps with
  | nil =>
    obtain rfl := Except.ok.inj h
    simp only [size, List.map_nil, List.sum_nil, Nat.add_zero] at hstands hitem
    simp [place, assert, hstands, hitem]
  | cons x items ih =>
    obtain ⟨hx, h⟩ := assert_bind_eq_ok.mp h
    obtain ⟨ps₁, hps₁, h⟩ := bind_eq_ok.mp h
    obtain ⟨rest, hrest, h⟩ := bind_eq_ok.mp h
    obtain rfl := Except.ok.inj h
    have hsize : position + size (ps₁ ++ rest) = position + size ps₁ + size rest := by
      simp [size, Nat.add_assoc]
    rw [hsize] at hstands hitem
    rw [List.cons_append, place, assert, if_pos hx, ok_bind, hps₁, ok_bind,
      ih hrest hstands hitem, List.append_assoc]
    rfl

theorem parcels_congr {item : Item} {position : ℕ} {offset offset' : ℕ → ℤ}
    (h : ∀ j near l, item = .jump j near l → offset l = offset' l) :
    item.parcels rvc position offset = item.parcels rvc position offset' := by
  cases item with
  | jump j near l => rw [Item.parcels, Item.parcels, h j near l rfl]
  | _ => rfl

/-- The number of branches that `bind` allows for is enough. -/
theorem Threaded.bindLoop_fuel {l fuel : ℕ} (h : Threaded rvc disp trace s)
    (hl : isBound (s.labels l) = false) (hsize : s.position < 2 ^ 31)
    (hfuel : s.code.length < fuel) :
    bindLoop s.position fuel (s.labels l) s.code =
      bindLoop s.position (s.code.length + 1) (s.labels l) s.code :=
  Asm.bindLoop_fuel h.laid (fun _ hp => hp) ((h.laid.sorted_sites l).imp ne_of_gt)
    (h.chained l hl) hsize ((h.laid.length_sites l).trans_lt hfuel)
    (Nat.lt_succ_of_le (h.laid.length_sites l))

/-- With the distances as offsets, the code is placed. -/
theorem Laid.placed (h : Laid rvc disp trace code)
    (hdisp : ∀ l, ∀ position ∈ sites l trace, disp position = address l - position)
    (hbind : ∀ position l, (position, Item.bind l) ∈ trace → address l = position) :
    ∃ ps, place rvc address 0 (trace.map Prod.snd).reverse = .ok ps ∧
      code = ps.flatMap Parcel.halfwords := by
  induction h with
  | nil => exact ⟨[], rfl, rfl⟩
  | @cons trace code item qs laid parcels ih =>
    have hsites {l position : ℕ} (hp : position ∈ sites l trace) :
        position ∈ sites l ((2 * code.length, item) :: trace) := by
      rw [mem_sites] at hp ⊢
      exact hp.imp fun j => Exists.imp fun near => List.mem_cons_of_mem _
    obtain ⟨ps, hps, rfl⟩ := ih (fun l position hp => hdisp l position (hsites hp))
      fun position l hm => hbind position l (List.mem_cons_of_mem _ hm)
    refine ⟨ps ++ qs, ?_, by rw [List.flatMap_append]⟩
    rw [List.map_cons, List.reverse_cons]
    rw [← size_eq] at parcels hdisp hbind
    refine place_append hps ?_ ?_
    · cases item with
      | bind l => simpa [Item.stands] using hbind _ l List.mem_cons_self
      | _ => rfl
    · rw [Nat.zero_add, ← parcels]
      refine parcels_congr ?_
      rintro j near l rfl
      exact (hdisp l _ (mem_sites.mpr ⟨j, near, List.mem_cons_self⟩)).symm

theorem bind_mem_of_emit {item : Item} {l : ℕ} (h : item.emit rvc s = .ok s')
    (hl : isBound (s'.labels l) = true) : isBound (s.labels l) = true ∨ item = .bind l := by
  cases item with
  | insn i big =>
    obtain ⟨p, hp, rfl⟩ := map_eq_ok.mp h
    exact .inl hl
  | jump j near l' =>
    obtain ⟨p, hp, h⟩ := bind_eq_ok.mp h
    dsimp only at h
    split_ifs at h <;> obtain rfl := Except.ok.inj h
    · exact .inl hl
    · by_cases he : l = l'
      · subst he
        dsimp only at hl
        rw [Function.update_self, isBound, decide_eq_true_iff] at hl
        omega
      · dsimp only at hl
        rw [Function.update_of_ne he] at hl
        exact .inl hl
  | bind l' =>
    obtain ⟨-, h⟩ := assert_bind_eq_ok.mp h
    obtain ⟨code, hcode, h⟩ := bind_eq_ok.mp h
    obtain rfl := Except.ok.inj h
    by_cases he : l = l'
    · exact .inr (by rw [he])
    · dsimp only at hl
      rw [Function.update_of_ne he] at hl
      exact .inl hl
  | align n =>
    obtain ⟨-, h⟩ := assert_bind_eq_ok.mp h
    obtain ⟨-, h⟩ := assert_bind_eq_ok.mp h
    obtain rfl := Except.ok.inj h
    rw [foldl_emit] at hl
    exact .inl hl

theorem bind_mem_of_run {l : ℕ} (h : items.foldlM (Item.emit rvc) s = .ok s')
    (hl : isBound (s'.labels l) = true) : isBound (s.labels l) = true ∨ .bind l ∈ items := by
  induction items generalizing s with
  | nil =>
    obtain rfl := Except.ok.inj h
    exact .inl hl
  | cons item items ih =>
    obtain ⟨s₁, hemit, h⟩ := bind_eq_ok.mp h
    rcases ih h with hl₁ | hm
    · rcases bind_mem_of_emit hemit hl₁ with hl₀ | rfl
      · exact .inl hl₀
      · exact .inr List.mem_cons_self
    · exact .inr (List.mem_cons_of_mem _ hm)

/-- When no label is left with a chain, the branches go to labels that are bound. -/
theorem exists_threaded (h : assemble rvc items = .ok s) (hsize : s.position < 2 ^ 31)
    (hlinked : ∀ l, isLinked (s.labels l) = false) :
    ∃ disp trace, Threaded rvc disp trace s ∧ (trace.map Prod.snd).reverse = items ∧
      ∀ l, ∀ position ∈ sites l trace, isBound (s.labels l) = true := by
  have hempty : Threaded rvc (fun _ => 0) [] .empty := .empty
  obtain ⟨disp, trace, hthreaded, htrace⟩ := hempty.run h hsize
  refine ⟨disp, trace, hthreaded, by simpa using htrace, fun l position hp => ?_⟩
  cases hl : isBound (s.labels l) with
  | true => rfl
  | false =>
    have hchain := hthreaded.chained l hl
    cases hs : sites l trace with
    | nil => simp [hs] at hp
    | cons first rest =>
      rw [hs] at hchain
      have hpos : isLinked (s.labels l) = true := by
        rw [hchain.1]
        exact decide_eq_true (by omega)
      exact absurd (hpos.symm.trans (hlinked l)) (by decide)

theorem Threaded.placed (h : Threaded rvc disp trace s)
    (hbound : ∀ l, ∀ position ∈ sites l trace, isBound (s.labels l) = true) :
    ∃ ps, place rvc (fun l => labelPosition (s.labels l)) 0 (trace.map Prod.snd).reverse = .ok ps ∧
      s.code = ps.flatMap Parcel.halfwords :=
  h.laid.placed (fun l position hp => h.reached l (hbound l position hp) position hp)
    fun position l hm => (h.bound position l hm).2

/-- When no label is left with a chain, each branch has the distance to its label. -/
theorem assemble_placed (h : assemble rvc items = .ok s) (hsize : s.position < 2 ^ 31)
    (hlinked : ∀ l, isLinked (s.labels l) = false) :
    ∃ ps, place rvc (fun l => labelPosition (s.labels l)) 0 items = .ok ps ∧
      s.code = ps.flatMap Parcel.halfwords := by
  obtain ⟨disp, trace, hthreaded, rfl, hbound⟩ := exists_threaded h hsize hlinked
  exact hthreaded.placed hbound

/-- An addition that is left out when the register is zero. -/
def addUnlessZero : List Item :=
  .jump (.branch .beq 10 0) true 0 :: .insn (.opImm .addi 10 10 1) false :: label 0

def addUnlessZeroCode : State :=
  ⟨[0xc111, 0x0505], Function.update (Function.update (fun _ => 0) 0 8) 0 (-12)⟩

theorem assemble_addUnlessZero : assemble true addUnlessZero = .ok addUnlessZeroCode :=
  rfl

theorem not_isLinked_addUnlessZero (l : ℕ) : isLinked (addUnlessZeroCode.labels l) = false := by
  simp only [addUnlessZeroCode, Function.update_apply]
  split_ifs <;> rfl

theorem placed_addUnlessZero : ∃ ps,
    place true (fun l => labelPosition (addUnlessZeroCode.labels l)) 0 addUnlessZero = .ok ps ∧
      addUnlessZeroCode.code = ps.flatMap Parcel.halfwords :=
  assemble_placed assemble_addUnlessZero (by decide) not_isLinked_addUnlessZero

end Whole

end Arancini.Riscv.Asm
