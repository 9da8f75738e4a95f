import Mathlib.Algebra.Group.Nat.Defs
import Mathlib.Data.List.Sort
import Mathlib.Data.List.TakeWhile
import Mathlib.Tactic.Common

/-!
# Packed relocations

A list of addresses of words, packed : an even entry is an address, and an odd one a bitmap of the
63 words behind what comes before it. A group is an address with its bitmaps (`Group`), and its
offsets are the words it stands for.

`encode` packs a list of words. The groups of a list that ascends stand for the list
(`flatMap_addresses_encode`).
-/

namespace Arancini.Relr

/-! ## The format -/

/-- The words that a bitmap marks. Its lowest bit says that it is one. -/
def bits (w : BitVec 64) : List ℕ :=
  (List.range 63).filter fun j => w.getLsbD (j + 1)

/-- An address and the bitmaps behind it. -/
structure Group where
  address : BitVec 64
  bitmaps : List (BitVec 64)
  even : address.getLsbD 0 = false
  odd : ∀ w ∈ bitmaps, w.getLsbD 0 = true

/-- The words marked by bitmaps, from the `m`-th on. -/
def marked (m : ℕ) (bitmaps : List (BitVec 64)) : List ℕ :=
  (bitmaps.zipIdx m).flatMap fun w => (bits w.1).map (63 * w.2 + ·)

namespace Group

variable (g : Group)

/-- The entries of a group. -/
def entries : List (BitVec 64) :=
  g.address :: g.bitmaps

/-- The words of a group, counted from its address. -/
def offsets : List ℕ :=
  0 :: (marked 0 g.bitmaps).map (1 + ·)

def addresses : List (BitVec 64) :=
  g.offsets.map fun k => g.address + BitVec.ofNat 64 (8 * k)

/-- The last word that a group may stand for. -/
def last : ℕ :=
  g.address.toNat + 504 * g.bitmaps.length

end Group

/-- Each group lies behind the one before. -/
def Ascending : ℕ → List Group → Prop
  | _, [] => True
  | low, g :: groups => low ≤ g.address.toNat ∧ g.last < 2 ^ 64 ∧ Ascending (g.last + 1) groups

theorem marked_cons (m : ℕ) (w : BitVec 64) (l : List (BitVec 64)) :
    marked m (w :: l) = (bits w).map (63 * m + ·) ++ marked (m + 1) l := by
  unfold marked
  rw [List.zipIdx_cons, List.flatMap_cons]

/-! ## Order -/

theorem bits_lt {w : BitVec 64} {j : ℕ} (h : j ∈ bits w) : j < 63 :=
  List.mem_range.1 (List.mem_filter.1 h).1

theorem pairwise_bits (w : BitVec 64) : (bits w).Pairwise (· < ·) :=
  List.pairwise_lt_range.filter _

theorem mem_marked {l : List (BitVec 64)} {m i : ℕ} (h : i ∈ marked m l) :
    63 * m ≤ i ∧ i < 63 * (m + l.length) := by
  induction l generalizing m with
  | nil => exact absurd h List.not_mem_nil
  | cons w l ih =>
    rw [marked_cons] at h
    rw [List.length_cons]
    rcases List.mem_append.1 h with h | h
    · obtain ⟨j, hj, rfl⟩ := List.mem_map.1 h
      have hlt := bits_lt hj
      omega
    · have hrest := ih h
      omega

theorem pairwise_marked (l : List (BitVec 64)) (m : ℕ) : (marked m l).Pairwise (· < ·) := by
  induction l generalizing m with
  | nil => exact .nil
  | cons w l ih =>
    rw [marked_cons]
    refine List.pairwise_append.2 ⟨?_, ih (m + 1), fun a ha b hb => ?_⟩
    · exact (pairwise_bits w).map _ fun a b hab => Nat.add_lt_add_left hab _
    · obtain ⟨j, hj, rfl⟩ := List.mem_map.1 ha
      have hlt := bits_lt hj
      have hle := (mem_marked hb).1
      omega

theorem Group.mem_offsets {g : Group} {k : ℕ} (h : k ∈ g.offsets) : k ≤ 63 * g.bitmaps.length := by
  rcases List.mem_cons.1 h with rfl | h
  · exact Nat.zero_le _
  · obtain ⟨i, hi, rfl⟩ := List.mem_map.1 h
    have hlt := (mem_marked hi).2
    omega

theorem Group.pairwise_offsets (g : Group) : g.offsets.Pairwise (· < ·) := by
  refine List.pairwise_cons.2 ⟨fun k hk => ?_, ?_⟩
  · obtain ⟨i, -, rfl⟩ := List.mem_map.1 hk
    omega
  · exact (pairwise_marked g.bitmaps 0).map _ fun a b hab => Nat.add_lt_add_left hab 1

theorem Group.toNat_address {g : Group} (h : g.last < 2 ^ 64) {k : ℕ} (hk : k ∈ g.offsets) :
    (g.address + BitVec.ofNat 64 (8 * k)).toNat = g.address.toNat + 8 * k := by
  have hle := mem_offsets hk
  unfold Group.last at h
  rw [BitVec.toNat_add, BitVec.toNat_ofNat, Nat.mod_eq_of_lt (by omega : 8 * k < 2 ^ 64),
    Nat.mod_eq_of_lt (by omega)]

/-- The addresses of ascending groups ascend. -/
theorem pairwise_addresses : ∀ {groups : List Group} {low : ℕ}, Ascending low groups →
    (groups.flatMap Group.addresses).Pairwise (fun a b => a.toNat < b.toNat) ∧
      ∀ a ∈ groups.flatMap Group.addresses, low ≤ a.toNat
  | [], _, _ => ⟨.nil, nofun⟩
  | g :: groups, low, ⟨hlow, hlast, hrest⟩ => by
    obtain ⟨hpairwise, hbound⟩ := pairwise_addresses hrest
    have hmem : ∀ a ∈ g.addresses, g.address.toNat ≤ a.toNat ∧ a.toNat ≤ g.last := by
      intro a ha
      obtain ⟨k, hk, rfl⟩ := List.mem_map.1 ha
      have hle := Group.mem_offsets hk
      rw [Group.toNat_address hlast hk]
      unfold Group.last
      omega
    rw [List.flatMap_cons]
    refine ⟨List.pairwise_append.2 ⟨?_, hpairwise, fun a ha b hb => ?_⟩, fun a ha => ?_⟩
    · refine List.pairwise_map.2 (g.pairwise_offsets.imp_of_mem fun ha hb hlt => ?_)
      rw [Group.toNat_address hlast ha, Group.toNat_address hlast hb]
      omega
    · have hle := (hmem a ha).2
      have hge := hbound b hb
      omega
    · rcases List.mem_append.1 ha with ha | ha
      · exact hlow.trans (hmem a ha).1
      · have hge := hbound a ha
        unfold Group.last at hge
        omega

/-! ## Encoding -/

/-- Mark a word behind a base. -/
def mark (base : ℕ) (w : BitVec 64) (i : ℕ) : BitVec 64 :=
  w ||| 1#64 <<< (i - base)

/-- The bitmap of words behind a base. -/
def bitmap (base : ℕ) (l : List ℕ) : BitVec 64 :=
  (l.foldl (mark base) 0#64) <<< 1 ||| 1#64

/-- Bitmaps, as long as there are words for the next one, and the words that are left. -/
def encodeBitmaps (base : ℕ) (l : List ℕ) : List (BitVec 64) × List ℕ :=
  if l.takeWhile (· < base + 63) = [] then ([], l)
  else
    let (bitmaps, rest) := encodeBitmaps (base + 63) (l.dropWhile (· < base + 63))
    (bitmap base (l.takeWhile (· < base + 63)) :: bitmaps, rest)
  termination_by l.length
  decreasing_by
    have hlength := congrArg List.length (List.takeWhile_append_dropWhile (p := (· < base + 63))
      (l := l))
    rw [List.length_append] at hlength
    have hpos := List.length_pos_iff.2 ‹_›
    omega

theorem getLsbD_mark (base : ℕ) (w : BitVec 64) (i : ℕ) {j : ℕ} (hj : j < 64) :
    (mark base w i).getLsbD j = (w.getLsbD j || decide (i - base = j)) := by
  unfold mark
  rw [BitVec.getLsbD_or, BitVec.getLsbD_shiftLeft, BitVec.getLsbD_one]
  congr 1
  grind

theorem getLsbD_foldl (base : ℕ) {j : ℕ} (hj : j < 64) (l : List ℕ) (w : BitVec 64) :
    (l.foldl (mark base) w).getLsbD j = (w.getLsbD j || decide (∃ i ∈ l, i - base = j)) := by
  induction l generalizing w with
  | nil => simp
  | cons i l ih =>
    rw [List.foldl_cons, ih, getLsbD_mark base w i hj, Bool.or_assoc, ← Bool.decide_or]
    congr 1
    exact decide_eq_decide.2 (List.exists_mem_cons_iff (fun i => i - base = j) i l).symm

/-- A bitmap marks its words. -/
theorem bits_bitmap {base : ℕ} {l : List ℕ} (hsorted : l.Pairwise (· < ·))
    (hl : ∀ i ∈ l, base ≤ i ∧ i < base + 63) : (bits (bitmap base l)).map (base + ·) = l := by
  have hbit : ∀ j < 63, ((bitmap base l).getLsbD (j + 1) = true ↔ ∃ i ∈ l, i - base = j) := by
    intro j hj
    unfold bitmap
    rw [BitVec.getLsbD_or, BitVec.getLsbD_shiftLeft, BitVec.getLsbD_one, Nat.add_sub_cancel,
      getLsbD_foldl base (by omega)]
    grind
  refine List.Pairwise.eq_of_mem_iff ((pairwise_bits _).map _ fun a b hab =>
    Nat.add_lt_add_left hab base) hsorted fun i => ?_
  rw [List.mem_map]
  constructor
  · rintro ⟨j, hj, rfl⟩
    obtain ⟨i, hi, rfl⟩ := (hbit j (bits_lt hj)).1 (List.mem_filter.1 hj).2
    have hle := (hl i hi).1
    rwa [Nat.add_sub_cancel' hle]
  · intro hi
    have hrange := hl i hi
    refine ⟨i - base, List.mem_filter.2 ⟨List.mem_range.2 (by omega), ?_⟩, by omega⟩
    exact (hbit _ (by omega)).2 ⟨i, hi, rfl⟩

theorem getLsbD_bitmap (base : ℕ) (l : List ℕ) : (bitmap base l).getLsbD 0 = true := by
  unfold bitmap
  rw [BitVec.getLsbD_or, BitVec.getLsbD_one]
  exact Bool.or_true _

theorem encodeBitmaps_of_nil {base : ℕ} {l : List ℕ}
    (h : l.takeWhile (· < base + 63) = []) : encodeBitmaps base l = ([], l) := by
  rw [encodeBitmaps, if_pos h]

theorem encodeBitmaps_of_ne_nil {base : ℕ} {l : List ℕ}
    (h : l.takeWhile (· < base + 63) ≠ []) : encodeBitmaps base l =
      (bitmap base (l.takeWhile (· < base + 63)) ::
        (encodeBitmaps (base + 63) (l.dropWhile (· < base + 63))).1,
        (encodeBitmaps (base + 63) (l.dropWhile (· < base + 63))).2) := by
  rw [encodeBitmaps, if_neg h]

/-- Each bitmap is one, and none is added for words that are left. -/
theorem encodeBitmaps_spec (base : ℕ) (l : List ℕ) :
    (∀ w ∈ (encodeBitmaps base l).1, w.getLsbD 0 = true) ∧
      (encodeBitmaps base l).2.length ≤ l.length := by
  induction base, l using encodeBitmaps.induct with
  | case1 base l h =>
    rw [encodeBitmaps_of_nil h]
    exact ⟨nofun, Nat.le_refl _⟩
  | case2 base l h bitmaps rest heq ih =>
    rw [encodeBitmaps_of_ne_nil h]
    refine ⟨fun w hw => ?_, ih.2.trans (List.dropWhile_suffix _).length_le⟩
    rcases List.mem_cons.1 hw with rfl | hw
    · exact getLsbD_bitmap _ _
    · exact ih.1 w hw

/-- What is left of a sorted list lies behind what is taken from it. -/
theorem le_of_mem_dropWhile {b : ℕ} : ∀ {l : List ℕ}, l.Pairwise (· < ·) →
    ∀ i ∈ l.dropWhile (· < b), b ≤ i
  | [], _, _, hi => absurd hi List.not_mem_nil
  | a :: l, hsorted, i, hi => by
    obtain ⟨hfirst, hrest⟩ := List.pairwise_cons.1 hsorted
    rw [List.dropWhile_cons] at hi
    split_ifs at hi with ha
    · exact le_of_mem_dropWhile hrest i hi
    · have hle : b ≤ a := by simpa using ha
      rcases List.mem_cons.1 hi with rfl | hi
      · exact hle
      · exact hle.trans (hfirst i hi).le

/-- The bitmaps stand for the words in front of those that are left. -/
theorem marked_encodeBitmaps {base : ℕ} {l : List ℕ} (m : ℕ) {start : ℕ}
    (hbase : base = start + 63 * m) (hsorted : l.Pairwise (· < ·)) (hl : ∀ i ∈ l, base ≤ i) :
    (marked m (encodeBitmaps base l).1).map (start + ·) ++ (encodeBitmaps base l).2 = l := by
  induction base, l using encodeBitmaps.induct generalizing m with
  | case1 base l h =>
    rw [encodeBitmaps_of_nil h]
    rfl
  | case2 base l h bitmaps rest heq ih =>
    subst hbase
    have hsplit := List.takeWhile_append_dropWhile (p := (· < start + 63 * m + 63)) (l := l)
    have hnow : ∀ i ∈ l.takeWhile (· < start + 63 * m + 63),
        start + 63 * m ≤ i ∧ i < start + 63 * m + 63 := fun i hi =>
      ⟨hl i ((List.takeWhile_prefix _).subset hi), by simpa using List.mem_takeWhile_imp hi⟩
    have hrest := ih (m + 1) (by omega) (hsorted.sublist (List.dropWhile_suffix _).sublist)
      (le_of_mem_dropWhile hsorted)
    rw [encodeBitmaps_of_ne_nil h, marked_cons, List.map_append, List.append_assoc, hrest,
      List.map_map]
    have hbits := bits_bitmap (hsorted.sublist (List.takeWhile_prefix _).sublist) hnow
    rw [show ((start + ·) ∘ (63 * m + ·)) = (start + 63 * m + ·) from funext fun i =>
      (Nat.add_assoc _ _ _).symm, hbits, hsplit]

theorem getLsbD_address (i : ℕ) : (BitVec.ofNat 64 (8 * i)).getLsbD 0 = false := by
  rw [BitVec.getLsbD_ofNat, Nat.testBit_zero]
  simp only [decide_eq_false_iff_not, Bool.and_eq_false_imp]
  omega

/-- Pack a list of words. -/
def encode : List ℕ → List Group
  | [] => []
  | i :: l =>
    ⟨BitVec.ofNat 64 (8 * i), (encodeBitmaps (i + 1) l).1, getLsbD_address i,
      (encodeBitmaps_spec (i + 1) l).1⟩ :: encode (encodeBitmaps (i + 1) l).2
  termination_by l => l.length
  decreasing_by exact Nat.lt_succ_of_le (encodeBitmaps_spec (i + 1) l).2

/-- A group of packed words stands for them. -/
theorem addresses_group {i : ℕ} {g : Group} (haddress : g.address = BitVec.ofNat 64 (8 * i)) :
    g.addresses = (i :: (marked 0 g.bitmaps).map (i + 1 + ·)).map
      fun k => BitVec.ofNat 64 (8 * k) := by
  have hword : ∀ k, g.address + BitVec.ofNat 64 (8 * k) = BitVec.ofNat 64 (8 * (i + k)) := by
    intro k
    rw [haddress, ← BitVec.ofNat_add, ← Nat.mul_add]
  have hsum : ∀ k, i + (1 + k) = i + 1 + k := fun k => (Nat.add_assoc i 1 k).symm
  unfold Group.addresses Group.offsets
  simp only [hword, List.map_cons, List.map_map, Function.comp_def, hsum, Nat.add_zero]

/-- A list of words that ascends is what its groups stand for. -/
theorem flatMap_addresses_encode {l : List ℕ} (hsorted : l.Pairwise (· < ·)) :
    (encode l).flatMap Group.addresses = l.map fun i => BitVec.ofNat 64 (8 * i) := by
  induction l using encode.induct with
  | case1 => rw [encode]; rfl
  | case2 i l ih =>
    obtain ⟨hfirst, hrest⟩ := List.pairwise_cons.1 hsorted
    have hmarked := @marked_encodeBitmaps (i + 1) l 0 (i + 1) rfl hrest hfirst
    have hleft : (encodeBitmaps (i + 1) l).2.Pairwise (· < ·) := by
      rw [← hmarked] at hrest
      exact (List.pairwise_append.1 hrest).2.1
    rw [encode, List.flatMap_cons, ih hleft, addresses_group rfl, ← List.map_append,
      List.cons_append, hmarked]

end Arancini.Relr
