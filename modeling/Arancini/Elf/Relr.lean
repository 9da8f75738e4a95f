import Arancini.Elf.Sections
import Arancini.Lib.Relr

/-!
# Packed relocations in a file

`parse_relr` goes through the words of a section with a running base : an address word is a
relocation, and the base is then behind it, and a bitmap word stands for words from the base on.

`parse_relr_right` says that it returns the addresses of the groups that a section is made of, and
that a list of addresses is got back from its encoding.
-/

namespace Arancini.Elf

open Relr

/-! ## Words -/

theorem getLsbD_of_shift {w : BitVec 64} {k j : ℕ} (h : w >>> k >>> 1 = 0) (hle : k ≤ j) :
    w.getLsbD (j + 1) = false := by
  have hbit : (w >>> k >>> 1).getLsbD (j - k) = w.getLsbD (j + 1) := by
    rw [BitVec.getLsbD_ushiftRight, BitVec.getLsbD_ushiftRight]
    congr 1
    omega
  rw [← hbit, h]
  exact BitVec.getLsbD_zero

/-- The loop over the bits of a bitmap, from the `k`-th on. It ends before the last bit if none of
those that are left is set. -/
theorem relrBitmap_shift (base w : BitVec 64) : ∀ (n k : ℕ) (relrs : List (BitVec 64)),
    k + n = 63 → relrBitmap base (w >>> k) k relrs =
      relrs ++ ((List.range' k n).filter fun j => w.getLsbD (j + 1)).map
        fun j => base + 8 * BitVec.ofNat 64 j
  | 0, k, relrs, hk => by
    have hzero : w >>> k >>> 1 = 0 := by
      obtain rfl : k = 63 := hk
      rw [← BitVec.shiftRight_add]
      exact BitVec.ushiftRight_eq_zero (Nat.le_refl 64)
    rw [relrBitmap, if_pos hzero]
    exact (List.append_nil relrs).symm
  | n + 1, k, relrs, hk => by
    by_cases hzero : w >>> k >>> 1 = 0
    · have hnone : (List.range' k (n + 1)).filter (fun j => w.getLsbD (j + 1)) = [] := by
        refine List.filter_eq_nil_iff.2 fun j hj => ?_
        rw [getLsbD_of_shift hzero (List.mem_range'_1.1 hj).1]
        exact Bool.false_ne_true
      rw [relrBitmap, if_pos hzero, hnone]
      exact (List.append_nil relrs).symm
    · have hbit : (w >>> k >>> 1).getLsbD 0 = w.getLsbD (k + 1) := by
        rw [BitVec.getLsbD_ushiftRight, BitVec.getLsbD_ushiftRight]
      rw [relrBitmap, if_neg hzero, hbit, ← BitVec.shiftRight_add,
        relrBitmap_shift base w n (k + 1) _ (by omega), List.range'_succ, List.filter_cons]
      split_ifs with hset
      · rw [List.map_cons, List.append_assoc]
        rfl
      · rfl

/-- The bits of a bitmap word are words behind the base. -/
theorem relrBitmap_eq (base w : BitVec 64) (relrs : List (BitVec 64)) :
    relrBitmap base w 0 relrs =
      relrs ++ (bits w).map fun j => base + 8 * BitVec.ofNat 64 j := by
  have hshift := relrBitmap_shift base w 63 0 relrs rfl
  rw [BitVec.ushiftRight_zero] at hshift
  rw [hshift, bits, List.range_eq_range']

/-- `parse_relr`, on words. -/
def relrWords (words : List (BitVec 64)) (s : List (BitVec 64) × BitVec 64) :
    List (BitVec 64) × BitVec 64 :=
  words.foldl (fun s w => relrWord w s) s

/-- Bitmap words go on where the one before ends. -/
theorem relrWords_bitmaps (start : BitVec 64) : ∀ (bitmaps : List (BitVec 64)) (m : ℕ)
    (relrs : List (BitVec 64)), (∀ w ∈ bitmaps, w.getLsbD 0 = true) →
      (relrWords bitmaps (relrs, start + BitVec.ofNat 64 (504 * m))).1 =
        relrs ++ (marked m bitmaps).map fun i => start + BitVec.ofNat 64 (8 * i)
  | [], m, relrs, _ => (List.append_nil relrs).symm
  | w :: bitmaps, m, relrs, hodd => by
    have hrest := relrWords_bitmaps start bitmaps (m + 1) (relrs ++ (bits w).map fun j =>
      start + BitVec.ofNat 64 (8 * (63 * m + j))) fun v hv => hodd v (List.mem_cons_of_mem w hv)
    have hword : relrWord w (relrs, start + BitVec.ofNat 64 (504 * m)) =
        (relrs ++ (bits w).map fun j => start + BitVec.ofNat 64 (8 * (63 * m + j)),
          start + BitVec.ofNat 64 (504 * (m + 1))) := by
      rw [relrWord, if_pos (hodd w List.mem_cons_self), relrBitmap_eq]
      refine Prod.ext (congrArg (relrs ++ ·) (List.map_congr_left fun j _ => ?_)) ?_
      · rw [show (8 : BitVec 64) * BitVec.ofNat 64 j = BitVec.ofNat 64 (8 * j) from
          (BitVec.ofNat_mul 8 j).symm, BitVec.add_assoc, ← BitVec.ofNat_add]
        congr 2
        omega
      · show start + BitVec.ofNat 64 (504 * m) + BitVec.ofNat 64 504 = _
        rw [BitVec.add_assoc, ← BitVec.ofNat_add, Nat.mul_succ]
    unfold relrWords at hrest ⊢
    rw [List.foldl_cons, hword, hrest, marked_cons, List.map_append, List.map_map,
      List.append_assoc]
    rfl

theorem relrWords_append (a b : List (BitVec 64)) (s : List (BitVec 64) × BitVec 64) :
    relrWords (a ++ b) s = relrWords b (relrWords a s) :=
  List.foldl_append

/-- The words of a group are decoded to its addresses, whatever the base was. -/
theorem relrWords_entries (g : Group) (s : List (BitVec 64) × BitVec 64) :
    (relrWords g.entries s).1 = s.1 ++ g.addresses := by
  obtain ⟨relrs, base⟩ := s
  have haddress : relrWord g.address (relrs, base) = (relrs ++ [g.address], g.address + 8) := by
    rw [relrWord, if_neg (by rw [g.even]; exact Bool.false_ne_true)]
  have hbitmaps := relrWords_bitmaps (g.address + 8) g.bitmaps 0 (relrs ++ [g.address]) g.odd
  rw [show g.address + 8 + BitVec.ofNat 64 (504 * 0) = g.address + 8 from BitVec.add_zero _]
    at hbitmaps
  have hword : ∀ i, g.address + 8 + BitVec.ofNat 64 (8 * i) =
      g.address + BitVec.ofNat 64 (8 * (1 + i)) := by
    intro i
    rw [Nat.mul_add, BitVec.ofNat_add, ← BitVec.add_assoc]
    rfl
  show (relrWords g.bitmaps (relrWord g.address (relrs, base))).1 = _
  simp only [hword] at hbitmaps
  rw [haddress, hbitmaps, List.append_assoc]
  simp only [Group.addresses, Group.offsets, List.map_cons, List.map_map, Function.comp_def,
    Nat.mul_zero, BitVec.add_zero, List.singleton_append]

theorem relrWords_groups : ∀ (groups : List Group) (s : List (BitVec 64) × BitVec 64),
    (relrWords (groups.flatMap Group.entries) s).1 = s.1 ++ groups.flatMap Group.addresses
  | [], s => (List.append_nil s.1).symm
  | g :: groups, s => by
    rw [List.flatMap_cons, List.flatMap_cons, relrWords_append, relrWords_groups groups,
      relrWords_entries, List.append_assoc]

/-! ## The section -/

/-- A section of packed relocations, and the groups that it is made of. -/
structure RelrSection where
  img : Image
  header : Shdr
  groups : List Group
  type_eq : SectionType.ofWord header.type = .relr
  entsize_eq : header.entsize = 8
  size_eq : header.size.toNat = (groups.flatMap Group.entries).length * 8
  words : ∀ (k : ℕ) (w : BitVec 64), (groups.flatMap Group.entries)[k]? = some w →
    img.word64 (header.offset + BitVec.ofNat 64 k * 8) = some w

namespace RelrSection

variable (sec : RelrSection)

/-- The relocations that the format defines. -/
def addresses : List (BitVec 64) :=
  sec.groups.flatMap Group.addresses

variable {sec}

/-- The loop decodes the words one after the other. -/
theorem yields_forEntries_relr (s : List (BitVec 64) × BitVec 64) :
    Yields (fun n => forEntries sec.header.size sec.header.entsize
      (sec.img.readRelr sec.header) n s) (relrWords (sec.groups.flatMap Group.entries) s) := by
  have hstep : sec.header.entsize.toNat = 8 := by rw [sec.entsize_eq]; rfl
  have hsize : sec.header.size.toNat =
      (sec.groups.flatMap Group.entries).length * sec.header.entsize.toNat := by
    rw [hstep, sec.size_eq]
  have hchain : ∀ k < (sec.groups.flatMap Group.entries).length,
      Yields (fun m => sec.img.readRelr sec.header m (entryOffset sec.header.entsize k)
        (relrWords ((sec.groups.flatMap Group.entries).take k) s))
          (relrWords ((sec.groups.flatMap Group.entries).take (k + 1)) s) := by
    intro k hk
    have hw := List.getElem?_eq_getElem hk
    refine ⟨0, ?_⟩
    show sec.img.readRelr sec.header 0 _ _ = _
    rw [Image.readRelr, entryOffset, sec.entsize_eq, sec.words k _ hw, List.take_add_one, hw,
      relrWords_append]
    rfl
  have hyields := yields_forEntries (@readsEntry_relr sec.img sec.header)
    (fun k => relrWords ((sec.groups.flatMap Group.entries).take k) s) hsize
    (by rw [hstep]; decide) hchain
  rwa [List.take_length] at hyields

/-- `parse_relr` appends the section with the relocations that the format defines. -/
theorem yields_parseSection (uninit : BitVec 64) (name : CString) (link : BitVec 64)
    (sections : List Section) :
    Yields (fun n => sec.img.parseSection uninit n sec.header name link sections)
      (sections ++ [.ofHeader sec.header name (.relrs sec.addresses)]) := by
  have hloop := @yields_forEntries_relr sec ([], uninit)
  have hgrows : Grows fun n => forEntries sec.header.size sec.header.entsize
      (sec.img.readRelr sec.header) n ([], uninit) :=
    grows_forEntries readsEntry_relr _
  simp only [Image.parseSection, sec.type_eq]
  refine (yields_map hgrows).2 ⟨_, hloop, ?_⟩
  rw [relrWords_groups, List.nil_append]
  rfl

/-- A list of addresses of words is what its encoding stands for. -/
theorem addresses_of_encode {l : List (BitVec 64)}
    (hsorted : l.Pairwise (fun a b => a.toNat < b.toNat)) (haligned : ∀ a ∈ l, a.toNat % 8 = 0)
    (hgroups : sec.groups = encode (l.map fun a => a.toNat / 8)) : sec.addresses = l := by
  have hwords : (l.map fun a => a.toNat / 8).Pairwise (· < ·) := by
    refine List.pairwise_map.2 (hsorted.imp_of_mem fun ha hb hlt => ?_)
    have hmoda := haligned _ ha
    have hmodb := haligned _ hb
    omega
  rw [addresses, hgroups, flatMap_addresses_encode hwords, List.map_map]
  refine (List.map_congr_left fun a ha => ?_).trans (List.map_id l)
  have hmod := haligned a ha
  show BitVec.ofNat 64 (8 * (a.toNat / 8)) = a
  rw [Nat.mul_div_cancel' (Nat.dvd_of_mod_eq_zero hmod), BitVec.ofNat_toNat, BitVec.setWidth_eq]

/-- A section of packed relocations is read as the list of addresses that the format defines, which
ascends if its groups do, and which is the list that has been encoded. -/
theorem parse_relr_right (sec : RelrSection) (uninit : BitVec 64) (name : CString)
    (link : BitVec 64) (sections : List Section) :
    (∀ t, Yields (fun n => sec.img.parseSection uninit n sec.header name link sections) t ↔
      t = sections ++ [.ofHeader sec.header name (.relrs sec.addresses)]) ∧
    (Ascending 0 sec.groups → sec.addresses.Pairwise fun a b => a.toNat < b.toNat) ∧
    ∀ l : List (BitVec 64), l.Pairwise (fun a b => a.toNat < b.toNat) →
      (∀ a ∈ l, a.toNat % 8 = 0) → sec.groups = encode (l.map fun a => a.toNat / 8) →
        sec.addresses = l := by
  have hyields := @yields_parseSection sec uninit name link sections
  refine ⟨fun t => ⟨fun ht => ht.unique (parsesSection uninit).grows hyields, ?_⟩,
    fun hascending => (pairwise_addresses hascending).1,
    fun l hsorted haligned hgroups => addresses_of_encode hsorted haligned hgroups⟩
  rintro rfl
  exact hyields

/-- The encoding of four addresses : an address with a bitmap, and an address. -/
def packed : RelrSection where
  img := .ofFile (littleEndian 8 0x1000 ++ littleEndian 8 11 ++ littleEndian 8 0x2000)
    (by simp [length_littleEndian])
  header := ⟨0, 19, 0, 0, 0, 24, 0, 0, 8, 8⟩
  groups := [⟨0x1000, [11], rfl, by simp⟩, ⟨0x2000, [], rfl, nofun⟩]
  type_eq := rfl
  entsize_eq := rfl
  size_eq := rfl
  words k w hw := by
    match k with
    | 0 | 1 | 2 =>
      obtain rfl := Option.some.inj hw
      rfl
    | k + 3 => exact nomatch hw

theorem encode_packed : encode [0x200, 0x201, 0x203, 0x400] =
    [⟨0x1000, [bitmap 0x201 [0x201, 0x203]], rfl, List.forall_mem_singleton.2 (getLsbD_bitmap _ _)⟩,
      ⟨0x2000, [], rfl, nofun⟩] := by
  simp [encode, encodeBitmaps]

theorem parse_relr_packed : packed.addresses = [0x1000, 0x1008, 0x1018, 0x2000] ∧
    packed.addresses.Pairwise fun a b => a.toNat < b.toNat := by
  have hright := parse_relr_right packed 0 [] 0 []
  refine ⟨hright.2.2 [0x1000, 0x1008, 0x1018, 0x2000] (by simp) (by simp) ?_, hright.2.1 ?_⟩
  · exact encode_packed.symm
  · exact ⟨by decide, by decide, by decide, by decide, trivial⟩

end RelrSection

end Arancini.Elf
