import Arancini.Elf.Sections

/-!
# What `parse` makes of a file

`ElfImage` is a 64-bit ELF file with its headers and their strings in memory. The sizes and the
entry sizes that its section headers state are any.

`parse` ends on it, and its sections are those of the section headers, exactly if the number of
section headers is the one in the ELF header and no table that `parse` comes to has an entry size of
zero (`parse_right_iff`).
-/

namespace Arancini.Elf

/-- A 64-bit ELF file. The headers and the names of the sections are mapped. -/
structure ElfImage extends Image where
  header : Ehdr
  nameTable : Shdr
  sectionHeader : ℕ → Shdr
  sectionName : ℕ → CString
  linkHeader : ℕ → Shdr
  magic : toImage.word32 0 = some 0x464c457f
  cls : byte 4 = some 2
  header_eq : toImage.ehdr 0 = some header
  nameTable_eq : toImage.shdr (header.shoff + header.shentsize.setWidth 64 *
    BitVec.ofNat 64 header.shstrndx.toNat) = some nameTable
  sectionHeader_eq : ∀ i < header.shnum.toNat, toImage.shdr (header.shoff +
    header.shentsize.setWidth 64 * BitVec.ofNat 64 i) = some (sectionHeader i)
  sectionName_eq : ∀ i < header.shnum.toNat, Yields (fun n => toImage.readstr n
    (nameTable.offset + (sectionHeader i).name.setWidth 64)) (sectionName i)
  linkHeader_eq : ∀ i < header.shnum.toNat, toImage.shdr (header.shoff +
    header.shentsize.setWidth 64 * (sectionHeader i).link.setWidth 64) = some (linkHeader i)
  programs : ∀ i < header.phnum.toNat, (toImage.phdr (header.phoff +
    header.phentsize.setWidth 64 * BitVec.ofNat 64 i)).isSome

namespace ElfImage

variable (img : ElfImage)

/-- The number of section headers. If there are too many for `e_shnum`, it is zero, and the size in
the first header is their number. -/
def sectionCount : ℕ :=
  if img.header.shnum = 0 ∧ img.header.shoff ≠ 0 then
    match img.shdr img.header.shoff with
    | some h => h.size.toNat
    | none => 0
  else img.header.shnum.toNat

/-- The section is that of a section header. -/
def Describes (s : Section) (i : ℕ) : Prop :=
  ∃ h name contents, img.shdr (img.header.shoff + img.header.shentsize.setWidth 64 *
      BitVec.ofNat 64 i) = some h ∧
    Yields (fun n => img.readstr n (img.nameTable.offset + h.name.setWidth 64)) name ∧
      s = .ofHeader h name contents

/-- `parse` ends. If it returns, each section header has its section, which is the one that a symbol
with its index lives in. -/
structure ParseRight (uninit : ℕ → BitVec 64) : Prop where
  halts : Halts fun n => img.parse uninit n
  sections : ∀ r, Yields (fun n => img.parse uninit n) r → ∀ i < img.sectionCount,
    ∃ s, r.getSection i = some s ∧ img.Describes s i
  symbols : ∀ r, Yields (fun n => img.parse uninit n) r → ∀ s ∈ r.sections, ∀ l,
    s.contents = .symbols l → ∀ sym ∈ l, 0 < sym.shidx → sym.shidx < img.sectionCount →
      ∃ t, r.getSection sym.shidx = some t ∧ img.Describes t sym.shidx

/-- The table of section `i`, if it is one, can be read. -/
def ReadsAt (i : ℕ) : Prop :=
  img.TableReads (img.sectionHeader i) (img.sectionName i) (img.linkHeader i).offset

/-- Section `i` is a table with a size but no entry size, and its first entry can be read. -/
def StuckAt (i : ℕ) : Prop :=
  img.TableStuck (img.sectionHeader i) (img.sectionName i) (img.linkHeader i).offset

/-- The ELF header states the number of section headers, and no table is stuck, unless a table
before it cannot be read. -/
structure Parsable : Prop where
  count : img.sectionCount ≤ img.header.shnum.toNat
  stuck : ∀ i < img.header.shnum.toNat, img.StuckAt i → ∃ j < i, ¬img.ReadsAt j

end ElfImage

namespace ElfImage

variable {img : ElfImage} {uninit : ℕ → BitVec 64}

/-! ## The loop over the section headers -/

/-- The sections after the first headers. -/
def sectionsUpTo (img : ElfImage) (uninit : ℕ → BitVec 64) (count n : ℕ) :
    Timed Failure (List Section) :=
  (List.range count).foldlM (img.parseSectionAt uninit img.header.shoff
    (img.header.shentsize.setWidth 64) img.nameTable.offset n) []

theorem parsesSectionAt {i : ℕ} (hi : i < img.header.shnum.toNat) (sections : List Section) :
    ParsesSection (fun n => img.parseSectionAt uninit img.header.shoff
      (img.header.shentsize.setWidth 64) img.nameTable.offset n sections i) (img.sectionHeader i)
        (img.sectionName i) sections (img.StuckAt i) (img.ReadsAt i) := by
  have hresult : (fun n => img.parseSectionAt uninit img.header.shoff
      (img.header.shentsize.setWidth 64) img.nameTable.offset n sections i) = fun n =>
        img.readstr n (img.nameTable.offset + (img.sectionHeader i).name.setWidth 64) >>=
          fun name => img.parseSection (uninit i) n (img.sectionHeader i) name
            (img.linkHeader i).offset sections := by
    funext n
    unfold Image.parseSectionAt
    rw [img.sectionHeader_eq i hi]
    show (img.readstr n _ >>= fun name => Timed.ofOption Failure.fault (img.shdr _) >>= _) = _
    rw [img.linkHeader_eq i hi]
    rfl
  have hparses := fun name => @parsesSection img.toImage (img.sectionHeader i) name
    (img.linkHeader i).offset sections (uninit i)
  have hname := img.sectionName_eq i hi
  rw [hresult]
  refine ⟨Image.grows_readstr.bind fun name => (hparses name).grows, ?_, ?_, fun t ht => ?_⟩
  · rw [halts_bind_of_yields Image.grows_readstr (fun name => (hparses name).grows) hname]
    exact (hparses _).halts
  · simp only [yields_bind_of_yields Image.grows_readstr (fun name => (hparses name).grows) hname]
    exact (hparses _).yields
  · rw [yields_bind_of_yields Image.grows_readstr (fun name => (hparses name).grows) hname] at ht
    exact (hparses _).appends t ht

theorem grows_parseSectionAt (sections : List Section) (i : ℕ) :
    Grows fun n => img.parseSectionAt uninit img.header.shoff (img.header.shentsize.setWidth 64)
      img.nameTable.offset n sections i :=
  (grows_const _).bind fun _ => Image.grows_readstr.bind fun _ => (grows_const _).bind fun _ =>
    (parsesSection _).grows

theorem grows_sectionsUpTo (m : ℕ) : Grows fun n => sectionsUpTo img uninit m n :=
  grows_foldlM grows_parseSectionAt _ _

theorem yields_sectionsUpTo_succ {m : ℕ} {t : List Section} :
    Yields (fun n => sectionsUpTo img uninit (m + 1) n) t ↔
      ∃ r, Yields (fun n => sectionsUpTo img uninit m n) r ∧
        Yields (fun n => img.parseSectionAt uninit img.header.shoff
          (img.header.shentsize.setWidth 64) img.nameTable.offset n r m) t := by
  unfold sectionsUpTo
  rw [List.range_succ]
  exact yields_foldlM_concat grows_parseSectionAt

theorem halts_sectionsUpTo_succ {m : ℕ} : Halts (fun n => sectionsUpTo img uninit (m + 1) n) ↔
    Halts (fun n => sectionsUpTo img uninit m n) ∧
      ∀ r, Yields (fun n => sectionsUpTo img uninit m n) r →
        Halts fun n => img.parseSectionAt uninit img.header.shoff
          (img.header.shentsize.setWidth 64) img.nameTable.offset n r m := by
  unfold sectionsUpTo
  rw [List.range_succ]
  exact halts_foldlM_concat grows_parseSectionAt

/-- The first sections are read if the tables among them are. -/
theorem exists_yields_sectionsUpTo {m : ℕ} (hm : m ≤ img.header.shnum.toNat) :
    (∃ t, Yields (fun n => sectionsUpTo img uninit m n) t) ↔ ∀ i < m, img.ReadsAt i := by
  induction m with
  | zero => exact ⟨fun _ => nofun, fun _ => ⟨[], 0, rfl⟩⟩
  | succ m ih =>
    have ih := ih (Nat.le_of_succ_le hm)
    simp only [yields_sectionsUpTo_succ]
    constructor
    · rintro ⟨t, r, hr, ht⟩ i hi
      rcases Nat.lt_succ_iff_lt_or_eq.1 hi with hlt | rfl
      · exact ih.1 ⟨r, hr⟩ i hlt
      · exact (parsesSectionAt hm r).yields.1 ⟨t, ht⟩
    · intro h
      obtain ⟨r, hr⟩ := ih.2 fun i hi => h i (Nat.lt_succ_of_lt hi)
      obtain ⟨t, ht⟩ := (parsesSectionAt hm r).yields.2 (h m (Nat.lt_succ_self m))
      exact ⟨t, r, hr, ht⟩

theorem halts_sectionsUpTo {m : ℕ} (hm : m ≤ img.header.shnum.toNat) :
    Halts (fun n => sectionsUpTo img uninit m n) ↔
      ∀ i < m, (∀ j < i, img.ReadsAt j) → ¬img.StuckAt i := by
  induction m with
  | zero => exact ⟨fun _ => nofun, fun _ => ⟨0, nofun⟩⟩
  | succ m ih =>
    have hle := Nat.le_of_succ_le hm
    rw [halts_sectionsUpTo_succ, ih hle]
    constructor
    · rintro ⟨hbefore, hlast⟩ i hi hreads
      rcases Nat.lt_succ_iff_lt_or_eq.1 hi with hlt | rfl
      · exact hbefore i hlt hreads
      · obtain ⟨r, hr⟩ := (exists_yields_sectionsUpTo hle).2 hreads
        exact (parsesSectionAt hm r).halts.1 (hlast r hr)
    · intro h
      refine ⟨fun i hi => h i (Nat.lt_succ_of_lt hi), fun r hr => ?_⟩
      refine (parsesSectionAt hm r).halts.2 (h m (Nat.lt_succ_self m) ?_)
      exact (exists_yields_sectionsUpTo hle).1 ⟨r, hr⟩

/-- Each header has its section, at its index. -/
theorem sectionsUpTo_describe {m : ℕ} (hm : m ≤ img.header.shnum.toNat) {t : List Section}
    (ht : Yields (fun n => sectionsUpTo img uninit m n) t) : t.length = m ∧ ∀ i < m, ∃ contents,
      t[i]? = some (.ofHeader (img.sectionHeader i) (img.sectionName i) contents) := by
  induction m generalizing t with
  | zero =>
    obtain ⟨n, hn⟩ := ht
    obtain rfl := Timed.ok.inj hn
    exact ⟨rfl, nofun⟩
  | succ m ih =>
    obtain ⟨r, hr, hlast⟩ := yields_sectionsUpTo_succ.1 ht
    obtain ⟨hlength, hfirst⟩ := ih (Nat.le_of_succ_le hm) hr
    obtain ⟨contents, rfl⟩ := (parsesSectionAt hm r).appends t hlast
    refine ⟨by rw [List.length_append, hlength]; rfl, fun i hi => ?_⟩
    rcases Nat.lt_succ_iff_lt_or_eq.1 hi with hlt | rfl
    · rw [List.getElem?_append_left (hlength.symm ▸ hlt)]
      exact hfirst i hlt
    · refine ⟨contents, ?_⟩
      rw [List.getElem?_append_right hlength.le, hlength, Nat.sub_self]
      rfl

/-! ## The whole file -/

theorem parseProgramHeaders_eq_ok (m : ℕ) (hm : m ≤ img.header.phnum.toNat) :
    ∃ headers, img.parseProgramHeaders img.header.phoff m (img.header.phentsize.setWidth 64) =
      .ok headers := by
  induction m with
  | zero => exact ⟨[], rfl⟩
  | succ m ih =>
    obtain ⟨headers, hheaders⟩ := ih (Nat.le_of_succ_le hm)
    obtain ⟨ph, hph⟩ := Option.isSome_iff_exists.1 (img.programs m hm)
    unfold Image.parseProgramHeaders at hheaders ⊢
    rw [List.range_succ, List.foldlM_append, hheaders, Timed.ok_bind, List.foldlM_cons,
      Image.parseProgramHeaderAt, hph]
    exact ⟨_, rfl⟩

/-- `parse` reads the sections and then the program headers. -/
theorem exists_parse_eq : ∃ headers, (fun n => img.parse uninit n) = fun n =>
    sectionsUpTo img uninit img.header.shnum.toNat n >>= fun sections =>
      Timed.ok ⟨img.header.entry, img.header.type, sections, headers⟩ := by
  obtain ⟨headers, hheaders⟩ := parseProgramHeaders_eq_ok _ (Nat.le_refl img.header.phnum.toNat)
  refine ⟨headers, funext fun n => ?_⟩
  have hsections : img.parseSections uninit n img.header.shoff img.header.shnum.toNat
      (img.header.shentsize.setWidth 64) img.header.shstrndx.toNat =
        sectionsUpTo img uninit img.header.shnum.toNat n := by
    unfold Image.parseSections
    rw [img.nameTable_eq]
    rfl
  unfold Image.parse
  rw [img.magic, img.cls, img.header_eq]
  show (img.parseSections uninit n img.header.shoff img.header.shnum.toNat
    (img.header.shentsize.setWidth 64) img.header.shstrndx.toNat >>= fun sections =>
      img.parseProgramHeaders img.header.phoff img.header.phnum.toNat
        (img.header.phentsize.setWidth 64) >>= fun headers => _) = _
  rw [hsections, hheaders]
  rfl

theorem halts_parse_iff : Halts (fun n => img.parse uninit n) ↔
    ∀ i < img.header.shnum.toNat, (∀ j < i, img.ReadsAt j) → ¬img.StuckAt i := by
  obtain ⟨headers, hparse⟩ := @exists_parse_eq img uninit
  rw [hparse, halts_map (grows_sectionsUpTo _), ← halts_sectionsUpTo (Nat.le_refl _)]
  exact ⟨fun h => h.1, fun h => ⟨h, nofun⟩⟩

theorem yields_parse {r : Reader} (h : Yields (fun n => img.parse uninit n) r) :
    Yields (fun n => sectionsUpTo img uninit img.header.shnum.toNat n) r.sections := by
  obtain ⟨headers, hparse⟩ := @exists_parse_eq img uninit
  rw [hparse] at h
  obtain ⟨sections, hsections, hr⟩ := (yields_map (grows_sectionsUpTo _)).1 h
  obtain rfl := Timed.ok.inj hr
  exact hsections

/-- The section of a header that the ELF header counts. -/
theorem describes_of_yields {r : Reader} (h : Yields (fun n => img.parse uninit n) r) {i : ℕ}
    (hi : i < img.header.shnum.toNat) : ∃ s, r.getSection i = some s ∧ img.Describes s i := by
  obtain ⟨-, hdescribe⟩ := sectionsUpTo_describe (Nat.le_refl _) (yields_parse h)
  obtain ⟨contents, hs⟩ := hdescribe i hi
  exact ⟨_, hs, _, _, contents, img.sectionHeader_eq i hi, img.sectionName_eq i hi, rfl⟩

theorem ParseRight.stuck (h : img.ParseRight uninit) {i : ℕ} (hi : i < img.header.shnum.toNat)
    (hstuck : img.StuckAt i) : ∃ j < i, ¬img.ReadsAt j := by
  by_contra hnone
  refine halts_parse_iff.1 h.halts i hi (fun j hj => ?_) hstuck
  by_contra hj'
  exact hnone ⟨j, hj, hj'⟩

/-- A file whose first header states the number of sections has none of them after `parse`. -/
theorem ParseRight.count (h : img.ParseRight uninit) :
    img.sectionCount ≤ img.header.shnum.toNat := by
  by_contra hlt
  have hzero : img.header.shnum = 0 := by
    by_contra hne
    unfold sectionCount at hlt
    rw [if_neg fun hcond => hne hcond.1] at hlt
    exact hlt (Nat.le_refl _)
  have hcount : img.header.shnum.toNat = 0 := by rw [hzero]; rfl
  rw [hcount] at hlt
  obtain ⟨sections, hsections⟩ := (exists_yields_sectionsUpTo (Nat.le_refl _)).2
    (fun i hi => absurd hi (by rw [hcount]; exact Nat.not_lt_zero i) : ∀ i <
      img.header.shnum.toNat, img.ReadsAt i)
  obtain ⟨headers, hparse⟩ := @exists_parse_eq img uninit
  have hyields : Yields (fun n => img.parse uninit n)
      ⟨img.header.entry, img.header.type, sections, headers⟩ := by
    rw [hparse]
    exact (yields_map (grows_sectionsUpTo _)).2 ⟨sections, hsections, rfl⟩
  obtain ⟨hlength, -⟩ := sectionsUpTo_describe (Nat.le_refl _) hsections
  rw [hcount] at hlength
  obtain ⟨s, hs, -⟩ := h.sections _ hyields 0 (Nat.pos_of_ne_zero fun heq => hlt heq.le)
  obtain rfl := List.length_eq_zero_iff.1 hlength
  exact nomatch hs

/-- `parse` ends, with a section for each section header, exactly if the ELF header counts them and
no table that is reached is stuck at its first entry. -/
theorem parse_right_iff (img : ElfImage) (uninit : ℕ → BitVec 64) :
    img.ParseRight uninit ↔ img.Parsable := by
  constructor
  · exact fun h => ⟨h.count, fun i hi hstuck => h.stuck hi hstuck⟩
  · rintro ⟨hcount, hstuck⟩
    refine ⟨halts_parse_iff.2 fun i hi hreads hs => ?_, fun r hr i hi => ?_,
      fun r hr _ _ _ _ sym _ _ hlt => ?_⟩
    · obtain ⟨j, hj, hnot⟩ := hstuck i hi hs
      exact hnot (hreads j hj)
    · exact describes_of_yields hr (hi.trans_le hcount)
    · exact describes_of_yields hr (hlt.trans_le hcount)

/-! ## A symbol table without an entry size -/

/-- A file with a string table and a symbol table of 24 bytes, whose entry size is zero. -/
def zeroEntsizeFile : List (BitVec 8) :=
  [(4, 0x464c457f), (4, 0x010102), (8, 0), (2, 3), (2, 0x3e), (4, 1), (8, 0), (8, 0), (8, 64),
    (4, 0), (2, 64), (2, 56), (2, 0), (2, 64), (2, 3), (2, 1),
    (64, 0),
    (4, 0), (4, 3), (8, 0), (8, 0), (8, 64), (8, 1), (4, 0), (4, 0), (8, 1), (8, 0),
    (4, 0), (4, 2), (8, 0), (8, 0), (8, 64), (8, 24), (4, 1), (4, 0), (8, 8), (8, 0)].flatMap
      fun field => littleEndian field.1 field.2

def zeroEntsizeImage : Image :=
  .ofFile zeroEntsizeFile (by
    simp only [zeroEntsizeFile, List.length_flatMap, length_littleEndian]
    decide)

def strtabHeader : Shdr :=
  ⟨0, 3, 0, 0, 64, 1, 0, 0, 1, 0⟩

def symtabHeader : Shdr :=
  ⟨0, 2, 0, 0, 64, 24, 1, 0, 8, 0⟩

theorem yields_empty : Yields (fun n => zeroEntsizeImage.readstr n 64) [] :=
  yields_iterate_inr (yields_const.2 (Image.scan_of_zero (by decide)))

set_option maxRecDepth 2000 in
def zeroEntsize : ElfImage where
  toImage := zeroEntsizeImage
  header := ⟨3, 0, 0, 64, 56, 0, 64, 3, 1⟩
  nameTable := strtabHeader
  sectionHeader
    | 0 => ⟨0, 0, 0, 0, 0, 0, 0, 0, 0, 0⟩
    | 1 => strtabHeader
    | _ => symtabHeader
  sectionName _ := []
  linkHeader
    | 2 => strtabHeader
    | _ => ⟨0, 0, 0, 0, 0, 0, 0, 0, 0, 0⟩
  magic := rfl
  cls := rfl
  header_eq := rfl
  nameTable_eq := rfl
  sectionHeader_eq i hi := by
    match i with
    | 0 | 1 | 2 => rfl
    | i + 3 => exact absurd hi (Nat.not_lt.2 (Nat.le_add_left 3 i))
  sectionName_eq i hi := by
    match i with
    | 0 | 1 | 2 => exact yields_empty
    | i + 3 => exact absurd hi (Nat.not_lt.2 (Nat.le_add_left 3 i))
  linkHeader_eq i hi := by
    match i with
    | 0 | 1 | 2 => rfl
    | i + 3 => exact absurd hi (Nat.not_lt.2 (Nat.le_add_left 3 i))
  programs i hi := absurd hi (Nat.not_lt_zero i)

/-- The loop over the symbols reads the first one again and again. -/
theorem stuckAt_zeroEntsize : zeroEntsize.StuckAt 2 := by
  refine ⟨0, rfl, rfl, by decide, ⟨0, 0, 0, 0, 0, 0⟩, rfl, ?_⟩
  exact Image.terminated_of_byte (by decide)

theorem not_zeroEntsize_right : ¬zeroEntsize.ParseRight fun _ => 0 := by
  intro h
  obtain ⟨j, hj, hnot⟩ := h.stuck (by decide : 2 < 3) stuckAt_zeroEntsize
  refine hnot ?_
  match j with
  | 0 | 1 => exact fun step hstep => nomatch hstep
  | j + 2 => exact absurd hj (by omega)

end ElfImage

end Arancini.Elf
