import Arancini.Elf.Tables

/-!
# The sections of a file

`sections()` has an object for each section header, at its index, if `parse` returns : each branch
of `parse_section` appends one. A symbol's section is found by its index.

A table loop with an entry size of zero does not end. `parse_right_iff` says exactly when `parse`
ends and its sections are those of the headers.
-/

namespace Arancini.Elf

/-! ## One section -/

section Entries

variable {α σ : Type} {img : Image} {h : Shdr} {link : BitVec 64}

/-- An entry that is copied out of the file. -/
theorem readsEntry_copy {copy : BitVec 64 → Option α} {R : BitVec 64 → Prop}
    (hR : ∀ i, (copy i).isSome ↔ R i) (append : BitVec 64 → α → σ → σ) :
    ReadsEntry (fun (_ : ℕ) i s => Timed.ofOption Failure.fault (copy i) >>= fun e =>
      Timed.ok (append i e s)) R := by
  refine ⟨fun i s => grows_const _, fun i s => halts_const.2 ?_, fun i s => ?_⟩
  · cases copy i <;> nofun
  · simp only [yields_const]
    rw [← hR]
    cases hcopy : copy i with
    | none => exact ⟨fun ⟨_, h⟩ => (nomatch h), fun h => nomatch h⟩
    | some e => exact ⟨fun _ => rfl, fun _ => ⟨append i e s, rfl⟩⟩

/-- An entry of a symbol table is read with its name. -/
theorem readsEntry_symbol : ReadsEntry (img.readSymbol h link) fun i =>
    ∃ sym, img.sym (h.offset + i) = some sym ∧ img.Terminated (link + sym.name.setWidth 64) := by
  have hsome : ∀ {i s sym}, img.sym (h.offset + i) = some sym →
      (fun n => img.readSymbol h link n i s) = fun n =>
        img.readstr n (link + sym.name.setWidth 64) >>= fun name => Timed.ok (s ++
          [⟨name, sym.value, sym.size, sym.shndx.toNat, sym.info, sym.other⟩]) := by
    intro i s sym hsym
    funext n
    unfold Image.readSymbol
    rw [hsym]
    rfl
  have hnone : ∀ {i s}, img.sym (h.offset + i) = none →
      (fun n => img.readSymbol h link n i s) = fun _ => Timed.error Failure.fault := by
    intro i s hsym
    funext n
    unfold Image.readSymbol
    rw [hsym]
    rfl
  refine ⟨fun i s => ?_, fun i s => ?_, fun i s => ?_⟩
  · cases hsym : img.sym (h.offset + i) with
    | none =>
      rw [hnone hsym]
      exact grows_const _
    | some sym =>
      rw [hsome hsym]
      exact grows_map Image.grows_readstr _
  · cases hsym : img.sym (h.offset + i) with
    | none =>
      rw [hnone hsym]
      exact halts_const.2 nofun
    | some sym =>
      rw [hsome hsym]
      exact (halts_map Image.grows_readstr).2 ⟨Image.halts_readstr, nofun⟩
  · cases hsym : img.sym (h.offset + i) with
    | none =>
      simp only [hnone hsym, yields_const]
      exact ⟨fun ⟨_, h⟩ => (nomatch h), fun ⟨_, h, _⟩ => nomatch h⟩
    | some sym =>
      simp only [hsome hsym, yields_map Image.grows_readstr]
      constructor
      · rintro ⟨t, name, hname, -⟩
        exact ⟨sym, rfl, Image.exists_yields_readstr.1 ⟨name, hname⟩⟩
      · rintro ⟨sym', heq, hend⟩
        obtain rfl := Option.some.inj heq
        obtain ⟨name, hname⟩ := Image.exists_yields_readstr.2 hend
        exact ⟨_, name, hname, rfl⟩

theorem readsEntry_rela :
    ReadsEntry (img.readRela h) fun i => img.Readable 24 (h.offset + i) :=
  readsEntry_copy (fun i => by rw [Image.rel, Option.isSome_map, Image.isSome_read]) _

theorem readsEntry_relr :
    ReadsEntry (img.readRelr h) fun i => img.Readable 8 (h.offset + i) :=
  readsEntry_copy (fun i => by rw [Image.word64, Option.isSome_map, Image.isSome_read])
    fun _ => relrWord

theorem readsEntry_stub :
    ReadsEntry (img.readStub h) fun i => img.Readable 16 (h.offset + i) :=
  readsEntry_copy (fun _ => Image.isSome_read) _

end Entries

/-- The entry size that the loop over a section uses, if there is one. -/
def tableStep (h : Shdr) (name : CString) : Option (BitVec 64) :=
  match SectionType.ofWord h.type with
  | .symbolTable | .dynamicSymbolTable | .relocationAddend | .relr => some h.entsize
  | .progbits => if name = cstring ".plt" then some 16 else none
  | _ => none

namespace Image

variable (img : Image)

/-- What is read for an entry is mapped. -/
def EntryReadable (h : Shdr) (link i : BitVec 64) : Prop :=
  match SectionType.ofWord h.type with
  | .symbolTable | .dynamicSymbolTable =>
    ∃ sym, img.sym (h.offset + i) = some sym ∧ img.Terminated (link + sym.name.setWidth 64)
  | .relocationAddend => img.Readable 24 (h.offset + i)
  | .relr => img.Readable 8 (h.offset + i)
  | _ => img.Readable 16 (h.offset + i)

/-- The table of a section, if it is one, can be read. -/
def TableReads (h : Shdr) (name : CString) (link : BitVec 64) : Prop :=
  ∀ step, tableStep h name = some step → Reads h.size step (img.EntryReadable h link)

/-- The section is a table with a size but no entry size, and its first entry can be read. -/
def TableStuck (h : Shdr) (name : CString) (link : BitVec 64) : Prop :=
  ∃ step, tableStep h name = some step ∧ Stuck h.size step (img.EntryReadable h link)

end Image

/-- What the code for a section does. -/
structure ParsesSection (x : ℕ → Timed Failure (List Section)) (h : Shdr) (name : CString)
    (sections : List Section) (stuck reads : Prop) : Prop where
  grows : Grows x
  halts : Halts x ↔ ¬stuck
  yields : (∃ t, Yields x t) ↔ reads
  appends : ∀ t, Yields x t → ∃ contents, t = sections ++ [.ofHeader h name contents]

section ParseSection

variable {img : Image} {h : Shdr} {name : CString} {link : BitVec 64} {sections : List Section}

/-- A table is read, and then its section is appended. -/
theorem parsesSection_table {σ : Type} {step : BitVec 64}
    {body : ℕ → BitVec 64 → σ → Timed Failure σ} {R : BitVec 64 → Prop} {s : σ}
    (hbody : ReadsEntry body R) (hmapped : ∀ i, R i → (img.byte (h.offset + i)).isSome)
    (contents : σ → Contents) :
    ParsesSection (fun n => forEntries h.size step body n s >>= fun t =>
      Timed.ok (sections ++ [.ofHeader h name (contents t)])) h name sections (Stuck h.size step R)
        (Reads h.size step R) := by
  have hgrows : Grows fun n => forEntries h.size step body n s := grows_forEntries hbody s
  refine ⟨grows_map hgrows _, ?_, ?_, fun t ht => ?_⟩
  · rw [halts_map hgrows, halts_forEntries hbody hmapped]
    exact ⟨fun h => h.1, fun h => ⟨h, nofun⟩⟩
  · rw [← exists_yields_forEntries hbody (s := s)]
    simp only [yields_map hgrows]
    exact ⟨fun ⟨_, t, ht, _⟩ => ⟨t, ht⟩, fun ⟨t, ht⟩ => ⟨_, t, ht, rfl⟩⟩
  · obtain ⟨u, -, hu⟩ := (yields_map hgrows).1 ht
    exact ⟨contents u, (Timed.ok.inj hu).symm⟩

theorem parsesSection_plain : ParsesSection (fun _ => Timed.ok (sections ++
    [.ofHeader h name .plain])) h name sections False True := by
  refine ⟨grows_const _, ?_, ?_, fun t ht => ?_⟩
  · exact ⟨fun _ => not_false, fun _ => halts_const.2 nofun⟩
  · exact ⟨fun _ => trivial, fun _ => ⟨_, 0, rfl⟩⟩
  · exact ⟨.plain, (Timed.ok.inj (yields_const.1 ht)).symm⟩

theorem mapped_of_readable {n : ℕ} {a : BitVec 64} (hpos : 0 < n) (hread : img.Readable n a) :
    (img.byte a).isSome := by
  have hfirst := hread 0 hpos
  rwa [Image.add_ofNat_zero] at hfirst

/-- The section of a table. -/
theorem parsesSection_of_step {σ : Type} {step : BitVec 64}
    {body : ℕ → BitVec 64 → σ → Timed Failure σ} {s : σ} {R : BitVec 64 → Prop}
    (hbody : ReadsEntry body R) (hmapped : ∀ i, R i → (img.byte (h.offset + i)).isSome)
    (hstep : tableStep h name = some step) (hentry : img.EntryReadable h link = R)
    (contents : σ → Contents) :
    ParsesSection (fun n => forEntries h.size step body n s >>= fun t =>
      Timed.ok (sections ++ [.ofHeader h name (contents t)])) h name sections
        (img.TableStuck h name link) (img.TableReads h name link) := by
  have hparses := @parsesSection_table img h name sections σ step body R s hbody hmapped contents
  refine ⟨hparses.grows, hparses.halts.trans (not_congr ⟨fun hs => ?_, ?_⟩), hparses.yields.trans
    ⟨fun hr step' hstep' => ?_, fun hr => ?_⟩, hparses.appends⟩
  · exact ⟨step, hstep, hentry ▸ hs⟩
  · rintro ⟨step', hstep', hs⟩
    obtain rfl := Option.some.inj (hstep.symm.trans hstep')
    exact hentry ▸ hs
  · obtain rfl := Option.some.inj (hstep.symm.trans hstep')
    rwa [hentry]
  · have hreads := hr step hstep
    rwa [hentry] at hreads

theorem parsesSection_of_none (hstep : tableStep h name = none) :
    ParsesSection (fun _ => Timed.ok (sections ++ [.ofHeader h name .plain])) h name sections
      (img.TableStuck h name link) (img.TableReads h name link) := by
  have hparses := @parsesSection_plain h name sections
  refine ⟨hparses.grows, hparses.halts.trans (not_congr ⟨False.elim, ?_⟩), hparses.yields.trans
    ⟨fun _ step' hstep' => ?_, fun _ => trivial⟩, hparses.appends⟩
  · rintro ⟨step', hstep', -⟩
    exact nomatch hstep.symm.trans hstep'
  · exact nomatch hstep.symm.trans hstep'

/-- Each branch of `parse_section` appends one section. -/
theorem parsesSection (uninit : BitVec 64) :
    ParsesSection (fun n => img.parseSection uninit n h name link sections) h name sections
      (img.TableStuck h name link) (img.TableReads h name link) := by
  have hsymbols : ∀ i, (∃ sym, img.sym (h.offset + i) = some sym ∧
      img.Terminated (link + sym.name.setWidth 64)) → (img.byte (h.offset + i)).isSome := by
    rintro i ⟨sym, hsym, -⟩
    have hread : (img.read 24 (h.offset + i)).isSome := by
      rw [← Option.isSome_map, ← Image.sym, hsym]
      rfl
    exact mapped_of_readable (by decide) (Image.isSome_read.1 hread)
  have hcopy : ∀ {n}, 0 < n → ∀ i, img.Readable n (h.offset + i) →
      (img.byte (h.offset + i)).isSome := fun hpos i => mapped_of_readable hpos
  cases htype : SectionType.ofWord h.type with
  | symbolTable | dynamicSymbolTable =>
    simp only [Image.parseSection, htype]
    exact parsesSection_of_step readsEntry_symbol hsymbols (by simp only [tableStep, htype])
      (by funext i; simp only [Image.EntryReadable, htype]) .symbols
  | relocationAddend =>
    simp only [Image.parseSection, htype]
    exact parsesSection_of_step readsEntry_rela (hcopy (by decide))
      (by simp only [tableStep, htype]) (by funext i; simp only [Image.EntryReadable, htype])
      .relocations
  | relr =>
    simp only [Image.parseSection, htype]
    exact parsesSection_of_step readsEntry_relr (hcopy (by decide))
      (by simp only [tableStep, htype]) (by funext i; simp only [Image.EntryReadable, htype])
      fun t => .relrs t.1
  | progbits =>
    simp only [Image.parseSection, htype, Image.parseProgbits]
    split_ifs with hname
    · exact parsesSection_of_step readsEntry_stub (hcopy (by decide))
        (by simp only [tableStep, htype, hname, if_true])
        (by funext i; simp only [Image.EntryReadable, htype]) .stubs
    · exact parsesSection_of_none (by simp only [tableStep, htype, hname, if_false])
  | dynamic | nullSection | stringTable | relocation | other =>
    simp only [Image.parseSection, htype]
    exact parsesSection_of_none (by simp only [tableStep, htype])

end ParseSection

end Arancini.Elf
