import Arancini.Elf.Plt
import Arancini.Lib.Except

/-!
# Declarations of external functions

The static engine calls an external function by the address of its stub in the `.plt`. `translate`
declares the stubs : for each relocation of a function it looks for the stubs whose slot is the
target of the relocation, and declares them under the name of the symbol.

The reader takes a slot from two bytes of the displacement. `decls_right_iff` says which stubs are
bound to their functions then.
-/

namespace Arancini.Txlat.FunctionDecls

open Elf

/-- What `translate` takes from the sections. -/
structure Collected where
  pltTab : Option (List (BitVec 64 × BitVec 64))
  dynSym : Option (List Elf.Symbol)
  relocations : List (List Elf.Rela)

/-- A round of the loop over the sections, as far as the declarations go. -/
def collectSection (c : Collected) (s : Elf.Section) : Collected :=
  match s.type, s.contents with
  | .progbits, .stubs l => if s.name = cstring ".plt" then { c with pltTab := some l } else c
  | .dynamicSymbolTable, .symbols l => { c with dynSym := some l }
  | .relocationAddend, .relocations l => { c with relocations := c.relocations ++ [l] }
  | _, _ => c

def collect (sections : List Elf.Section) : Collected :=
  sections.foldl collectSection ⟨none, none, []⟩

/-- `is_func`. -/
def isFunc (s : Elf.Symbol) : Bool :=
  s.info &&& 0xf == 2

/-- A declaration : an address, and a name. -/
abbrev Decl :=
  BitVec 64 × CString

/-- The name that a function is declared under. -/
def declName (name : CString) : CString :=
  cstring "__arancini__" ++ name

/-- The declarations for a relocation. The lookup of the symbol is checked. -/
def declare (stubs : List (BitVec 64 × BitVec 64)) (symbols : List Elf.Symbol)
    (decls : List Decl) (r : Elf.Rela) : Except String (List Decl) :=
  match symbols[r.symbol.toNat]? with
  | none => .error "vector::_M_range_check"
  | some sym =>
    if isFunc sym then
      .ok (stubs.foldl (fun decls st =>
        if st.2 = r.offset then decls ++ [(st.1, declName sym.name)] else decls) decls)
    else .ok decls

/-- The declarations that `translate` adds. -/
def functionDecls (noStatic : Bool) (c : Collected) : Except String (List Decl) :=
  match noStatic, c.pltTab, c.dynSym with
  | false, some stubs, some symbols =>
    c.relocations.foldlM (fun decls table => table.foldlM (declare stubs symbols) decls) []
  | _, _, _ => .ok []

/-- A file with a `.plt` of stubs, read by the reader after the sections before it, and dynamic
symbols. It has no other `.plt` behind. -/
structure Binary where
  plt : PltSection
  uninit : BitVec 64
  link : BitVec 64
  before : List Elf.Section
  pltSection : Elf.Section
  after : List Elf.Section
  symbols : List Elf.Symbol
  parsed : Yields (fun n => plt.img.parseSection uninit n plt.header (cstring ".plt") link before)
    (before ++ [pltSection])
  last : ∀ s ∈ after, s.type = .progbits → s.name ≠ cstring ".plt"
  dynSym : (collect (before ++ pltSection :: after)).dynSym = some symbols

namespace Binary

variable (b : Binary)

def collected : Collected :=
  collect (b.before ++ b.pltSection :: b.after)

/-- The address is the target of a relocation of a function with this name. -/
def Targets (slot : BitVec 64) (name : CString) : Prop :=
  ∃ table ∈ b.collected.relocations, ∃ r ∈ table, ∃ sym, b.symbols[r.symbol.toNat]? = some sym ∧
    isFunc sym ∧ r.offset = slot ∧ sym.name = name

/-- The stubs whose slots are targets of relocations of functions are declared, under the names of
these, and no other. -/
def DeclsRight : Prop :=
  ∃ decls, functionDecls false b.collected = .ok decls ∧ ∀ address name, (address, name) ∈ decls ↔
    ∃ k stub symName, b.plt.stubs[k]? = some stub ∧ address = b.plt.address k ∧
      name = declName symName ∧ b.Targets (b.plt.slot k stub) symName

/-- The relocations have symbols, and each stub has a displacement of two bytes, or the functions
relocated to its slot are those relocated to the address that is taken for it. -/
structure Bound : Prop where
  symbols : ∀ table ∈ b.collected.relocations, ∀ r ∈ table, r.symbol.toNat < b.symbols.length
  slots : ∀ k stub, b.plt.stubs[k]? = some stub → stub.displacement.toNat < 2 ^ 16 ∨
    ∀ name, b.Targets (b.plt.decoded k stub) name ↔ b.Targets (b.plt.slot k stub) name

end Binary

/-! ## The loops -/

section Loops

variable {stubs : List (BitVec 64 × BitVec 64)} {symbols : List Elf.Symbol} {decls t : List Decl}
  {r : Elf.Rela} {a : BitVec 64} {name : CString}

theorem mem_foldl_stubs {l : List (BitVec 64 × BitVec 64)} {n : CString} :
    (a, name) ∈ l.foldl (fun decls st =>
        if st.2 = r.offset then decls ++ [(st.1, n)] else decls) decls ↔
      (a, name) ∈ decls ∨ (a, r.offset) ∈ l ∧ name = n := by
  induction l generalizing decls with
  | nil => simp
  | cons st l ih =>
    obtain ⟨a', slot⟩ := st
    rw [List.foldl_cons, ih]
    by_cases hslot : slot = r.offset
    · subst hslot
      rw [if_pos rfl, List.mem_append, List.mem_singleton, Prod.mk.injEq, List.mem_cons,
        Prod.mk.injEq]
      tauto
    · rw [if_neg hslot, List.mem_cons, Prod.mk.injEq]
      have hne : r.offset ≠ slot := fun heq => hslot heq.symm
      tauto

/-- The declarations for a relocation, if it has a symbol. -/
theorem declare_spec (h : declare stubs symbols decls r = .ok t) :
    r.symbol.toNat < symbols.length ∧ ((a, name) ∈ t ↔ (a, name) ∈ decls ∨ ∃ sym,
      symbols[r.symbol.toNat]? = some sym ∧ isFunc sym ∧ (a, r.offset) ∈ stubs ∧
        name = declName sym.name) := by
  unfold declare at h
  cases hsym : symbols[r.symbol.toNat]? with
  | none =>
    rw [hsym] at h
    exact nomatch h
  | some sym =>
    rw [hsym] at h
    dsimp only at h
    refine ⟨(List.getElem?_eq_some_iff.1 hsym).1, ?_⟩
    by_cases hfunc : isFunc sym = true
    · rw [if_pos hfunc] at h
      obtain rfl := Except.ok.inj h
      rw [mem_foldl_stubs]
      refine or_congr_right ⟨fun ⟨hstub, hname⟩ => ⟨sym, rfl, hfunc, hstub, hname⟩, ?_⟩
      rintro ⟨sym', heq, -, hstub, hname⟩
      obtain rfl := Option.some.inj heq
      exact ⟨hstub, hname⟩
    · rw [if_neg hfunc] at h
      obtain rfl := Except.ok.inj h
      refine ⟨.inl, ?_⟩
      rintro (hold | ⟨sym', heq, hfunc', -⟩)
      · exact hold
      · obtain rfl := Option.some.inj heq
        exact absurd hfunc' hfunc

theorem declare_eq_ok (h : r.symbol.toNat < symbols.length) :
    ∃ t, declare stubs symbols decls r = .ok t := by
  unfold declare
  rw [List.getElem?_eq_getElem h]
  dsimp only
  split_ifs
  · exact ⟨_, rfl⟩
  · exact ⟨_, rfl⟩

/-- The loops over the tables and over their relocations are one. -/
theorem functionDecls_eq {c : Collected} (hplt : c.pltTab = some stubs)
    (hsym : c.dynSym = some symbols) :
    functionDecls false c = c.relocations.flatten.foldlM (declare stubs symbols) [] := by
  unfold functionDecls
  rw [hplt, hsym]
  dsimp only
  generalize ([] : List Decl) = decls
  induction c.relocations generalizing decls with
  | nil => rfl
  | cons table tables ih =>
    rw [List.foldlM_cons, List.flatten_cons, List.foldlM_append]
    exact congrArg _ (funext fun t => ih t)

theorem foldlM_declare_spec {l : List Elf.Rela}
    (h : l.foldlM (declare stubs symbols) decls = .ok t) :
    (∀ r ∈ l, r.symbol.toNat < symbols.length) ∧ ((a, name) ∈ t ↔ (a, name) ∈ decls ∨ ∃ r ∈ l,
      ∃ sym, symbols[r.symbol.toNat]? = some sym ∧ isFunc sym ∧ (a, r.offset) ∈ stubs ∧
        name = declName sym.name) := by
  induction l generalizing decls with
  | nil =>
    obtain rfl := Except.ok.inj h
    exact ⟨nofun, .inl, fun h => h.resolve_right fun ⟨_, hr, _⟩ => absurd hr List.not_mem_nil⟩
  | cons r l ih =>
    rw [List.foldlM_cons] at h
    obtain ⟨u, hu, ht⟩ := bind_eq_ok.1 h
    obtain ⟨hsymbol, hfirst⟩ := @declare_spec stubs symbols decls u r a name hu
    obtain ⟨hsymbols, hrest⟩ := ih ht
    refine ⟨List.forall_mem_cons.2 ⟨hsymbol, hsymbols⟩, ?_⟩
    rw [hrest, hfirst, or_assoc, List.exists_mem_cons_iff]

theorem foldlM_declare_eq_ok {l : List Elf.Rela}
    (h : ∀ r ∈ l, r.symbol.toNat < symbols.length) :
    ∃ t, l.foldlM (declare stubs symbols) decls = .ok t := by
  induction l generalizing decls with
  | nil => exact ⟨decls, rfl⟩
  | cons r l ih =>
    obtain ⟨hfirst, hrest⟩ := List.forall_mem_cons.1 h
    obtain ⟨u, hu⟩ := @declare_eq_ok stubs symbols decls r hfirst
    obtain ⟨t, ht⟩ := @ih u hrest
    exact ⟨t, by rw [List.foldlM_cons, hu]; exact ht⟩

end Loops

/-! ## The sections -/

theorem pltTab_foldl_of_ne {after : List Elf.Section} (c : Collected)
    (h : ∀ s ∈ after, s.type = .progbits → s.name ≠ cstring ".plt") :
    (after.foldl collectSection c).pltTab = c.pltTab := by
  induction after generalizing c with
  | nil => rfl
  | cons s after ih =>
    obtain ⟨hfirst, hrest⟩ := List.forall_mem_cons.1 h
    rw [List.foldl_cons, ih _ hrest]
    unfold collectSection
    split
    · next l htype _ => rw [if_neg (hfirst htype)]
    · rfl
    · rfl
    · rfl

namespace Binary

variable {b : Binary}

/-- The last `.plt` is the one that was read. -/
theorem pltTab_collected :
    b.collected.pltTab = some (b.plt.decodedStubs b.plt.stubs.length) := by
  have hsection := b.parsed.unique (parsesSection b.uninit).grows
    (PltSection.yields_parseSection b.uninit b.link b.before)
  have hsection := List.singleton_inj.1 (List.append_cancel_left hsection)
  unfold collected collect
  rw [List.foldl_append, List.foldl_cons, pltTab_foldl_of_ne _ b.last, hsection]
  simp only [collectSection, Section.ofHeader, b.plt.type_eq, if_true]

theorem functionDecls_collected : functionDecls false b.collected =
    b.collected.relocations.flatten.foldlM
      (declare (b.plt.decodedStubs b.plt.stubs.length) b.symbols) [] :=
  functionDecls_eq pltTab_collected b.dynSym

/-- A stub is declared for the functions relocated to the address that is taken for its slot. -/
theorem mem_decls {decls : List Decl} (h : functionDecls false b.collected = .ok decls)
    {a : BitVec 64} {name : CString} : (a, name) ∈ decls ↔ ∃ k stub symName,
      b.plt.stubs[k]? = some stub ∧ a = b.plt.address k ∧ name = declName symName ∧
        b.Targets (b.plt.decoded k stub) symName := by
  rw [functionDecls_collected] at h
  rw [(foldlM_declare_spec h).2]
  constructor
  · rintro (hnil | ⟨r, hr, sym, hsym, hfunc, hstub, rfl⟩)
    · exact absurd hnil List.not_mem_nil
    · obtain ⟨table, htable, hr⟩ := List.mem_flatten.1 hr
      obtain ⟨k, stub, hk, rfl, hoffset⟩ := PltSection.mem_decodedStubs.1 hstub
      exact ⟨k, stub, sym.name, hk, rfl, rfl, table, htable, r, hr, sym, hsym, hfunc, hoffset, rfl⟩
  · rintro ⟨k, stub, -, hk, rfl, rfl, table, htable, r, hr, sym, hsym, hfunc, hoffset, rfl⟩
    refine .inr ⟨r, List.mem_flatten.2 ⟨table, htable, hr⟩, sym, hsym, hfunc, ?_, rfl⟩
    exact PltSection.mem_decodedStubs.2 ⟨k, stub, hk, rfl, hoffset⟩

theorem declName_inj {m n : CString} (h : declName m = declName n) : m = n :=
  List.append_cancel_left h

/-- Functions relocated to the address that is taken for a slot are those relocated to the slot. -/
theorem DeclsRight.slots (h : b.DeclsRight) {k : ℕ} {stub : Stub}
    (hk : b.plt.stubs[k]? = some stub) (name : CString) :
    b.Targets (b.plt.decoded k stub) name ↔ b.Targets (b.plt.slot k stub) name := by
  obtain ⟨decls, hdecls, hright⟩ := h
  have hsame : ∀ {j stub'}, b.plt.stubs[j]? = some stub' → b.plt.address k = b.plt.address j →
      k = j ∧ stub' = stub := by
    intro j stub' hj haddress
    obtain rfl := PltSection.address_inj (List.getElem?_eq_some_iff.1 hk).1
      (List.getElem?_eq_some_iff.1 hj).1 haddress
    exact ⟨rfl, Option.some.inj (hj.symm.trans hk)⟩
  constructor
  · intro htargets
    have hmem := (mem_decls hdecls).2 ⟨k, stub, name, hk, rfl, rfl, htargets⟩
    obtain ⟨j, stub', name', hj, haddress, hname, htargets'⟩ := (hright _ _).1 hmem
    obtain ⟨rfl, rfl⟩ := hsame hj haddress
    rwa [declName_inj hname]
  · intro htargets
    have hmem := (hright _ _).2 ⟨k, stub, name, hk, rfl, rfl, htargets⟩
    obtain ⟨j, stub', name', hj, haddress, hname, htargets'⟩ := (mem_decls hdecls).1 hmem
    obtain ⟨rfl, rfl⟩ := hsame hj haddress
    rwa [declName_inj hname]

/-- The stubs are bound to their functions exactly if the two bytes of each displacement that are
looked at lead to the same functions as the whole of it. -/
theorem decls_right_iff (b : Binary) : b.DeclsRight ↔ b.Bound := by
  constructor
  · intro h
    refine ⟨fun table htable r hr => ?_, fun k stub hk => .inr fun name => h.slots hk name⟩
    obtain ⟨decls, hdecls, -⟩ := h
    rw [functionDecls_collected] at hdecls
    exact (@foldlM_declare_spec _ _ _ _ 0 [] _ hdecls).1 r
      (List.mem_flatten.2 ⟨table, htable, hr⟩)
  · rintro ⟨hsymbols, hslots⟩
    obtain ⟨decls, hdecls⟩ := @foldlM_declare_eq_ok (b.plt.decodedStubs b.plt.stubs.length)
      b.symbols [] b.collected.relocations.flatten fun r hr => by
        obtain ⟨table, htable, hr⟩ := List.mem_flatten.1 hr
        exact hsymbols table htable r hr
    rw [← functionDecls_collected] at hdecls
    refine ⟨decls, hdecls, fun a name => ?_⟩
    rw [mem_decls hdecls]
    refine exists_congr fun k => exists_congr fun stub => exists_congr fun symName =>
      and_congr_right fun hk => and_congr_right fun _ => and_congr_right fun _ => ?_
    rcases hslots k stub hk with hshort | hsame
    · rw [PltSection.decoded, PltSection.slot, decoded_eq_slot hshort]
    · exact hsame symName

/-! ## A stub with a large displacement -/

/-- A stub at 0x1020 that jumps through 0x14008. -/
def farStub : Stub :=
  ⟨0x12fe2, 0, 0xffffffe0⟩

def farPlt : PltSection where
  img := .ofFile farStub.bytes (by decide)
  header := ⟨0, 1, 0, 0x1020, 0, 16, 0, 0, 16, 16⟩
  stubs := [farStub]
  type_eq := rfl
  size_eq := rfl
  bytes k s hs := by
    match k with
    | 0 =>
      obtain rfl := Option.some.inj hs
      rfl
    | k + 1 => exact nomatch hs

/-- `puts`, a function. -/
def puts : Elf.Symbol :=
  ⟨cstring "puts", 0, 0, 0, 0x12, 0⟩

/-- The relocation of its slot. -/
def farRela : Elf.Rela :=
  ⟨7, 0, 0, 0x14008⟩

def farBinary : Binary where
  plt := farPlt
  uninit := 0
  link := 0
  before := [.ofHeader ⟨0, 11, 0, 0, 0, 24, 0, 0, 8, 24⟩ [] (.symbols [puts]),
    .ofHeader ⟨0, 4, 0, 0, 0, 24, 0, 0, 8, 24⟩ [] (.relocations [farRela])]
  pltSection := .ofHeader farPlt.header (cstring ".plt")
    (.stubs (farPlt.decodedStubs farPlt.stubs.length))
  after := []
  symbols := [puts]
  parsed := PltSection.yields_parseSection 0 0 _
  last := nofun
  dynSym := rfl

/-- `puts` is relocated to the slot of the stub. -/
theorem targets_farBinary : farBinary.Targets 0x14008 (cstring "puts") :=
  ⟨[farRela], List.mem_singleton.2 rfl, farRela, List.mem_singleton.2 rfl, puts, rfl, rfl, rfl, rfl⟩

theorem not_farBinary_right : ¬farBinary.DeclsRight := by
  intro h
  have hslot : farPlt.slot 0 farStub = 0x14008 := by decide
  have hdecoded : farPlt.decoded 0 farStub = 0x4008 := by decide
  have htargets := (h.slots (k := 0) rfl (cstring "puts")).2 (hslot ▸ targets_farBinary)
  obtain ⟨table, htable, r, hr, sym, -, -, hoffset, -⟩ := htargets
  obtain rfl := List.mem_singleton.1 htable
  obtain rfl := List.mem_singleton.1 hr
  rw [show farBinary.plt = farPlt from rfl, hdecoded] at hoffset
  exact absurd hoffset (by decide)

end Binary

end Arancini.Txlat.FunctionDecls
