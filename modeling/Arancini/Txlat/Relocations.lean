import Mathlib.Data.List.Basic
import Mathlib.Tactic.Common
import Arancini.Lib.Lanes

/-!
# Relocations of the output

The relocations of the guest are put into the output with a tag in their type : the index of the
symbol, or the addend of an ifunc, is known when the output has been linked. Then `translate` reads
the dynamic symbols of the output and patches each tagged relocation.

The symbols are looked up by their names without the first nine characters, which are `__guest__`
for a symbol of the guest and can be anything for another one, and a name that is not found leads to
the first symbol. `relocations_right_iff` says which outputs are patched right.
-/

namespace Arancini.Txlat

abbrev Name :=
  List Char

abbrev File :=
  ℕ → BitVec 8

/-- `__guest__`. -/
def guestPrefix : Name :=
  ['_', '_', 'g', 'u', 'e', 's', 't', '_', '_']

structure Sym where
  name : Name
  value : BitVec 64

structure Rela where
  type : BitVec 32
  symbol : BitVec 32
  addend : BitVec 64

structure RelaTable where
  fileOffset : ℕ
  relocations : List Rela

/-- The bits of a type that hold the tag. -/
def Rela.transform (r : Rela) : BitVec 32 :=
  r.type &&& 0xf0000000

/-- The type without the tag. -/
def Rela.plainType (r : Rela) : BitVec 32 :=
  r.type &&& ~~~0xf0000000

/-- The relocations with their places in the file, in the order of the loops. -/
def entries (tables : List RelaTable) : List (ℕ × Rela) :=
  tables.flatMap fun table =>
    table.relocations.zipIdx.map fun (r, i) => (table.fileOffset + 24 * i, r)

/-- What `translate` patches : the names of the dynamic symbols of the input, the dynamic symbols of
the output, the names of the stubs of ifuncs, and the tables of the output, which do not overlap. -/
structure Output where
  names : List Name
  symbols : List Sym
  ifuncs : BitVec 64 → Option Name
  tables : List RelaTable
  symbols_lt : symbols.length < 2 ^ 32
  symbols_pos : 0 < symbols.length
  symbol_lt : ∀ e ∈ entries tables, e.2.transform = 0x10000000 → e.2.symbol.toNat < names.length
  ifuncs_prefix : ∀ addend stub, ifuncs addend = some stub → ∃ name, stub = guestPrefix ++ name
  apart : (entries tables).Pairwise fun e e' => e.1 + 24 ≤ e'.1 ∨ e'.1 + 24 ≤ e.1

namespace Output

variable (o : Output)

/-- `guest_symbol_to_index` : the first symbol of a name stays in the map. -/
def symbolIndex (key : Name) : Option ℕ :=
  o.symbols.findIdx? fun s => decide (9 ≤ s.name.length) && s.name.drop 9 == key

/-- `operator[]`, which inserts 0 for a name that is not in the map. -/
def symbolAt (key : Name) : ℕ :=
  (o.symbolIndex key).getD 0

/-- `substr(9)`. -/
def dropPrefix (name : Name) : Except String Name :=
  if name.length < 9 then .error "basic_string::substr" else .ok (name.drop 9)

/-- The name of the symbol of a relocation. -/
def symbolName (r : Rela) : Name :=
  o.names.getD r.symbol.toNat []

end Output

/-- `seekp` and `write`. -/
def writeField {m : ℕ} (a n : ℕ) (v : BitVec m) (file : File) : File :=
  fun x => if a ≤ x ∧ x < a + n then lane 8 (x - a) v else file x

namespace Output

variable (o : Output)

/-- The body of the loops. -/
def patchEntry (a : ℕ) (r : Rela) (file : File) : Except String File :=
  if r.transform = 0x20000000 then
    match dropPrefix ((o.ifuncs r.addend).getD []) with
    | .error msg => .error msg
    | .ok key =>
      let newAddend := ((o.symbols[o.symbolAt key]?).map Sym.value).getD 0
      .ok (writeField (a + 16) 8 newAddend (writeField (a + 8) 4 r.plainType file))
  else if r.transform = 0x10000000 then
    let newSymbol := BitVec.ofNat 32 (o.symbolAt (o.symbolName r))
    .ok (writeField (a + 12) 4 newSymbol (writeField (a + 8) 4 r.plainType file))
  else if r.transform ≠ 0 then .error "Invalid relocation transform type"
  else .ok file

end Output

/-- The loops over the tables and their relocations. -/
def Output.patchEntries (o : Output) : List (ℕ × Rela) → File → Except String File
  | [], file => .ok file
  | (a, r) :: es, file =>
    match o.patchEntry a r file with
    | .error msg => .error msg
    | .ok file => o.patchEntries es file

namespace Output

variable (o : Output)

def patch (file : File) : Except String File :=
  o.patchEntries (entries o.tables) file

end Output

/-! ## Right relocations -/

/-- The bytes of an entry that get a new type and symbol. -/
def typeAndSymbol (type symbol : BitVec 32) (k : ℕ) : Option (BitVec 8) :=
  if 8 ≤ k ∧ k < 12 then some (lane 8 (k - 8) type)
  else if 12 ≤ k ∧ k < 16 then some (lane 8 (k - 12) symbol) else none

/-- The bytes of an entry that get a new type and addend. -/
def typeAndAddend (type : BitVec 32) (addend : BitVec 64) (k : ℕ) : Option (BitVec 8) :=
  if 8 ≤ k ∧ k < 12 then some (lane 8 (k - 8) type)
  else if 16 ≤ k ∧ k < 24 then some (lane 8 (k - 16) addend) else none

/-- An entry has these bytes, and the old ones elsewhere. -/
def EntryIs (a : ℕ) (file file' : File) (bytes : ℕ → Option (BitVec 8)) : Prop :=
  ∀ k < 24, file' (a + k) = (bytes k).getD (file (a + k))

namespace Output

variable (o : Output)

/-- What an entry should be. -/
def EntryRight (a : ℕ) (r : Rela) (file file' : File) : Prop :=
  if r.transform = 0x20000000 then
    ∃ stub s, o.ifuncs r.addend = some stub ∧ s ∈ o.symbols ∧ s.name = stub ∧
      EntryIs a file file' (typeAndAddend r.plainType s.value)
  else if r.transform = 0x10000000 then
    ∃ (i : ℕ) (s : Sym), o.symbols[i]? = some s ∧ s.name = guestPrefix ++ o.symbolName r ∧
      EntryIs a file file' (typeAndSymbol r.plainType (BitVec.ofNat 32 i))
  else r.transform = 0 ∧ EntryIs a file file' fun _ => none

/-- There is nothing that an entry could be. -/
def Unresolvable (r : Rela) : Prop :=
  if r.transform = 0x20000000 then
    ∀ stub, o.ifuncs r.addend = some stub → ∀ s ∈ o.symbols, s.name ≠ stub
  else if r.transform = 0x10000000 then
    ∀ s ∈ o.symbols, s.name ≠ guestPrefix ++ o.symbolName r
  else r.transform ≠ 0

/-- The output is patched right : each entry is what it should be and no other byte has changed, or
an error is reported that there is. -/
def Right (file : File) : Prop :=
  match o.patch file with
  | .ok file' => (∀ e ∈ entries o.tables, o.EntryRight e.1 e.2 file file') ∧
      ∀ x, (∀ e ∈ entries o.tables, x < e.1 ∨ e.1 + 24 ≤ x) → file' x = file x
  | .error _ => ∃ e ∈ entries o.tables, o.Unresolvable e.2

/-- The name is nine characters and then this. -/
def Ends (s : Sym) (name : Name) : Prop :=
  ∃ c : Name, c.length = 9 ∧ s.name = c ++ name

/-- The first symbol that ends so. -/
def First (i : ℕ) (s : Sym) (name : Name) : Prop :=
  o.symbols[i]? = some s ∧ Ends s name ∧
    ∀ j < i, ∀ t, o.symbols[j]? = some t → ¬Ends t name

/-- The first symbol of the output that ends with the name is the one of the guest, or has the value
of the stub. -/
def Resolves (r : Rela) : Prop :=
  if r.transform = 0x20000000 then
    ∃ name i t s, o.ifuncs r.addend = some (guestPrefix ++ name) ∧ o.First i t name ∧
      s ∈ o.symbols ∧ s.name = guestPrefix ++ name ∧ s.value = t.value
  else if r.transform = 0x10000000 then
    ∃ i s, o.First i s (o.symbolName r) ∧ s.name = guestPrefix ++ o.symbolName r
  else r.transform = 0

/-- The relocation has no known tag, or is of an ifunc that is not there. -/
def Rejected (r : Rela) : Prop :=
  if r.transform = 0x20000000 then o.ifuncs r.addend = none
  else r.transform ≠ 0x10000000 ∧ r.transform ≠ 0

end Output

/-! ## Looking up names -/

theorem length_guestPrefix : guestPrefix.length = 9 :=
  rfl

theorem ends_guestPrefix {s : Sym} {name : Name} (h : s.name = guestPrefix ++ name) :
    Output.Ends s name :=
  ⟨guestPrefix, rfl, h⟩

theorem ends_iff (s : Sym) (name : Name) :
    (decide (9 ≤ s.name.length) && s.name.drop 9 == name) = true ↔ Output.Ends s name := by
  rw [Bool.and_eq_true, decide_eq_true_iff, beq_iff_eq]
  constructor
  · rintro ⟨hlength, rfl⟩
    exact ⟨s.name.take 9, List.length_take_of_le hlength, (List.take_append_drop 9 _).symm⟩
  · rintro ⟨c, hc, hname⟩
    rw [hname, List.length_append, hc, ← hc, List.drop_left]
    exact ⟨Nat.le_add_right _ _, rfl⟩

namespace Output

variable {o : Output}

theorem symbolIndex_eq_some_iff {key : Name} {i : ℕ} :
    o.symbolIndex key = some i ↔ ∃ s, o.First i s key := by
  rw [symbolIndex, List.findIdx?_eq_some_iff_getElem]
  constructor
  · rintro ⟨hi, hends, hbefore⟩
    refine ⟨o.symbols[i], List.getElem?_eq_getElem hi, (ends_iff _ _).1 hends, ?_⟩
    intro j hj t ht hends'
    obtain ⟨hlt, rfl⟩ := List.getElem?_eq_some_iff.1 ht
    exact hbefore j hj ((ends_iff _ _).2 hends')
  · rintro ⟨s, hs, hends, hbefore⟩
    obtain ⟨hi, rfl⟩ := List.getElem?_eq_some_iff.1 hs
    refine ⟨hi, (ends_iff _ _).2 hends, fun j hj hends' => ?_⟩
    exact hbefore j hj _ (List.getElem?_eq_getElem _) ((ends_iff _ _).1 hends')

theorem First.symbolAt {key : Name} {i : ℕ} {s : Sym} (h : o.First i s key) :
    o.symbolAt key = i := by
  rw [Output.symbolAt, symbolIndex_eq_some_iff.2 ⟨s, h⟩]
  rfl

/-- A name that a symbol ends with is found. -/
theorem exists_first {s : Sym} (hs : s ∈ o.symbols) {key : Name} (h : Ends s key) :
    ∃ i t, o.First i t key := by
  cases hindex : o.symbolIndex key with
  | some i => exact ⟨i, symbolIndex_eq_some_iff.1 hindex⟩
  | none =>
    have hnone := List.findIdx?_eq_none_iff.1 hindex s hs
    rw [(ends_iff s key).2 h] at hnone
    exact nomatch hnone

theorem symbolAt_lt (key : Name) : o.symbolAt key < 2 ^ 32 := by
  rw [symbolAt]
  cases hindex : o.symbolIndex key with
  | none => exact Nat.two_pow_pos 32
  | some i =>
    obtain ⟨s, hs, -⟩ := symbolIndex_eq_some_iff.1 hindex
    exact (List.getElem?_eq_some_iff.1 hs).1.trans o.symbols_lt

end Output

/-! ## Bytes -/

/-- New bytes in an entry. -/
def overlay (a : ℕ) (bytes : ℕ → Option (BitVec 8)) (file : File) : File :=
  fun x => if a ≤ x then (bytes (x - a)).getD (file x) else file x

theorem overlay_add (a : ℕ) (bytes : ℕ → Option (BitVec 8)) (file : File) (k : ℕ) :
    overlay a bytes file (a + k) = (bytes k).getD (file (a + k)) := by
  rw [overlay, if_pos (Nat.le_add_right a k), Nat.add_sub_cancel_left]

theorem overlay_outside {a : ℕ} {bytes : ℕ → Option (BitVec 8)}
    (hbytes : ∀ k, 24 ≤ k → bytes k = none) (file : File) {x : ℕ} (hx : x < a ∨ a + 24 ≤ x) :
    overlay a bytes file x = file x := by
  rcases hx with hlt | hle
  · exact if_neg (Nat.not_le.2 hlt)
  · obtain ⟨k, rfl⟩ := Nat.exists_eq_add_of_le ((Nat.le_add_right a 24).trans hle)
    rw [overlay_add, hbytes k (Nat.le_of_add_le_add_left hle)]
    rfl

theorem typeAndSymbol_outside (type symbol : BitVec 32) (k : ℕ) (hk : 24 ≤ k) :
    typeAndSymbol type symbol k = none := by
  rw [typeAndSymbol, if_neg (by omega), if_neg (by omega)]

theorem typeAndAddend_outside (type : BitVec 32) (addend : BitVec 64) (k : ℕ) (hk : 24 ≤ k) :
    typeAndAddend type addend k = none := by
  rw [typeAndAddend, if_neg (by omega), if_neg (by omega)]

theorem writeField_symbol (a : ℕ) (type symbol : BitVec 32) (file : File) :
    writeField (a + 12) 4 symbol (writeField (a + 8) 4 type file) =
      overlay a (typeAndSymbol type symbol) file := by
  funext x
  unfold writeField overlay typeAndSymbol
  have hsub : x - (a + 12) = x - a - 12 ∧ x - (a + 8) = x - a - 8 := by omega
  rw [hsub.1, hsub.2]
  split_ifs <;> first | rfl | omega

theorem writeField_addend (a : ℕ) (type : BitVec 32) (addend : BitVec 64) (file : File) :
    writeField (a + 16) 8 addend (writeField (a + 8) 4 type file) =
      overlay a (typeAndAddend type addend) file := by
  funext x
  unfold writeField overlay typeAndAddend
  have hsub : x - (a + 16) = x - a - 16 ∧ x - (a + 8) = x - a - 8 := by omega
  rw [hsub.1, hsub.2]
  split_ifs <;> first | rfl | omega

/-- An entry has one symbol. -/
theorem EntryIs.symbol_eq {a : ℕ} {file file' : File} {type symbol symbol' : BitVec 32}
    (h : EntryIs a file file' (typeAndSymbol type symbol))
    (h' : EntryIs a file file' (typeAndSymbol type symbol')) : symbol = symbol' := by
  refine eq_of_lane_eq (w := 8) (k := 4) rfl fun i hi => ?_
  have hbyte := (h (12 + i) (by omega)).symm.trans (h' (12 + i) (by omega))
  have hlow : ¬(8 ≤ 12 + i ∧ 12 + i < 12) := by omega
  have hin : 12 ≤ 12 + i ∧ 12 + i < 16 := by omega
  simpa only [typeAndSymbol, if_neg hlow, if_pos hin, Nat.add_sub_cancel_left,
    Option.getD_some] using hbyte

/-- An entry has one addend. -/
theorem EntryIs.addend_eq {a : ℕ} {file file' : File} {type : BitVec 32}
    {addend addend' : BitVec 64} (h : EntryIs a file file' (typeAndAddend type addend))
    (h' : EntryIs a file file' (typeAndAddend type addend')) : addend = addend' := by
  refine eq_of_lane_eq (w := 8) (k := 8) rfl fun i hi => ?_
  have hbyte := (h (16 + i) (by omega)).symm.trans (h' (16 + i) (by omega))
  have hlow : ¬(8 ≤ 16 + i ∧ 16 + i < 12) := by omega
  have hin : 16 ≤ 16 + i ∧ 16 + i < 24 := by omega
  simpa only [typeAndAddend, if_neg hlow, if_pos hin, Nat.add_sub_cancel_left,
    Option.getD_some] using hbyte

namespace Output

variable {o : Output}

/-- The value that is written for the stub of an ifunc. -/
def stubValue (o : Output) (key : Name) : BitVec 64 :=
  ((o.symbols[o.symbolAt key]?).map Sym.value).getD 0

/-- The bytes that are written for a relocation. -/
def newBytes (o : Output) (r : Rela) : Except String (ℕ → Option (BitVec 8)) :=
  if r.transform = 0x20000000 then
    (dropPrefix ((o.ifuncs r.addend).getD [])).map fun key =>
      typeAndAddend r.plainType (o.stubValue key)
  else if r.transform = 0x10000000 then
    .ok (typeAndSymbol r.plainType (BitVec.ofNat 32 (o.symbolAt (o.symbolName r))))
  else if r.transform ≠ 0 then .error "Invalid relocation transform type"
  else .ok fun _ => none

theorem patchEntry_eq (a : ℕ) (r : Rela) (file : File) :
    o.patchEntry a r file = (o.newBytes r).map fun bytes => overlay a bytes file := by
  rw [patchEntry, newBytes]
  split_ifs with hifunc hsymbol htag
  · cases dropPrefix ((o.ifuncs r.addend).getD []) with
    | error msg => rfl
    | ok key => exact congrArg Except.ok (writeField_addend a _ _ file)
  · exact congrArg Except.ok (writeField_symbol a _ _ file)
  · rfl
  · exact congrArg Except.ok (funext fun x => (ite_self (file x)).symm)

theorem newBytes_outside {r : Rela} {bytes : ℕ → Option (BitVec 8)}
    (h : o.newBytes r = .ok bytes) (k : ℕ) (hk : 24 ≤ k) : bytes k = none := by
  rw [newBytes] at h
  split_ifs at h with hifunc hsymbol htag
  · cases hkey : dropPrefix ((o.ifuncs r.addend).getD []) with
    | error msg =>
      rw [hkey] at h
      exact nomatch h
    | ok key =>
      rw [hkey] at h
      obtain rfl := Except.ok.inj h
      exact typeAndAddend_outside _ _ k hk
  · obtain rfl := Except.ok.inj h
    exact typeAndSymbol_outside _ _ k hk
  · obtain rfl := Except.ok.inj h
    rfl

/-- An ifunc that is known has a name that can be cut. -/
theorem dropPrefix_stub {addend : BitVec 64} {stub : Name} (h : o.ifuncs addend = some stub) :
    ∃ name, stub = guestPrefix ++ name ∧
      dropPrefix ((o.ifuncs addend).getD []) = .ok name := by
  obtain ⟨name, rfl⟩ := o.ifuncs_prefix addend stub h
  refine ⟨name, rfl, ?_⟩
  have hlength : ¬(guestPrefix ++ name).length < 9 := by
    rw [List.length_append, length_guestPrefix]
    omega
  rw [h, Option.getD_some, dropPrefix, if_neg hlength]
  rfl

theorem dropPrefix_none {addend : BitVec 64} (h : o.ifuncs addend = none) :
    dropPrefix ((o.ifuncs addend).getD []) = .error "basic_string::substr" := by
  rw [h]
  rfl

/-- The relocations for which an exception is thrown. -/
theorem newBytes_error_iff (r : Rela) : (∃ msg, o.newBytes r = .error msg) ↔ o.Rejected r := by
  rw [newBytes, Rejected]
  split_ifs with hifunc hsymbol htag
  · cases hstub : o.ifuncs r.addend with
    | none => exact iff_of_true ⟨_, by rw [← hstub, dropPrefix_none hstub]; rfl⟩ rfl
    | some stub =>
      obtain ⟨name, -, hkey⟩ := dropPrefix_stub hstub
      refine iff_of_false ?_ (Option.some_ne_none stub)
      rintro ⟨msg, hmsg⟩
      rw [← hstub, hkey] at hmsg
      exact nomatch hmsg
  · exact iff_of_false (fun ⟨_, h⟩ => nomatch h) fun h => h.1 hsymbol
  · exact iff_of_true ⟨_, rfl⟩ ⟨hsymbol, htag⟩
  · exact iff_of_false (fun ⟨_, h⟩ => nomatch h) fun h => htag h.2

/-! ## All entries -/

/-- What the loops leave : each entry has its new bytes, and no other byte has changed. -/
theorem patchEntries_ok {es : List (ℕ × Rela)}
    (hapart : es.Pairwise fun e e' => e.1 + 24 ≤ e'.1 ∨ e'.1 + 24 ≤ e.1) {file file' : File}
    (h : o.patchEntries es file = .ok file') :
    (∀ e ∈ es, ∃ bytes, o.newBytes e.2 = .ok bytes ∧ EntryIs e.1 file file' bytes) ∧
      ∀ x, (∀ e ∈ es, x < e.1 ∨ e.1 + 24 ≤ x) → file' x = file x := by
  induction es generalizing file with
  | nil =>
    obtain rfl := Except.ok.inj h
    exact ⟨fun _ he => absurd he List.not_mem_nil, fun _ _ => rfl⟩
  | cons e es ih =>
    obtain ⟨a, r⟩ := e
    obtain ⟨hhead, hrest⟩ := List.pairwise_cons.1 hapart
    rw [patchEntries, patchEntry_eq] at h
    cases hbytes : o.newBytes r with
    | error msg =>
      rw [hbytes] at h
      exact nomatch h
    | ok bytes =>
      have htail : o.patchEntries es (overlay a bytes file) = .ok file' := by
        rw [hbytes] at h
        exact h
      obtain ⟨hentries, hkept⟩ := ih hrest htail
      have hout : ∀ x, x < a ∨ a + 24 ≤ x → overlay a bytes file x = file x := fun x hx =>
        overlay_outside (newBytes_outside hbytes) file hx
      refine ⟨List.forall_mem_cons.2 ⟨⟨bytes, hbytes, fun k hk => ?_⟩, fun e he => ?_⟩,
        fun x hx => ?_⟩
      · -- The other entries do not touch this one.
        have hfar : ∀ e ∈ es, a + k < e.1 ∨ e.1 + 24 ≤ a + k := fun e he => by
          have hapart := hhead e he
          omega
        rw [hkept _ hfar, overlay_add]
      · obtain ⟨bytes', hbytes', his⟩ := hentries e he
        refine ⟨bytes', hbytes', fun k hk => ?_⟩
        have hapart := hhead e he
        rw [his k hk, hout _ (by omega)]
      · obtain ⟨hx, hxs⟩ := List.forall_mem_cons.1 hx
        rw [hkept x hxs, hout x hx]

/-- The loops end with an exception exactly when some relocation is rejected. -/
theorem patchEntries_error_iff (es : List (ℕ × Rela)) (file : File) :
    (∃ msg, o.patchEntries es file = .error msg) ↔ ∃ e ∈ es, o.Rejected e.2 := by
  induction es generalizing file with
  | nil => exact iff_of_false (fun ⟨_, h⟩ => nomatch h) fun ⟨_, he, _⟩ => absurd he List.not_mem_nil
  | cons e es ih =>
    obtain ⟨a, r⟩ := e
    rw [List.exists_mem_cons_iff, ← newBytes_error_iff, patchEntries, patchEntry_eq]
    cases o.newBytes r with
    | error msg => exact iff_of_true ⟨msg, rfl⟩ (.inl ⟨msg, rfl⟩)
    | ok bytes =>
      have hnot : ¬∃ msg, (Except.ok bytes : Except String _) = .error msg :=
        fun ⟨_, h⟩ => nomatch h
      exact (ih _).trans (or_iff_right hnot).symm

/-! ## Right entries -/

theorem Rejected.unresolvable {r : Rela} (h : o.Rejected r) : o.Unresolvable r := by
  rw [Rejected] at h
  rw [Unresolvable]
  split_ifs at h ⊢ with hifunc hsymbol
  · exact fun stub hstub => nomatch h.symm.trans hstub
  · exact absurd hsymbol h.1
  · exact h.2

theorem entryRight_symbol_iff {a : ℕ} {r : Rela} {file file' : File}
    (h : EntryIs a file file'
      (typeAndSymbol r.plainType (BitVec.ofNat 32 (o.symbolAt (o.symbolName r))))) :
    (∃ (i : ℕ) (s : Sym), o.symbols[i]? = some s ∧ s.name = guestPrefix ++ o.symbolName r ∧
      EntryIs a file file' (typeAndSymbol r.plainType (BitVec.ofNat 32 i))) ↔
    ∃ i s, o.First i s (o.symbolName r) ∧ s.name = guestPrefix ++ o.symbolName r := by
  constructor
  · rintro ⟨i, s, hs, hname, his⟩
    obtain ⟨j, t, hfirst⟩ := exists_first (List.mem_of_getElem? hs) (ends_guestPrefix hname)
    have hlt : i < 2 ^ 32 := (List.getElem?_eq_some_iff.1 hs).1.trans o.symbols_lt
    have heq : i = o.symbolAt (o.symbolName r) := by
      have htoNat := congrArg BitVec.toNat (his.symbol_eq h)
      rwa [BitVec.toNat_ofNat, BitVec.toNat_ofNat, Nat.mod_eq_of_lt hlt,
        Nat.mod_eq_of_lt (symbolAt_lt _)] at htoNat
    obtain rfl := heq.trans hfirst.symbolAt
    obtain rfl := Option.some.inj (hs.symm.trans hfirst.1)
    exact ⟨i, s, hfirst, hname⟩
  · rintro ⟨i, s, hfirst, hname⟩
    rw [hfirst.symbolAt] at h
    exact ⟨i, s, hfirst.1, hname, h⟩

theorem First.stubValue {name : Name} {i : ℕ} {s : Sym} (h : o.First i s name) :
    o.stubValue name = s.value := by
  rw [Output.stubValue, h.symbolAt, h.1]
  rfl

theorem entryRight_ifunc_iff {a : ℕ} {r : Rela} {file file' : File} {name : Name}
    (hname : o.ifuncs r.addend = some (guestPrefix ++ name))
    (h : EntryIs a file file' (typeAndAddend r.plainType (o.stubValue name))) :
    (∃ stub s, o.ifuncs r.addend = some stub ∧ s ∈ o.symbols ∧ s.name = stub ∧
      EntryIs a file file' (typeAndAddend r.plainType s.value)) ↔
    ∃ name i t s, o.ifuncs r.addend = some (guestPrefix ++ name) ∧ o.First i t name ∧
      s ∈ o.symbols ∧ s.name = guestPrefix ++ name ∧ s.value = t.value := by
  constructor
  · rintro ⟨stub, s, hstub, hs, rfl, his⟩
    obtain hsname := Option.some.inj (hstub.symm.trans hname)
    obtain ⟨i, t, hfirst⟩ := exists_first hs (ends_guestPrefix hsname)
    exact ⟨name, i, t, s, hname, hfirst, hs, hsname,
      (his.addend_eq h).trans hfirst.stubValue⟩
  · rintro ⟨name', i, t, s, hname', hfirst, hs, hsname, hvalue⟩
    obtain rfl := List.append_cancel_left (Option.some.inj (hname'.symm.trans hname))
    rw [hfirst.stubValue, ← hvalue] at h
    exact ⟨_, s, hname, hs, hsname, h⟩

theorem entryRight_iff {a : ℕ} {r : Rela} {file file' : File}
    {bytes : ℕ → Option (BitVec 8)} (hbytes : o.newBytes r = .ok bytes)
    (h : EntryIs a file file' bytes) : o.EntryRight a r file file' ↔ o.Resolves r := by
  rw [newBytes] at hbytes
  rw [EntryRight, Resolves]
  split_ifs at hbytes ⊢ with hifunc hsymbol htag
  · cases hstub : o.ifuncs r.addend with
    | none =>
      rw [dropPrefix_none hstub] at hbytes
      exact nomatch hbytes
    | some stub =>
      obtain ⟨name, rfl, hkey⟩ := dropPrefix_stub hstub
      rw [hkey] at hbytes
      obtain rfl := Except.ok.inj hbytes
      rw [← hstub]
      exact entryRight_ifunc_iff hstub h
  · obtain rfl := Except.ok.inj hbytes
    exact entryRight_symbol_iff h
  · obtain rfl := Except.ok.inj hbytes
    exact and_iff_left h

/-- Where no exception is thrown, each relocation has to resolve. -/
theorem right_of_ok {file file' : File} (hpatch : o.patch file = .ok file') :
    o.Right file ↔ ∀ e ∈ entries o.tables, o.Resolves e.2 := by
  obtain ⟨hentries, hkept⟩ := patchEntries_ok o.apart hpatch
  rw [Right, hpatch]
  refine (and_iff_left hkept).trans (forall₂_congr fun e he => ?_)
  obtain ⟨bytes, hbytes, his⟩ := hentries e he
  exact entryRight_iff hbytes his

end Output

/-- An output is patched right exactly when a relocation is rejected or each of them resolves. -/
theorem relocations_right_iff (o : Output) (file : File) : o.Right file ↔
    (∃ e ∈ entries o.tables, o.Rejected e.2) ∨ ∀ e ∈ entries o.tables, o.Resolves e.2 := by
  have herror := Output.patchEntries_error_iff (o := o) (entries o.tables) file
  cases hpatch : o.patch file with
  | error msg =>
    obtain ⟨e, he, hrejected⟩ := herror.1 ⟨msg, hpatch⟩
    rw [Output.Right, hpatch]
    exact iff_of_true ⟨e, he, hrejected.unresolvable⟩ (.inl ⟨e, he, hrejected⟩)
  | ok file' =>
    have hnot : ¬∃ e ∈ entries o.tables, o.Rejected e.2 := by
      intro hrejected
      obtain ⟨msg, hmsg⟩ := herror.2 hrejected
      exact nomatch hpatch.symm.trans hmsg
    rw [Output.right_of_ok hpatch, or_iff_right hnot]

/-- A relocation of `open`, in an output with another symbol that ends so. -/
def sameEnd : Output where
  names := [[], ['o', 'p', 'e', 'n']]
  symbols := [⟨[], 0⟩,
    ⟨['_', 'I', 'O', '_', 'f', 'i', 'l', 'e', '_', 'o', 'p', 'e', 'n'], 0x1000⟩,
    ⟨guestPrefix ++ ['o', 'p', 'e', 'n'], 0x2000⟩]
  ifuncs _ := none
  tables := [⟨0, [⟨0x10000006, 1, 0⟩]⟩]
  symbols_lt := by decide
  symbols_pos := by decide
  symbol_lt e he _ := by
    obtain rfl := List.mem_singleton.1 he
    decide
  ifuncs_prefix _ _ h := nomatch h
  apart := List.pairwise_singleton ..

/-- The relocation gets the other symbol. -/
theorem not_relocations_right : ¬sameEnd.Right fun _ => 0 := by
  intro hright
  have hpatch : ∃ file', sameEnd.patch (fun _ => 0) = .ok file' := ⟨_, rfl⟩
  obtain ⟨file', hpatch⟩ := hpatch
  have hresolves : sameEnd.Resolves ⟨0x10000006, 1, 0⟩ :=
    (Output.right_of_ok hpatch).1 hright (0, _) (List.mem_singleton_self _)
  obtain ⟨i, s, hfirst, hname⟩ := hresolves
  have hi : 1 = i := hfirst.symbolAt
  subst hi
  obtain rfl := Option.some.inj hfirst.1
  exact absurd hname (by decide)

end Arancini.Txlat
