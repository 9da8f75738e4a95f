import Mathlib.Data.BitVec
import Arancini.Lib.OrderedMap
import Arancini.Txlat.Relocations

/-!
# Where symbols are placed

A loadable segment of the input becomes a part with the data of the file and a part with zeros, and
the parts are found by their end addresses : the part of an address is the one with the first end
behind it. `add_symbol_to_output` defines a symbol relative to the label of its part, and a RELR
relocation is read from the file at an offset relative to the segment of its part.

Whatever part is found, the expression for a symbol denotes its address. There is no part only at
the end of all segments. A segment without file data that begins where another one ends takes the
place of its part. `placement_right_iff` says for which images all symbols and relocations are
right.
-/

namespace Arancini.Txlat

/-- The program header of a loadable segment. -/
structure Segment where
  address : ℕ
  offset : ℤ
  dataSize : ℕ
  memSize : ℕ
  dataSize_le : dataSize ≤ memSize

namespace Segment

variable (seg : Segment)

def dataEnd : ℕ :=
  seg.address + seg.dataSize

def memEnd : ℕ :=
  seg.address + seg.memSize

/-- The segment has a part with zeros. -/
def HasTail : Prop :=
  seg.memSize - seg.dataSize ≠ 0

instance : Decidable seg.HasTail :=
  inferInstanceAs (Decidable (_ ≠ _))

/-- The segments do not overlap. -/
def Apart (seg seg' : Segment) : Prop :=
  seg.memEnd ≤ seg'.address ∨ seg'.memEnd ≤ seg.address

instance : Std.Symm Apart :=
  ⟨fun _ _ => Or.symm⟩

end Segment

/-! ## The end addresses -/

/-- The entries of a segment. -/
def addSegment (ends : List (ℕ × ℕ)) (e : Segment × ℕ) : List (ℕ × ℕ) :=
  let ends := OrderedMap.insert e.1.dataEnd (2 * e.2) ends
  if e.1.HasTail then OrderedMap.insert e.1.memEnd (2 * e.2 + 1) ends else ends

/-- `end_addresses` : the numbers of the parts, by their ends. -/
def endAddresses (segs : List Segment) : List (ℕ × ℕ) :=
  segs.zipIdx.foldl addSegment []

/-! ## Symbols -/

inductive SymbolType
  | notype
  | object
  | func
  | section
  | common
  | tls
  | num
  | gnuIfunc
  | unknown
  deriving DecidableEq

structure Symbol where
  name : Name
  value : ℕ
  size : ℕ
  defined : Bool
  type : SymbolType
  isGlobal : Bool
  isWeak : Bool
  isHidden : Bool
  isInternal : Bool
  isProtected : Bool

/-- What is written to the assembly file. `set` has the number of a segment, the number of its part,
and an offset from the label of the part. `resolver` is the stub of an ifunc. -/
inductive Directive
  | set (name : Name) (segment part : ℕ) (offset : BitVec 64)
  | size (name : Name) (size : ℕ)
  | resolver (name : Name)
  | globl (name : Name)
  | weak (name : Name)
  | type (name : Name) (type : SymbolType)
  | hidden (name : Name)
  | internal (name : Name)
  | protect (name : Name)

def ifuncSuffix : Name :=
  ['_', '_', 'i', 'f', 'u', 'n', 'c']

/-- The directives of the value of a symbol, in part `i`. -/
def valueDirectives (phdr : Segment) (i : ℕ) (name : Name) (sym : Symbol) : List Directive :=
  let offset : BitVec 64 := BitVec.ofNat 64 sym.value - BitVec.ofNat 64 phdr.address -
    BitVec.ofNat 64 (i % 2) * BitVec.ofNat 64 phdr.dataSize
  if sym.type = .gnuIfunc then
    let ifunc := name ++ ifuncSuffix
    (if sym.defined then [.set ifunc (i / 2) (i % 2) offset] else []) ++
      [.type ifunc .func, .hidden ifunc, .resolver name]
  else if sym.defined then [.set name (i / 2) (i % 2) offset, .size name sym.size]
  else []

/-- The directives of binding, type and visibility. -/
def flagDirectives (name : Name) (sym : Symbol) (forceGlobal : Bool) : List Directive :=
  (if forceGlobal || sym.isGlobal then [.globl name]
    else if sym.isWeak then [.weak name] else []) ++
  [.type name (if sym.type = .gnuIfunc then .func else sym.type)] ++
  (if sym.isHidden && !forceGlobal then [.hidden name]
    else if sym.isInternal then [.internal name]
    else if sym.isProtected && !forceGlobal then [.protect name] else [])

/-- `add_symbol_to_output`, with the entry that it puts into `ifuncs`. It fails where it reads
behind the last end. -/
def addSymbolToOutput (phbins : List Segment) (ends : List (ℕ × ℕ)) (sym : Symbol)
    (forceGlobal omitPrefix : Bool) : Option (List Directive × Option (ℕ × Name)) :=
  match OrderedMap.upperBound sym.value ends with
  | none => none
  | some (_, i) =>
    match phbins[i / 2]? with
    | none => none
    | some phdr =>
      let name := if omitPrefix then sym.name else guestPrefix ++ sym.name
      let ifunc := if sym.type = .gnuIfunc then some (sym.value, name) else none
      some (valueDirectives phdr i name sym ++ flagDirectives name sym forceGlobal, ifunc)

/-- The place in the file from which the addend of a RELR relocation is read. -/
def relrOffset (phbins : List Segment) (ends : List (ℕ × ℕ)) (reloc : ℕ) : Option ℤ :=
  match OrderedMap.upperBound reloc ends with
  | none => none
  | some (_, i) => phbins[i / 2]?.map fun phdr => phdr.offset - phdr.address + reloc

/-! ## Right placement -/

/-- The segments of an image, its defined symbols and its RELR relocations. The segments do not
overlap, a symbol may stand at the end of one. -/
structure Image where
  segs : List Segment
  symbols : List Symbol
  relocs : List ℕ
  apart : segs.Pairwise Segment.Apart
  symbol_mem : ∀ sym ∈ symbols, sym.defined = true ∧
    ∃ seg ∈ segs, seg.address ≤ sym.value ∧ sym.value ≤ seg.memEnd
  reloc_mem : ∀ reloc ∈ relocs, ∃ seg ∈ segs, seg.address ≤ reloc ∧ reloc < seg.memEnd

/-- The label of a part is there, and the expression denotes the address. The parts stand one after
the other from the address of the segment on. -/
def Denotes (segs : List Segment) (value segment part : ℕ) (offset : BitVec 64) : Prop :=
  ∃ seg, segs[segment]? = some seg ∧
    ((part = 0 ∧ BitVec.ofNat 64 seg.address + offset = BitVec.ofNat 64 value) ∨
      (part = 1 ∧ seg.HasTail ∧ BitVec.ofNat 64 seg.dataEnd + offset = BitVec.ofNat 64 value))

/-- A symbol is defined, and wherever it is, at its address. -/
def SymbolRight (segs : List Segment) (sym : Symbol) : Prop :=
  ∀ forceGlobal omitPrefix, ∃ directives ifunc,
    addSymbolToOutput segs (endAddresses segs) sym forceGlobal omitPrefix =
      some (directives, ifunc) ∧
    (∃ name segment part offset, .set name segment part offset ∈ directives) ∧
    ∀ name segment part offset, .set name segment part offset ∈ directives →
      Denotes segs sym.value segment part offset

/-- A relocation is read where its segment has it. -/
def RelocRight (segs : List Segment) (reloc : ℕ) : Prop :=
  ∀ seg ∈ segs, seg.address ≤ reloc → reloc < seg.memEnd →
    relrOffset segs (endAddresses segs) reloc = some (seg.offset - seg.address + reloc)

def Image.Right (img : Image) : Prop :=
  (∀ sym ∈ img.symbols, SymbolRight img.segs sym) ∧
    ∀ reloc ∈ img.relocs, RelocRight img.segs reloc

/-- Part `n` ends at an address. -/
def PartEnd (segs : List Segment) (n e : ℕ) : Prop :=
  ∃ seg, segs[n / 2]? = some seg ∧
    ((n % 2 = 0 ∧ e = seg.dataEnd) ∨ (n % 2 = 1 ∧ seg.HasTail ∧ e = seg.memEnd))

/-- It is the last part that ends there. -/
def LastPart (segs : List Segment) (n e : ℕ) : Prop :=
  PartEnd segs n e ∧ ∀ n' > n, ¬PartEnd segs n' e

/-- The end of the part of an address. -/
def Segment.partEnd (seg : Segment) (x : ℕ) : ℕ :=
  if x < seg.dataEnd then seg.dataEnd else seg.memEnd

/-- The last part that ends where the part of a relocation ends belongs to a segment that is as far
from its place in the file. -/
def RelocAgrees (segs : List Segment) (reloc : ℕ) : Prop :=
  ∀ seg ∈ segs, seg.address ≤ reloc → reloc < seg.memEnd →
    ∀ n seg', LastPart segs n (seg.partEnd reloc) → segs[n / 2]? = some seg' →
      seg'.offset - seg'.address = seg.offset - seg.address

/-! ## The entries -/

theorem Segment.dataEnd_le (seg : Segment) : seg.dataEnd ≤ seg.memEnd :=
  Nat.add_le_add_left seg.dataSize_le _

theorem Segment.HasTail.dataEnd_lt {seg : Segment} (h : seg.HasTail) :
    seg.dataEnd < seg.memEnd :=
  Nat.add_lt_add_left (Nat.lt_of_sub_ne_zero h) _

theorem Segment.memEnd_eq {seg : Segment} (h : ¬seg.HasTail) : seg.memEnd = seg.dataEnd := by
  have hle := seg.dataSize_le
  have hzero : seg.memSize - seg.dataSize = 0 := not_not.1 h
  rw [memEnd, dataEnd]
  omega

theorem endAddresses_append (segs : List Segment) (seg : Segment) :
    endAddresses (segs ++ [seg]) = addSegment (endAddresses segs) (seg, segs.length) := by
  rw [endAddresses, List.zipIdx_append, List.foldl_append, Nat.zero_add]
  rfl

theorem sorted_addSegment {ends : List (ℕ × ℕ)} (h : OrderedMap.Sorted ends)
    (e : Segment × ℕ) : OrderedMap.Sorted (addSegment ends e) := by
  rw [addSegment]
  split_ifs
  · exact OrderedMap.sorted_insert (OrderedMap.sorted_insert h)
  · exact OrderedMap.sorted_insert h

theorem sorted_endAddresses (segs : List Segment) : OrderedMap.Sorted (endAddresses segs) := by
  induction segs using List.reverseRecOn with
  | nil => exact .nil
  | append_singleton segs seg ih =>
    rw [endAddresses_append]
    exact sorted_addSegment ih _

theorem mem_addSegment {ends : List (ℕ × ℕ)} (h : OrderedMap.Sorted ends) (seg : Segment)
    (i n e : ℕ) : (e, n) ∈ addSegment ends (seg, i) ↔
      (n = 2 * i ∧ e = seg.dataEnd) ∨ (n = 2 * i + 1 ∧ seg.HasTail ∧ e = seg.memEnd) ∨
        ((e, n) ∈ ends ∧ e ≠ seg.dataEnd ∧ ¬(seg.HasTail ∧ e = seg.memEnd)) := by
  rw [addSegment]
  split_ifs with htail
  · have hlt := htail.dataEnd_lt
    rw [OrderedMap.mem_insert (OrderedMap.sorted_insert h), OrderedMap.mem_insert h]
    simp only [Prod.mk.injEq, htail, true_and]
    constructor
    · rintro (⟨rfl, rfl⟩ | ⟨⟨rfl, rfl⟩ | ⟨hmem, hdata⟩, hmemEnd⟩)
      · exact .inr (.inl ⟨rfl, rfl⟩)
      · exact .inl ⟨rfl, rfl⟩
      · exact .inr (.inr ⟨hmem, hdata, hmemEnd⟩)
    · rintro (⟨rfl, rfl⟩ | ⟨rfl, rfl⟩ | ⟨hmem, hdata, hmemEnd⟩)
      · exact .inr ⟨.inl ⟨rfl, rfl⟩, hlt.ne⟩
      · exact .inl ⟨rfl, rfl⟩
      · exact .inr ⟨.inr ⟨hmem, hdata⟩, hmemEnd⟩
  · rw [OrderedMap.mem_insert h]
    simp only [Prod.mk.injEq, htail, false_and, and_false, false_or, not_false_eq_true, and_true]
    exact or_congr_left and_comm

theorem partEnd_append {segs : List Segment} {seg : Segment} {n e : ℕ} :
    PartEnd (segs ++ [seg]) n e ↔ PartEnd segs n e ∨ (n = 2 * segs.length ∧ e = seg.dataEnd) ∨
      (n = 2 * segs.length + 1 ∧ seg.HasTail ∧ e = seg.memEnd) := by
  constructor
  · rintro ⟨s, hs, hend⟩
    rw [List.getElem?_append] at hs
    split_ifs at hs with hlt
    · exact .inl ⟨s, hs, hend⟩
    · have hone : n / 2 - segs.length < 1 := (List.getElem?_eq_some_iff.1 hs).1
      have hn : n / 2 = segs.length := by omega
      rw [hn, Nat.sub_self] at hs
      obtain rfl := Option.some.inj hs
      refine .inr (hend.imp (fun h => ⟨?_, h.2⟩) fun h => ⟨?_, h.2⟩)
      · omega
      · omega
  · rintro (⟨s, hs, hend⟩ | ⟨rfl, he⟩ | ⟨rfl, htail, he⟩)
    · exact ⟨s, List.getElem?_append_left (List.getElem?_eq_some_iff.1 hs).1 ▸ hs, hend⟩
    · have hn : 2 * segs.length / 2 = segs.length := by omega
      refine ⟨seg, ?_, .inl ⟨Nat.mul_mod_right _ _, he⟩⟩
      rw [hn, List.getElem?_concat_length]
    · have hn : (2 * segs.length + 1) / 2 = segs.length := by omega
      refine ⟨seg, ?_, .inr ⟨by omega, htail, he⟩⟩
      rw [hn, List.getElem?_concat_length]

theorem PartEnd.lt {segs : List Segment} {n e : ℕ} (h : PartEnd segs n e) :
    n < 2 * segs.length := by
  obtain ⟨seg, hseg, -⟩ := h
  have hlt := (List.getElem?_eq_some_iff.1 hseg).1
  omega

/-- The last parts with one more segment. -/
theorem lastPart_append {segs : List Segment} {seg : Segment} {n e : ℕ} :
    LastPart (segs ++ [seg]) n e ↔ (n = 2 * segs.length ∧ e = seg.dataEnd) ∨
      (n = 2 * segs.length + 1 ∧ seg.HasTail ∧ e = seg.memEnd) ∨
        (LastPart segs n e ∧ e ≠ seg.dataEnd ∧ ¬(seg.HasTail ∧ e = seg.memEnd)) := by
  constructor
  · rintro ⟨hend, hlast⟩
    rcases partEnd_append.1 hend with hold | hdata | htail
    · have hn := hold.lt
      refine .inr (.inr ⟨⟨hold, fun n' hn' hend' => ?_⟩, fun he => ?_, fun he => ?_⟩)
      · exact hlast n' hn' (partEnd_append.2 (.inl hend'))
      · exact hlast _ hn (partEnd_append.2 (.inr (.inl ⟨rfl, he⟩)))
      · exact hlast _ (Nat.lt_succ_of_lt hn) (partEnd_append.2 (.inr (.inr ⟨rfl, he⟩)))
    · exact .inl hdata
    · exact .inr (.inl htail)
  · rintro (⟨rfl, he⟩ | ⟨rfl, htail, he⟩ | ⟨⟨hend, hlast⟩, hdata, hmem⟩)
    · refine ⟨partEnd_append.2 (.inr (.inl ⟨rfl, he⟩)), fun n' hn' hend' => ?_⟩
      rcases partEnd_append.1 hend' with hold | ⟨rfl, -⟩ | ⟨-, htail, he'⟩
      · exact absurd hold.lt (Nat.lt_asymm hn')
      · exact absurd hn' (Nat.lt_irrefl _)
      · exact absurd (he.symm.trans he') htail.dataEnd_lt.ne
    · refine ⟨partEnd_append.2 (.inr (.inr ⟨rfl, htail, he⟩)), fun n' hn' hend' => ?_⟩
      rcases partEnd_append.1 hend' with hold | ⟨rfl, -⟩ | ⟨rfl, -⟩
      · have hlt := hold.lt
        omega
      · omega
      · omega
    · refine ⟨partEnd_append.2 (.inl hend), fun n' hn' hend' => ?_⟩
      rcases partEnd_append.1 hend' with hold | ⟨-, he⟩ | ⟨-, he⟩
      · exact hlast n' hn' hold
      · exact hdata he
      · exact hmem he

/-- The entries are the last parts. -/
theorem mem_endAddresses {segs : List Segment} {n e : ℕ} :
    (e, n) ∈ endAddresses segs ↔ LastPart segs n e := by
  induction segs using List.reverseRecOn with
  | nil => exact iff_of_false List.not_mem_nil fun h => by simpa using h.1.lt
  | append_singleton segs seg ih =>
    rw [endAddresses_append, mem_addSegment (sorted_endAddresses segs), ih, lastPart_append]

/-- Where a part ends, there is a last one. -/
theorem PartEnd.exists_last {segs : List Segment} {n e : ℕ} (h : PartEnd segs n e) :
    ∃ n', LastPart segs n' e := by
  induction segs using List.reverseRecOn with
  | nil => exact absurd h.lt (by simp)
  | append_singleton segs seg ih =>
    by_cases hmem : seg.HasTail ∧ e = seg.memEnd
    · exact ⟨_, lastPart_append.2 (.inr (.inl ⟨rfl, hmem⟩))⟩
    · by_cases hdata : e = seg.dataEnd
      · exact ⟨_, lastPart_append.2 (.inl ⟨rfl, hdata⟩)⟩
      · rcases partEnd_append.1 h with hold | ⟨-, he⟩ | ⟨-, he⟩
        · obtain ⟨n', hlast⟩ := ih hold
          exact ⟨n', lastPart_append.2 (.inr (.inr ⟨hlast, hdata, hmem⟩))⟩
        · exact absurd he hdata
        · exact absurd he hmem

/-- The end of the memory of a segment is the end of a part. -/
theorem partEnd_memEnd {segs : List Segment} {seg : Segment} (hseg : seg ∈ segs) :
    ∃ n, PartEnd segs n seg.memEnd := by
  obtain ⟨i, hi⟩ := List.mem_iff_getElem?.1 hseg
  by_cases htail : seg.HasTail
  · have hn : (2 * i + 1) / 2 = i := by omega
    exact ⟨2 * i + 1, seg, hn.symm ▸ hi, .inr ⟨by omega, htail, rfl⟩⟩
  · have hn : 2 * i / 2 = i := by omega
    exact ⟨2 * i, seg, hn.symm ▸ hi, .inl ⟨by omega, Segment.memEnd_eq htail⟩⟩

theorem PartEnd.le_memEnd {segs : List Segment} {n e : ℕ} (h : PartEnd segs n e) :
    ∃ seg ∈ segs, e ≤ seg.memEnd := by
  obtain ⟨seg, hseg, ⟨-, he⟩ | ⟨-, -, he⟩⟩ := h
  · exact ⟨seg, List.mem_of_getElem? hseg, he ▸ seg.dataEnd_le⟩
  · exact ⟨seg, List.mem_of_getElem? hseg, he.le⟩

/-- There is no part exactly behind all segments. -/
theorem upperBound_eq_none_iff {segs : List Segment} {x : ℕ} :
    OrderedMap.upperBound x (endAddresses segs) = none ↔ ∀ seg ∈ segs, seg.memEnd ≤ x := by
  rw [OrderedMap.upperBound_eq_none_iff]
  constructor
  · intro hends seg hseg
    obtain ⟨n, hend⟩ := partEnd_memEnd hseg
    obtain ⟨n', hlast⟩ := hend.exists_last
    exact hends (seg.memEnd, n') (mem_endAddresses.2 hlast)
  · rintro hsegs ⟨e, n⟩ hmem
    obtain ⟨seg, hseg, hle⟩ := (mem_endAddresses.1 hmem).1.le_memEnd
    exact hle.trans (hsegs seg hseg)

/-! ## Symbols -/

/-- The offset from the label of any part leads to the address. -/
theorem denotes_valueDirectives {segs : List Segment} {phdr : Segment} {i e : ℕ}
    (hphdr : segs[i / 2]? = some phdr) (hpart : PartEnd segs i e) {name : Name} {sym : Symbol}
    {name' : Name} {segment part : ℕ} {offset : BitVec 64}
    (hmem : Directive.set name' segment part offset ∈ valueDirectives phdr i name sym) :
    Denotes segs sym.value segment part offset := by
  have hset : segment = i / 2 ∧ part = i % 2 ∧ offset = BitVec.ofNat 64 sym.value -
      BitVec.ofNat 64 phdr.address - BitVec.ofNat 64 (i % 2) * BitVec.ofNat 64 phdr.dataSize := by
    rw [valueDirectives] at hmem
    split_ifs at hmem <;> simp_all
  obtain ⟨rfl, rfl, rfl⟩ := hset
  obtain ⟨seg, hseg, hend⟩ := hpart
  obtain rfl := Option.some.inj (hphdr.symm.trans hseg)
  refine ⟨phdr, hphdr, hend.imp (fun h => ⟨h.1, ?_⟩) fun h => ⟨h.1, h.2.1, ?_⟩⟩
  · rw [h.1, BitVec.zero_mul, BitVec.sub_zero, add_sub_cancel]
  · rw [h.1, BitVec.one_mul, Segment.dataEnd, BitVec.ofNat_add, sub_sub, add_sub_cancel]

theorem exists_set {phdr : Segment} {i : ℕ} {name : Name} {sym : Symbol}
    (hdefined : sym.defined = true) : ∃ name' segment part offset,
      Directive.set name' segment part offset ∈ valueDirectives phdr i name sym := by
  rw [valueDirectives]
  split_ifs
  · exact ⟨_, _, _, _, List.mem_append_left _ (List.mem_singleton_self _)⟩
  · exact ⟨_, _, _, _, List.mem_cons_self⟩

theorem not_mem_flagDirectives {name name' : Name} {sym : Symbol} {forceGlobal : Bool}
    {segment part : ℕ} {offset : BitVec 64} :
    Directive.set name' segment part offset ∉ flagDirectives name sym forceGlobal := by
  rw [flagDirectives]
  split_ifs <;> simp

theorem addSymbolToOutput_eq {segs : List Segment} {ends : List (ℕ × ℕ)} {sym : Symbol}
    {e i : ℕ} {phdr : Segment} (hfind : OrderedMap.upperBound sym.value ends = some (e, i))
    (hphdr : segs[i / 2]? = some phdr) (forceGlobal omitPrefix : Bool) :
    let name := if omitPrefix then sym.name else guestPrefix ++ sym.name
    addSymbolToOutput segs ends sym forceGlobal omitPrefix =
      some (valueDirectives phdr i name sym ++ flagDirectives name sym forceGlobal,
        if sym.type = .gnuIfunc then some (sym.value, name) else none) := by
  rw [addSymbolToOutput, hfind]
  simp only [hphdr]

/-- A symbol is right exactly when a segment ends behind it. -/
theorem symbolRight_iff {segs : List Segment} {sym : Symbol} (hdefined : sym.defined = true) :
    SymbolRight segs sym ↔ ∃ seg ∈ segs, sym.value < seg.memEnd := by
  cases hfind : OrderedMap.upperBound sym.value (endAddresses segs) with
  | none =>
    have hle := upperBound_eq_none_iff.1 hfind
    refine iff_of_false (fun hright => ?_) fun ⟨seg, hseg, hlt⟩ =>
      absurd hlt (hle seg hseg).not_gt
    obtain ⟨directives, ifunc, hadd, -⟩ := hright false false
    rw [addSymbolToOutput, hfind] at hadd
    exact nomatch hadd
  | some entry =>
    obtain ⟨e, i⟩ := entry
    have hsome := (OrderedMap.upperBound_eq_some_iff (sorted_endAddresses segs)).1 hfind
    have hpart := (mem_endAddresses.1 hsome.1).1
    obtain ⟨phdr, hphdr, -⟩ := id hpart
    refine iff_of_true (fun forceGlobal omitPrefix => ?_) ?_
    · have hadd := addSymbolToOutput_eq hfind hphdr forceGlobal omitPrefix
      refine ⟨_, _, hadd, ?_, ?_⟩
      · obtain ⟨name', segment, part, offset, hmem⟩ := exists_set hdefined
        exact ⟨name', segment, part, offset, List.mem_append_left _ hmem⟩
      · intro name' segment part offset hmem
        rcases List.mem_append.1 hmem with hmem | hmem
        · exact denotes_valueDirectives hphdr hpart hmem
        · exact absurd hmem not_mem_flagDirectives
    · obtain ⟨seg, hseg, hle⟩ := hpart.le_memEnd
      exact ⟨seg, hseg, hsome.2.1.trans_le hle⟩

/-! ## Relocations -/

/-- The part of an address ends behind it, and no other part ends between. -/
theorem upperBound_partEnd {segs : List Segment} (hapart : segs.Pairwise Segment.Apart)
    {seg : Segment} (hseg : seg ∈ segs) {x : ℕ} (hle : seg.address ≤ x) (hlt : x < seg.memEnd)
    {n : ℕ}
    (hlast : LastPart segs n (seg.partEnd x)) :
    OrderedMap.upperBound x (endAddresses segs) = some (seg.partEnd x, n) := by
  have hx : x < seg.partEnd x := by
    rw [Segment.partEnd]
    split_ifs with hdata
    · exact hdata
    · exact hlt
  have hend : seg.partEnd x ≤ seg.memEnd := by
    rw [Segment.partEnd]
    split_ifs
    · exact seg.dataEnd_le
    · exact le_rfl
  refine (OrderedMap.upperBound_eq_some_iff (sorted_endAddresses segs)).2
    ⟨mem_endAddresses.2 hlast, hx, ?_⟩
  rintro ⟨e, n'⟩ hmem hxe
  obtain ⟨seg', hseg', he⟩ := (mem_endAddresses.1 hmem).1
  replace hseg' := List.mem_of_getElem? hseg'
  have hrange : seg'.address ≤ e ∧ e ≤ seg'.memEnd := by
    have hdataEnd := seg'.dataEnd_le
    have haddress : seg'.address ≤ seg'.dataEnd := Nat.le_add_right _ _
    rcases he with ⟨-, rfl⟩ | ⟨-, -, rfl⟩
    · exact ⟨haddress, hdataEnd⟩
    · exact ⟨haddress.trans hdataEnd, le_rfl⟩
  by_cases heq : seg = seg'
  · subst heq
    show seg.partEnd x ≤ e
    rw [Segment.partEnd]
    split_ifs with hdata
    · rcases he with ⟨-, rfl⟩ | ⟨-, -, rfl⟩
      · exact le_rfl
      · exact seg.dataEnd_le
    · rcases he with ⟨-, rfl⟩ | ⟨-, -, rfl⟩
      · exact absurd hxe hdata
      · exact le_rfl
  · rcases hapart.forall hseg hseg' heq with habove | hbelow
    · exact hend.trans (habove.trans hrange.1)
    · exact absurd (hrange.2.trans (hbelow.trans hle)) hxe.not_ge

theorem partEnd_partEnd {segs : List Segment} {seg : Segment} (hseg : seg ∈ segs) (x : ℕ) :
    ∃ n, PartEnd segs n (seg.partEnd x) := by
  rw [Segment.partEnd]
  split_ifs
  · obtain ⟨i, hi⟩ := List.mem_iff_getElem?.1 hseg
    have hn : 2 * i / 2 = i := by omega
    exact ⟨2 * i, seg, hn.symm ▸ hi, .inl ⟨by omega, rfl⟩⟩
  · exact partEnd_memEnd hseg

/-- A relocation is right exactly when the segment that is found agrees with its own. -/
theorem relocRight_iff {segs : List Segment} (hapart : segs.Pairwise Segment.Apart) (reloc : ℕ) :
    RelocRight segs reloc ↔ RelocAgrees segs reloc := by
  refine forall₂_congr fun seg hseg => forall₂_congr fun hle hlt => ?_
  obtain ⟨n₀, hend⟩ := partEnd_partEnd hseg reloc
  obtain ⟨n, hlast⟩ := hend.exists_last
  obtain ⟨found, hfound, -⟩ := id hlast.1
  have hoffset : relrOffset segs (endAddresses segs) reloc =
      some (found.offset - found.address + reloc) := by
    rw [relrOffset, upperBound_partEnd hapart hseg hle hlt hlast]
    exact congrArg (Option.map _) hfound
  rw [hoffset]
  constructor
  · intro heq n' seg' hlast' hseg'
    -- There is one last part.
    have hn : n' = n := by
      by_contra hne
      rcases Nat.lt_or_gt_of_ne hne with hlt' | hlt'
      · exact hlast'.2 n hlt' hlast.1
      · exact hlast.2 n' hlt' hlast'.1
    subst hn
    obtain rfl := Option.some.inj (hfound.symm.trans hseg')
    exact add_right_cancel (Option.some.inj heq)
  · intro hagrees
    rw [hagrees n found hlast hfound]

/-- The placement of an image is right exactly when each symbol has the end of a segment behind it
and each relocation agrees with the segment that is found. -/
theorem placement_right_iff (img : Image) : img.Right ↔
    (∀ sym ∈ img.symbols, ∃ seg ∈ img.segs, sym.value < seg.memEnd) ∧
      ∀ reloc ∈ img.relocs, RelocAgrees img.segs reloc :=
  and_congr
    (forall₂_congr fun sym hsym => symbolRight_iff (img.symbol_mem sym hsym).1)
    (forall₂_congr fun reloc _ => relocRight_iff img.apart reloc)

/-- An image with one segment and a symbol at its end. -/
def endSymbol : Image where
  segs := [⟨0x1000, 0, 0x100, 0x200, by decide⟩]
  symbols := [⟨['_', 'e', 'n', 'd'], 0x1200, 0, true, .notype, true, false, false, false, false⟩]
  relocs := []
  apart := List.pairwise_singleton ..
  symbol_mem sym hsym := by
    obtain rfl := List.mem_singleton.1 hsym
    exact ⟨rfl, _, List.mem_singleton_self _, by decide⟩
  reloc_mem _ h := absurd h List.not_mem_nil

/-- No part ends behind the symbol. -/
theorem not_placement_right : ¬endSymbol.Right := by
  intro hright
  obtain ⟨seg, hseg, hlt⟩ :=
    (symbolRight_iff rfl).1 (hright.1 _ (List.mem_singleton_self _))
  obtain rfl := List.mem_singleton.1 hseg
  exact absurd hlt (by decide)

end Arancini.Txlat
