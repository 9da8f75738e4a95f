import Mathlib.Algebra.Order.Group.Nat
import Arancini.Elf.Image

/-!
# The ELF reader

`elf_reader::parse` walks over the section headers, and appends an object to its sections for each
of them. The tables of symbols and of relocations, and the stubs of a `.plt`, are read entry by
entry, with the entry size that the header states.
-/

namespace Arancini.Elf

/-! ## Sections -/

/-- `section_type`. -/
inductive SectionType
  | nullSection
  | progbits
  | symbolTable
  | stringTable
  | relocationAddend
  | dynamic
  | relocation
  | dynamicSymbolTable
  | relr
  | other (n : BitVec 32)
  deriving DecidableEq

def SectionType.ofWord (n : BitVec 32) : SectionType :=
  match n.toNat with
  | 0 => nullSection
  | 1 => progbits
  | 2 => symbolTable
  | 3 => stringTable
  | 4 => relocationAddend
  | 6 => dynamic
  | 9 => relocation
  | 11 => dynamicSymbolTable
  | 19 => relr
  | _ => other n

/-- A C string. -/
abbrev CString :=
  List (BitVec 8)

def cstring (s : String) : CString :=
  s.toList.map fun c => BitVec.ofNat 8 c.toNat

/-- `symbol`. -/
structure Symbol where
  name : CString
  value : BitVec 64
  size : BitVec 64
  shidx : ℕ
  info : BitVec 8
  other : BitVec 8

/-- `rela`. -/
structure Rela where
  type : BitVec 32
  addend : BitVec 64
  symbol : BitVec 64
  offset : BitVec 64

/-- What the classes under `section` add to it. -/
inductive Contents
  | plain
  | symbols (l : List Symbol)
  | relocations (l : List Rela)
  | relrs (l : List (BitVec 64))
  | stubs (l : List (BitVec 64 × BitVec 64))

/-- `section`. The data is where the section begins behind `elf_data`. -/
structure Section where
  data : BitVec 64
  address : BitVec 64
  dataSize : BitVec 64
  type : SectionType
  name : CString
  flags : BitVec 32
  offset : BitVec 64
  contents : Contents

/-- The section of a header. -/
def Section.ofHeader (h : Shdr) (name : CString) (contents : Contents) : Section where
  data := h.offset
  address := h.addr
  dataSize := h.size
  type := .ofWord h.type
  name := name
  flags := h.flags.setWidth 32
  offset := h.offset
  contents := contents

/-! ## Tables -/

section Tables

variable {σ : Type}

/-- A round of `for (i = 0; i < size; i += step)`. -/
def forEntry (size step : BitVec 64) (body : ℕ → BitVec 64 → σ → Timed Failure σ) (fuel : ℕ)
    (s : BitVec 64 × σ) : Timed Failure ((BitVec 64 × σ) ⊕ σ) :=
  if s.1 < size then body fuel s.1 s.2 >>= fun t => .ok (.inl (s.1 + step, t))
  else .ok (.inr s.2)

def forEntries (size step : BitVec 64) (body : ℕ → BitVec 64 → σ → Timed Failure σ) (fuel : ℕ)
    (s : σ) : Timed Failure σ :=
  iterate (forEntry size step body) fuel (0, s)

end Tables

namespace Image

variable (img : Image)

/-- Append an entry of a symbol table. -/
def readSymbol (h : Shdr) (link : BitVec 64) (fuel : ℕ) (i : BitVec 64) (symbols : List Symbol) :
    Timed Failure (List Symbol) := do
  let sym ← .ofOption .fault (img.sym (h.offset + i))
  let name ← img.readstr fuel (link + sym.name.setWidth 64)
  return symbols ++ [⟨name, sym.value, sym.size, sym.shndx.toNat, sym.info, sym.other⟩]

/-- Append an entry of a relocation table. -/
def readRela (h : Shdr) (_ : ℕ) (i : BitVec 64) (relas : List Rela) :
    Timed Failure (List Rela) := do
  let r ← .ofOption .fault (img.rel (h.offset + i))
  return relas ++ [⟨r.info.setWidth 32, r.addend, r.info >>> 32, r.offset⟩]

end Image

/-- The relocations of a bitmap word, which is shifted to the right bit by bit. -/
def relrBitmap (base entry : BitVec 64) (j : ℕ) (relrs : List (BitVec 64)) : List (BitVec 64) :=
  if entry >>> 1 = 0 then relrs
  else relrBitmap base (entry >>> 1) (j + 1)
    (if (entry >>> 1).getLsbD 0 then relrs ++ [base + 8 * BitVec.ofNat 64 j] else relrs)
  termination_by entry.toNat
  decreasing_by
    have hne : entry.toNat ≠ 0 := by
      intro h
      obtain rfl : entry = 0 := BitVec.eq_of_toNat_eq h
      contradiction
    rw [BitVec.toNat_ushiftRight, Nat.shiftRight_one]
    omega

/-- A word of `parse_relr` : the relocations so far, and `where`. -/
def relrWord (entry : BitVec 64) : List (BitVec 64) × BitVec 64 → List (BitVec 64) × BitVec 64
  | (relrs, base) =>
    if entry.getLsbD 0 then (relrBitmap base entry 0 relrs, base + 504)
    else (relrs ++ [entry], entry + 8)

namespace Image

variable (img : Image)

def readRelr (h : Shdr) (_ : ℕ) (i : BitVec 64) (s : List (BitVec 64) × BitVec 64) :
    Timed Failure (List (BitVec 64) × BitVec 64) := do
  let entry ← .ofOption .fault (img.word64 (h.offset + i))
  return relrWord entry s

/-- Append a stub : its address, and the slot that it jumps through. -/
def readStub (h : Shdr) (_ : ℕ) (i : BitVec 64) (stubs : List (BitVec 64 × BitVec 64)) :
    Timed Failure (List (BitVec 64 × BitVec 64)) := do
  let e ← .ofOption .fault (img.read 16 (h.offset + i))
  return stubs ++ [(h.addr + i, ((field e 3 1).setWidth 64 <<< 8 ||| (field e 2 1).setWidth 64) +
    (h.addr + i + 6))]

def parseSymbolTable (fuel : ℕ) (h : Shdr) (name : CString) (link : BitVec 64)
    (sections : List Section) : Timed Failure (List Section) := do
  let symbols ← forEntries h.size h.entsize (img.readSymbol h link) fuel []
  return sections ++ [.ofHeader h name (.symbols symbols)]

def parseRelocationAddendTable (fuel : ℕ) (h : Shdr) (name : CString) (sections : List Section) :
    Timed Failure (List Section) := do
  let relas ← forEntries h.size h.entsize (img.readRela h) fuel []
  return sections ++ [.ofHeader h name (.relocations relas)]

/-- `where` is not initialised. -/
def parseRelr (uninit : BitVec 64) (fuel : ℕ) (h : Shdr) (name : CString)
    (sections : List Section) : Timed Failure (List Section) := do
  let relrs ← forEntries h.size h.entsize (img.readRelr h) fuel ([], uninit)
  return sections ++ [.ofHeader h name (.relrs relrs.1)]

def parseProgbits (fuel : ℕ) (h : Shdr) (name : CString) (sections : List Section) :
    Timed Failure (List Section) :=
  if name = cstring ".plt" then do
    let stubs ← forEntries h.size 16 (img.readStub h) fuel []
    return sections ++ [.ofHeader h name (.stubs stubs)]
  else return sections ++ [.ofHeader h name .plain]

def parseDynamic (h : Shdr) (name : CString) (sections : List Section) :
    Timed Failure (List Section) :=
  return sections ++ [.ofHeader h name .plain]

def parseSection (uninit : BitVec 64) (fuel : ℕ) (h : Shdr) (name : CString) (link : BitVec 64)
    (sections : List Section) : Timed Failure (List Section) :=
  match SectionType.ofWord h.type with
  | .symbolTable | .dynamicSymbolTable => img.parseSymbolTable fuel h name link sections
  | .relocationAddend => img.parseRelocationAddendTable fuel h name sections
  | .relr => img.parseRelr uninit fuel h name sections
  | .progbits => img.parseProgbits fuel h name sections
  | .dynamic => parseDynamic h name sections
  | _ => return sections ++ [.ofHeader h name .plain]

/-- A round of `parse_sections`. -/
def parseSectionAt (uninit : ℕ → BitVec 64) (offset size nameTable : BitVec 64) (fuel : ℕ)
    (sections : List Section) (i : ℕ) : Timed Failure (List Section) := do
  let h ← .ofOption .fault (img.shdr (offset + size * BitVec.ofNat 64 i))
  let name ← img.readstr fuel (nameTable + h.name.setWidth 64)
  let link ← .ofOption .fault (img.shdr (offset + size * h.link.setWidth 64))
  img.parseSection (uninit i) fuel h name link.offset sections

def parseSections (uninit : ℕ → BitVec 64) (fuel : ℕ) (offset : BitVec 64) (count : ℕ)
    (size : BitVec 64) (nameTableIndex : ℕ) : Timed Failure (List Section) := do
  let nameTable ← .ofOption .fault (img.shdr (offset + size * BitVec.ofNat 64 nameTableIndex))
  (List.range count).foldlM (img.parseSectionAt uninit offset size nameTable.offset fuel) []

end Image

/-- `program_header`. The offset is cut to 32 bits. -/
structure ProgramHeader where
  type : BitVec 32
  data : BitVec 64
  address : BitVec 64
  dataSize : BitVec 64
  memSize : BitVec 64
  flags : BitVec 32
  offset : BitVec 32
  align : BitVec 64

/-- The fields of `elf_reader` after `parse`. -/
structure Reader where
  entrypoint : BitVec 64
  type : BitVec 16
  sections : List Section
  programHeaders : List ProgramHeader

/-- `get_section`. -/
def Reader.getSection (r : Reader) (index : ℕ) : Option Section :=
  r.sections[index]?

namespace Image

variable (img : Image)

/-- A round of `parse_program_headers`. -/
def parseProgramHeaderAt (offset size : BitVec 64) (headers : List ProgramHeader) (i : ℕ) :
    Timed Failure (List ProgramHeader) := do
  let ph ← .ofOption .fault (img.phdr (offset + size * BitVec.ofNat 64 i))
  return headers ++ [⟨ph.type, ph.offset, ph.vaddr, ph.filesz, ph.memsz, ph.flags,
    ph.offset.setWidth 32, ph.align⟩]

def parseProgramHeaders (offset : BitVec 64) (count : ℕ) (size : BitVec 64) :
    Timed Failure (List ProgramHeader) :=
  (List.range count).foldlM (img.parseProgramHeaderAt offset size) []

/-- `elf_reader::parse`. -/
def parse (uninit : ℕ → BitVec 64) (fuel : ℕ) : Timed Failure Reader := do
  let magic ← .ofOption .fault (img.word32 0)
  if magic ≠ 0x464c457f then .error .magicNumber else do
  let cls ← .ofOption .fault (img.byte 4)
  if cls = 1 then .error .not64Bit else do
  if cls ≠ 2 then .error .elfClass else do
  let e ← .ofOption .fault (img.ehdr 0)
  let sections ← img.parseSections uninit fuel e.shoff e.shnum.toNat (e.shentsize.setWidth 64)
    e.shstrndx.toNat
  let headers ← img.parseProgramHeaders e.phoff e.phnum.toNat (e.phentsize.setWidth 64)
  return ⟨e.entry, e.type, sections, headers⟩

end Image

end Arancini.Elf
