import Mathlib.Algebra.Group.Nat.Defs
import Mathlib.Data.Nat.Basic
import Arancini.Lib.Timed

/-!
# ELF files in memory

A file is mapped at `elf_data`, and is read by offset from there. What lies around the file may be
mapped or not, and a read of what is not mapped is a fault. Offsets wrap around at 64 bits.

The reader copies the structures of the format out of the file, and its strings up to their end.
-/

namespace Arancini.Elf

/-- What is not read : the exceptions of `elf_reader::parse`, and a fault. -/
inductive Failure
  /-- `invalid magic number`. -/
  | magicNumber
  /-- `only 64-bit elf files are supported`. -/
  | not64Bit
  /-- `invalid elf class`. -/
  | elfClass
  | fault
  deriving DecidableEq

/-- Memory, by offset from `elf_data`. The upper half of the address space is the kernel's. -/
structure Image where
  size : ℕ
  byte : BitVec 64 → Option (BitVec 8)
  inside : ∀ a : BitVec 64, a.toNat < size → (byte a).isSome
  user : ∀ a, byte a = none ∨ byte (a + BitVec.ofNat 64 (2 ^ 63)) = none

namespace Image

/-- A file, with nothing mapped around it. -/
def ofFile (file : List (BitVec 8)) (h : file.length ≤ 2 ^ 63) : Image where
  size := file.length
  byte a := file[a.toNat]?
  inside a ha := by
    rw [List.getElem?_eq_getElem ha]
    rfl
  user a := by
    rw [List.getElem?_eq_none_iff, List.getElem?_eq_none_iff, BitVec.toNat_add,
      BitVec.toNat_ofNat]
    omega

variable (img : Image)

/-! ## Bytes -/

/-- Copy some bytes. -/
def read : ℕ → BitVec 64 → Option (List (BitVec 8))
  | 0, _ => some []
  | n + 1, a => do
    let b ← img.byte a
    let bs ← read n (a + 1)
    return b :: bs

/-- All of these bytes are mapped. -/
def Readable (n : ℕ) (a : BitVec 64) : Prop :=
  ∀ k < n, (img.byte (a + BitVec.ofNat 64 k)).isSome

variable {img}

theorem add_ofNat_zero (a : BitVec 64) : a + BitVec.ofNat 64 0 = a :=
  BitVec.add_zero a

theorem add_ofNat_succ (a : BitVec 64) (k : ℕ) :
    a + BitVec.ofNat 64 (k + 1) = a + 1 + BitVec.ofNat 64 k := by
  rw [Nat.add_comm, BitVec.ofNat_add, ← BitVec.add_assoc]
  rfl

theorem readable_succ {n : ℕ} {a : BitVec 64} :
    img.Readable (n + 1) a ↔ (img.byte a).isSome ∧ img.Readable n (a + 1) := by
  constructor
  · intro h
    refine ⟨?_, fun k hk => ?_⟩
    · have hzero := h 0 (Nat.succ_pos n)
      rwa [add_ofNat_zero] at hzero
    · rw [← add_ofNat_succ]
      exact h (k + 1) (Nat.succ_lt_succ hk)
  · rintro ⟨hfirst, hrest⟩ k hk
    cases k with
    | zero => rwa [add_ofNat_zero]
    | succ k =>
      rw [add_ofNat_succ]
      exact hrest k (Nat.lt_of_succ_lt_succ hk)

/-- One of the two halves is not mapped. -/
theorem unmapped_half {a : BitVec 64} (hlow : (img.byte a).isSome)
    (hhigh : (img.byte (a + BitVec.ofNat 64 (2 ^ 63))).isSome) : False := by
  rcases img.user a with hnone | hnone
  · rw [hnone] at hlow
    exact nomatch hlow
  · rw [hnone] at hhigh
    exact nomatch hhigh

theorem isSome_read : ∀ {n : ℕ} {a : BitVec 64}, (img.read n a).isSome ↔ img.Readable n a
  | 0, _ => ⟨fun _ k hk => absurd hk (Nat.not_lt_zero k), fun _ => rfl⟩
  | n + 1, a => by
    rw [readable_succ, ← isSome_read, read]
    cases img.byte a with
    | none => exact ⟨nofun, fun h => absurd h.1 nofun⟩
    | some b => cases img.read n (a + 1) <;> simp

/-! ## Strings -/

variable (img)

/-- Look for the end of a string. -/
def scan : BitVec 64 × List (BitVec 8) →
    Timed Failure ((BitVec 64 × List (BitVec 8)) ⊕ List (BitVec 8))
  | (a, s) => match img.byte a with
    | none => .error .fault
    | some b => if b = 0 then .ok (.inr s) else .ok (.inl (a + 1, s ++ [b]))

/-- `readstr`. -/
def readstr (fuel : ℕ) (a : BitVec 64) : Timed Failure (List (BitVec 8)) :=
  iterate (fun _ => img.scan) fuel (a, [])

/-- There is an end of a string, before what is not mapped. -/
def Terminated (a : BitVec 64) : Prop :=
  ∃ n, img.byte (a + BitVec.ofNat 64 n) = some 0 ∧ img.Readable n a

end Image

/-! ## Structures -/

/-- A number in little endian. -/
def number : List (BitVec 8) → ℕ
  | [] => 0
  | b :: bs => b.toNat + 256 * number bs

/-- The low `n` bytes of a number. -/
def littleEndian (n v : ℕ) : List (BitVec 8) :=
  (List.range n).map fun k => BitVec.ofNat 8 (v / 256 ^ k)

theorem length_littleEndian (n v : ℕ) : (littleEndian n v).length = n := by
  rw [littleEndian, List.length_map, List.length_range]

/-- The field of `n` bytes at an offset. -/
def field (bs : List (BitVec 8)) (off n : ℕ) : BitVec (8 * n) :=
  BitVec.ofNat _ (number ((bs.drop off).take n))

/-- `Elf64_Ehdr`, without the fields that are not looked at. -/
structure Ehdr where
  type : BitVec 16
  entry : BitVec 64
  phoff : BitVec 64
  shoff : BitVec 64
  phentsize : BitVec 16
  phnum : BitVec 16
  shentsize : BitVec 16
  shnum : BitVec 16
  shstrndx : BitVec 16

/-- `Elf64_Shdr`. -/
structure Shdr where
  name : BitVec 32
  type : BitVec 32
  flags : BitVec 64
  addr : BitVec 64
  offset : BitVec 64
  size : BitVec 64
  link : BitVec 32
  info : BitVec 32
  addralign : BitVec 64
  entsize : BitVec 64

/-- `Elf64_Phdr`. -/
structure Phdr where
  type : BitVec 32
  flags : BitVec 32
  offset : BitVec 64
  vaddr : BitVec 64
  filesz : BitVec 64
  memsz : BitVec 64
  align : BitVec 64

/-- `Elf64_Sym`. -/
structure Sym where
  name : BitVec 32
  info : BitVec 8
  other : BitVec 8
  shndx : BitVec 16
  value : BitVec 64
  size : BitVec 64

/-- `Elf64_Rela`. -/
structure Rel where
  offset : BitVec 64
  info : BitVec 64
  addend : BitVec 64

namespace Image

variable (img : Image)

def ehdr (a : BitVec 64) : Option Ehdr :=
  (img.read 64 a).map fun bs => ⟨field bs 16 2, field bs 24 8, field bs 32 8, field bs 40 8,
    field bs 54 2, field bs 56 2, field bs 58 2, field bs 60 2, field bs 62 2⟩

def shdr (a : BitVec 64) : Option Shdr :=
  (img.read 64 a).map fun bs => ⟨field bs 0 4, field bs 4 4, field bs 8 8, field bs 16 8,
    field bs 24 8, field bs 32 8, field bs 40 4, field bs 44 4, field bs 48 8, field bs 56 8⟩

def phdr (a : BitVec 64) : Option Phdr :=
  (img.read 56 a).map fun bs => ⟨field bs 0 4, field bs 4 4, field bs 8 8, field bs 16 8,
    field bs 32 8, field bs 40 8, field bs 48 8⟩

def sym (a : BitVec 64) : Option Sym :=
  (img.read 24 a).map fun bs => ⟨field bs 0 4, field bs 4 1, field bs 5 1, field bs 6 2,
    field bs 8 8, field bs 16 8⟩

def rel (a : BitVec 64) : Option Rel :=
  (img.read 24 a).map fun bs => ⟨field bs 0 8, field bs 8 8, field bs 16 8⟩

def word32 (a : BitVec 64) : Option (BitVec 32) :=
  (img.read 4 a).map fun bs => field bs 0 4

def word64 (a : BitVec 64) : Option (BitVec 64) :=
  (img.read 8 a).map fun bs => field bs 0 8

end Image

/-! ## The end of a string -/

namespace Image

variable {img : Image} {a : BitVec 64} {s : List (BitVec 8)}

theorem scan_of_none (h : img.byte a = none) : img.scan (a, s) = .error .fault := by
  rw [scan, h]

theorem scan_of_zero (h : img.byte a = some 0) : img.scan (a, s) = .ok (.inr s) := by
  rw [scan, h]
  exact if_pos rfl

theorem scan_of_ne_zero {b : BitVec 8} (h : img.byte a = some b) (hb : b ≠ 0) :
    img.scan (a, s) = .ok (.inl (a + 1, s ++ [b])) := by
  rw [scan, h]
  exact if_neg hb

theorem scan_ne_timeout : img.scan (a, s) ≠ .timeout := by
  cases hbyte : img.byte a with
  | none => exact fun h => nomatch (scan_of_none hbyte).symm.trans h
  | some b =>
    by_cases hb : b = 0
    · exact fun h => nomatch (scan_of_zero (hb ▸ hbyte)).symm.trans h
    · exact fun h => nomatch (scan_of_ne_zero hbyte hb).symm.trans h

theorem scan_eq_inl {t : BitVec 64 × List (BitVec 8)} (h : img.scan (a, s) = .ok (.inl t)) :
    t.1 = a + 1 ∧ (img.byte a).isSome := by
  cases hbyte : img.byte a with
  | none => exact nomatch (scan_of_none hbyte).symm.trans h
  | some b =>
    by_cases hb : b = 0
    · exact nomatch (scan_of_zero (hb ▸ hbyte)).symm.trans h
    · obtain rfl := Sum.inl.inj (Timed.ok.inj ((scan_of_ne_zero hbyte hb).symm.trans h))
      exact ⟨rfl, rfl⟩

theorem grows_scan (t : BitVec 64 × List (BitVec 8)) : Grows fun (_ : ℕ) => img.scan t :=
  grows_const _

theorem grows_readstr : Grows fun n => img.readstr n a :=
  grows_iterate grows_scan _

/-- A string ends at the latest where the upper half begins. -/
theorem halts_readstr : Halts fun n => img.readstr n a := by
  have hround : ∀ j (t : BitVec 64 × List (BitVec 8)),
      t.1 = a + BitVec.ofNat 64 j ∧ (0 < j → (img.byte a).isSome) →
        Halts (fun _ => img.scan t) ∧ ∀ u, Yields (fun _ => img.scan t) (.inl u) →
          u.1 = a + BitVec.ofNat 64 (j + 1) ∧ (0 < j + 1 → (img.byte a).isSome) := by
    rintro j ⟨b, s⟩ ⟨hb, hsome⟩
    obtain rfl : b = a + BitVec.ofNat 64 j := hb
    refine ⟨halts_const.2 scan_ne_timeout, fun u hu => ?_⟩
    obtain ⟨hnext, hmapped⟩ := scan_eq_inl (yields_const.1 hu)
    refine ⟨?_, fun _ => ?_⟩
    · rw [hnext, add_ofNat_succ, BitVec.add_assoc, BitVec.add_assoc,
        BitVec.add_comm (BitVec.ofNat 64 j)]
    · cases j with
      | zero => rwa [add_ofNat_zero] at hmapped
      | succ j => exact hsome (Nat.succ_pos j)
  refine halts_iterate grows_scan (P := fun j t => t.1 = a + BitVec.ofNat 64 j ∧
    (0 < j → (img.byte a).isSome)) (k := 2 ^ 63) hround ?_ (Nat.zero_le _)
    ⟨(add_ofNat_zero a).symm, nofun⟩
  rintro ⟨b, s⟩ u ⟨hb, hsome⟩ hu
  obtain rfl : b = a + BitVec.ofNat 64 (2 ^ 63) := hb
  obtain ⟨-, hmapped⟩ := scan_eq_inl (yields_const.1 hu)
  exact unmapped_half (hsome (by decide)) hmapped

theorem terminated_of_byte (h : img.byte a = some 0) : img.Terminated a := by
  refine ⟨0, ?_, fun k hk => absurd hk (Nat.not_lt_zero k)⟩
  rwa [add_ofNat_zero]

theorem terminated_succ (h : (img.byte a).isSome) (hrest : img.Terminated (a + 1)) :
    img.Terminated a := by
  obtain ⟨n, hzero, hread⟩ := hrest
  refine ⟨n + 1, ?_, readable_succ.2 ⟨h, hread⟩⟩
  rwa [add_ofNat_succ]

/-- A string is read if there is an end of it. -/
theorem exists_yields_readstr : (∃ s, Yields (fun n => img.readstr n a) s) ↔ img.Terminated a := by
  constructor
  · suffices h : ∀ n s t, iterate (fun _ => img.scan) n (a, s) = .ok t → img.Terminated a by
      rintro ⟨t, n, hn⟩
      exact h n [] t hn
    intro n
    induction n generalizing a with
    | zero =>
      intro s t h
      cases h
    | succ n ih =>
      intro s t h
      rw [iterate] at h
      cases hbyte : img.byte a with
      | none =>
        rw [scan_of_none hbyte] at h
        cases h
      | some b =>
        by_cases hb : b = 0
        · exact terminated_of_byte (hb ▸ hbyte)
        · rw [scan_of_ne_zero hbyte hb] at h
          exact terminated_succ (hbyte ▸ rfl) (ih _ t h)
  · rintro ⟨n, hzero, hread⟩
    suffices h : ∀ s, ∃ t, Yields (fun n => iterate (fun _ => img.scan) n (a, s)) t from h []
    induction n generalizing a with
    | zero =>
      rw [add_ofNat_zero] at hzero
      exact fun s => ⟨s, yields_iterate_inr (yields_const.2 (scan_of_zero hzero))⟩
    | succ n ih =>
      intro s
      obtain ⟨hsome, hrest⟩ := readable_succ.1 hread
      obtain ⟨b, hbyte⟩ := Option.isSome_iff_exists.1 hsome
      by_cases hb : b = 0
      · exact ⟨s, yields_iterate_inr (yields_const.2 (scan_of_zero (hb ▸ hbyte)))⟩
      · rw [add_ofNat_succ] at hzero
        obtain ⟨t, ht⟩ := ih hzero hrest (s ++ [b])
        exact ⟨t, yields_iterate_inl grows_scan (yields_const.2 (scan_of_ne_zero hbyte hb)) ht⟩

end Image

end Arancini.Elf
