import Arancini.Elf.Sections

/-!
# The stubs of a `.plt`

A stub jumps through a slot of the GOT, which it addresses relative to the instruction behind the
jump. `parse_progbits` takes the slot from the two low bytes of the displacement
(`yields_parseSection`).
-/

namespace Arancini.Elf

/-- A stub : a jump through the slot, the index of its relocation, and a jump to the first entry. -/
structure Stub where
  displacement : BitVec 32
  index : BitVec 32
  jump : BitVec 32

/-- The 16 bytes of a stub. -/
def Stub.bytes (s : Stub) : List (BitVec 8) :=
  [0xff, 0x25] ++ littleEndian 4 s.displacement.toNat ++ [0x68] ++ littleEndian 4 s.index.toNat ++
    [0xe9] ++ littleEndian 4 s.jump.toNat

/-- A `.plt` that is made of stubs. -/
structure PltSection where
  img : Image
  header : Shdr
  stubs : List Stub
  type_eq : SectionType.ofWord header.type = .progbits
  size_eq : header.size.toNat = stubs.length * 16
  bytes : ∀ (k : ℕ) (s : Stub), stubs[k]? = some s →
    img.read 16 (header.offset + BitVec.ofNat 64 k * 16) = some s.bytes

namespace PltSection

variable (p : PltSection)

/-- Where a stub is. -/
def address (k : ℕ) : BitVec 64 :=
  p.header.addr + BitVec.ofNat 64 k * 16

/-- The slot that a stub jumps through. -/
def slot (k : ℕ) (s : Stub) : BitVec 64 :=
  p.address k + 6 + s.displacement.signExtend 64

/-- The slot that is taken for it. -/
def decoded (k : ℕ) (s : Stub) : BitVec 64 :=
  p.address k + 6 + (s.displacement.setWidth 16).setWidth 64

/-- `stubs()`, for the first stubs. -/
def decodedStubs (n : ℕ) : List (BitVec 64 × BitVec 64) :=
  ((p.stubs.take n).zipIdx).map fun s => (p.address s.2, p.decoded s.2 s.1)

end PltSection

/-- A field of one byte. -/
theorem field_of_take {bs : List (BitVec 8)} {off : ℕ} {b : BitVec 8}
    (h : (bs.drop off).take 1 = [b]) : field bs off 1 = b := by
  unfold field
  rw [h]
  exact BitVec.ofNat_toNat 8 b

/-- The two low bytes of a displacement are put together. -/
theorem field_displacement (s : Stub) :
    (field s.bytes 3 1).setWidth 64 <<< 8 ||| (field s.bytes 2 1).setWidth 64 =
      (s.displacement.setWidth 16).setWidth 64 := by
  have hlow : field s.bytes 2 1 = s.displacement.setWidth 8 := by
    have hbyte : (s.bytes.drop 2).take 1 = [BitVec.ofNat 8 (s.displacement.toNat / 256 ^ 0)] := rfl
    refine (field_of_take hbyte).trans ?_
    rw [Nat.pow_zero, Nat.div_one, BitVec.ofNat_toNat]
  have hhigh : field s.bytes 3 1 = (s.displacement >>> 8).setWidth 8 := by
    have hbyte : (s.bytes.drop 3).take 1 = [BitVec.ofNat 8 (s.displacement.toNat / 256 ^ 1)] := rfl
    refine (field_of_take hbyte).trans ?_
    refine BitVec.eq_of_toNat_eq ?_
    rw [BitVec.toNat_ofNat, BitVec.toNat_setWidth, BitVec.toNat_ushiftRight,
      Nat.shiftRight_eq_div_pow]
    rfl
  rw [hlow, hhigh]
  ext i hi
  simp only [BitVec.getElem_or, BitVec.getElem_shiftLeft, BitVec.getElem_setWidth,
    BitVec.getLsbD_setWidth, BitVec.getLsbD_ushiftRight]
  grind

/-- A slot is found exactly if the displacement has no other bytes. -/
theorem decoded_eq_slot {d : BitVec 32} (h : d.toNat < 2 ^ 16) :
    (d.setWidth 16).setWidth 64 = d.signExtend 64 := by
  have hmsb : d.msb = false := by
    rw [BitVec.msb_eq_false_iff_two_mul_lt]
    omega
  rw [BitVec.signExtend_eq_setWidth_of_msb_false hmsb]
  refine BitVec.eq_of_toNat_eq ?_
  rw [BitVec.toNat_setWidth, BitVec.toNat_setWidth, BitVec.toNat_setWidth, Nat.mod_eq_of_lt h]

namespace PltSection

variable {p : PltSection}

/-- Stubs lie at different addresses. -/
theorem address_inj {j k : ℕ} (hj : j < p.stubs.length) (hk : k < p.stubs.length)
    (h : p.address j = p.address k) : j = k := by
  have hsize := p.size_eq ▸ p.header.size.isLt
  have hmul : BitVec.ofNat 64 j * 16 = BitVec.ofNat 64 k * 16 := by
    simpa [address] using h
  have hnat := congrArg BitVec.toNat hmul
  rw [BitVec.toNat_mul, BitVec.toNat_mul, BitVec.toNat_ofNat, BitVec.toNat_ofNat,
    Nat.mod_mul_mod, Nat.mod_mul_mod, show (16 : BitVec 64).toNat = 16 from rfl,
    Nat.mod_eq_of_lt (by omega), Nat.mod_eq_of_lt (by omega)] at hnat
  omega

theorem decodedStubs_succ {k : ℕ} {s : Stub} (h : p.stubs[k]? = some s) :
    p.decodedStubs (k + 1) = p.decodedStubs k ++ [(p.address k, p.decoded k s)] := by
  obtain ⟨hlt, -⟩ := List.getElem?_eq_some_iff.1 h
  unfold decodedStubs
  rw [List.take_add_one, h, Option.toList_some, List.zipIdx_append, List.map_append,
    List.length_take, Nat.zero_add, Nat.min_eq_left hlt.le]
  rfl

theorem mem_decodedStubs {a slot : BitVec 64} :
    (a, slot) ∈ p.decodedStubs p.stubs.length ↔
      ∃ k s, p.stubs[k]? = some s ∧ a = p.address k ∧ slot = p.decoded k s := by
  unfold decodedStubs
  rw [List.take_length, List.mem_map]
  constructor
  · rintro ⟨⟨s, k⟩, hs, heq⟩
    obtain ⟨rfl, rfl⟩ := Prod.mk.inj heq
    exact ⟨k, s, List.mem_zipIdx_iff_getElem?.1 hs, rfl, rfl⟩
  · rintro ⟨k, s, hs, rfl, rfl⟩
    exact ⟨(s, k), List.mem_zipIdx_iff_getElem?.2 hs, rfl⟩

/-- `parse_progbits` appends the section with the stubs and the slots it takes for them. -/
theorem yields_parseSection (uninit link : BitVec 64) (sections : List Section) :
    Yields (fun n => p.img.parseSection uninit n p.header (cstring ".plt") link sections)
      (sections ++ [.ofHeader p.header (cstring ".plt")
        (.stubs (p.decodedStubs p.stubs.length))]) := by
  have hgrows : Grows fun n => forEntries p.header.size 16 (p.img.readStub p.header) n [] :=
    grows_forEntries readsEntry_stub _
  have hchain : ∀ k < p.stubs.length, Yields (fun m => p.img.readStub p.header m
      (entryOffset 16 k) (p.decodedStubs k)) (p.decodedStubs (k + 1)) := by
    intro k hk
    have hs := List.getElem?_eq_getElem hk
    refine ⟨0, ?_⟩
    show p.img.readStub p.header 0 _ _ = _
    rw [Image.readStub, entryOffset, p.bytes k _ hs, decodedStubs_succ hs, decoded, address]
    show Timed.ok _ = _
    rw [field_displacement, BitVec.add_comm (BitVec.setWidth 64 _)]
  have hloop := yields_forEntries (@readsEntry_stub p.img p.header) p.decodedStubs p.size_eq
    (by decide) hchain
  simp only [Image.parseSection, p.type_eq, Image.parseProgbits, if_true]
  exact (yields_map hgrows).2 ⟨_, hloop, rfl⟩

end PltSection

end Arancini.Elf
