import Arancini.Lib.Except
import Arancini.Lib.Field
import Arancini.Lib.Scatter
import Arancini.Riscv.GenConstant

/-!
# Instruction formats of the assembler

How the assembler of the RISC-V back-end puts registers and immediates into instruction words. An
immediate is cut into pieces (`ImmFormat`), and each `Encode..Imm` is one such table with the range
that is asserted. `decode` is the function of the same name of the source, which reads `width` bits.
The processor reads all bits that there are (`read`), and both give the number that was encoded
(`ImmFormat.decode_encode`).

A build without `NDEBUG` has the assertions. Here one that fails is an error.
-/

namespace Arancini.Riscv.Asm

/-- The number of a register. -/
abbrev Register := BitVec 5

def ZERO : Register := 0#5
def RA : Register := 1#5
def SP : Register := 2#5

/-- `ASSERT`. -/
def assert (cond : Bool) (text : String) : Except String Unit :=
  if cond then .ok () else .error ("expected: " ++ text)

theorem assert_eq_ok {cond : Bool} {text : String} {u : Unit} :
    assert cond text = .ok u ↔ cond = true := by
  cases cond <;> simp [assert]

@[simp] theorem map_assert_eq_ok {α : Type} {cond : Bool} {text : String} {f : Unit → α} {a : α} :
    (f <$> assert cond text) = .ok a ↔ cond = true ∧ f () = a := by
  cases cond <;> simp [assert, Functor.map, Except.map]

/-! ## Immediates -/

/-- A format of immediates : the pieces, the bits that are asserted to be enough, the low bits that
are zero, and whether there is a sign. `name` is the assertion. -/
structure ImmFormat where
  name : String
  pieces : List Piece
  width : ℕ
  align : ℕ
  signed : Bool

/-- `SignExtend`. -/
def signExtend (n : ℕ) (value : BitVec 32) : BitVec 32 :=
  (value <<< (32 - n)).sshiftRight (32 - n)

namespace ImmFormat

/-- `Is..Imm`, with `Utils::IsInt` or `Utils::IsUint` and `Utils::IsAligned`. -/
def fits (f : ImmFormat) (imm : ℤ) : Bool :=
  (if f.signed then isInt f.width imm else 0 ≤ imm && imm < 2 ^ f.width) && imm % 2 ^ f.align == 0

/-- `Encode..Imm`. -/
def encode (f : ImmFormat) (n : ℕ) (imm : ℤ) : Except String (BitVec n) := do
  assert (f.fits imm) f.name
  return scatter n f.pieces (BitVec.ofInt 64 imm)

/-- `Decode..Imm`. -/
def decode {n : ℕ} (f : ImmFormat) (w : BitVec n) : ℤ :=
  let imm := collect 32 f.pieces w
  if f.signed then (signExtend f.width imm).toInt else imm.toNat

/-- The number of bits that there is a piece for. -/
def top (f : ImmFormat) : ℕ :=
  (f.pieces.map fun p => p.lo + p.len).foldl max 0

/-- The immediate as the processor reads it. -/
def read {n : ℕ} (f : ImmFormat) (w : BitVec n) : ℤ :=
  if f.signed then (collect f.top f.pieces w).toInt else (collect f.top f.pieces w).toNat

end ImmFormat

def btypeImm : ImmFormat :=
  ⟨"IsBTypeImm(imm)", [⟨12, 1, 31⟩, ⟨5, 6, 25⟩, ⟨1, 4, 8⟩, ⟨11, 1, 7⟩], 12, 1, true⟩

def jtypeImm : ImmFormat :=
  ⟨"IsJTypeImm(imm)", [⟨20, 1, 31⟩, ⟨1, 10, 21⟩, ⟨11, 1, 20⟩, ⟨12, 8, 12⟩], 20, 1, true⟩

/-- `imm << 20`. -/
def itypeImm : ImmFormat :=
  ⟨"IsITypeImm(imm)", [⟨0, 12, 20⟩], 12, 0, true⟩

/-- The immediate itself, of which the low bits are zero. -/
def utypeImm : ImmFormat :=
  ⟨"IsUTypeImm(imm)", [⟨12, 20, 12⟩], 32, 12, true⟩

def stypeImm : ImmFormat :=
  ⟨"IsSTypeImm(imm)", [⟨5, 7, 25⟩, ⟨0, 5, 7⟩], 12, 0, true⟩

def cspload4Imm : ImmFormat :=
  ⟨"IsCSPLoad4Imm(imm)", [⟨5, 1, 12⟩, ⟨2, 3, 4⟩, ⟨6, 2, 2⟩], 8, 2, false⟩

def cspload8Imm : ImmFormat :=
  ⟨"IsCSPLoad8Imm(imm)", [⟨5, 1, 12⟩, ⟨3, 2, 5⟩, ⟨6, 3, 2⟩], 9, 3, false⟩

def cspstore4Imm : ImmFormat :=
  ⟨"IsCSPStore4Imm(imm)", [⟨2, 4, 9⟩, ⟨6, 2, 7⟩], 8, 2, false⟩

def cspstore8Imm : ImmFormat :=
  ⟨"IsCSPStore8Imm(imm)", [⟨3, 3, 10⟩, ⟨6, 3, 7⟩], 9, 3, false⟩

def cmem4Imm : ImmFormat :=
  ⟨"IsCMem4Imm(imm)", [⟨3, 3, 10⟩, ⟨2, 1, 6⟩, ⟨6, 1, 5⟩], 7, 2, false⟩

def cmem8Imm : ImmFormat :=
  ⟨"IsCMem8Imm(imm)", [⟨3, 3, 10⟩, ⟨6, 2, 5⟩], 8, 3, false⟩

def cjImm : ImmFormat :=
  ⟨"IsCJImm(imm)", [⟨11, 1, 12⟩, ⟨4, 1, 11⟩, ⟨8, 2, 9⟩, ⟨10, 1, 8⟩, ⟨6, 1, 7⟩, ⟨7, 1, 6⟩,
    ⟨1, 3, 3⟩, ⟨5, 1, 2⟩], 11, 1, true⟩

def cbImm : ImmFormat :=
  ⟨"IsCBImm(imm)", [⟨8, 1, 12⟩, ⟨3, 2, 10⟩, ⟨6, 2, 5⟩, ⟨1, 2, 3⟩, ⟨5, 1, 2⟩], 8, 1, true⟩

def ciImm : ImmFormat :=
  ⟨"IsCIImm(imm)", [⟨5, 1, 12⟩, ⟨0, 5, 2⟩], 6, 0, true⟩

def cuImm : ImmFormat :=
  ⟨"IsCUImm(imm)", [⟨17, 1, 12⟩, ⟨12, 5, 2⟩], 17, 12, true⟩

def ci16Imm : ImmFormat :=
  ⟨"IsCI16Imm(imm)", [⟨9, 1, 12⟩, ⟨4, 1, 6⟩, ⟨6, 1, 5⟩, ⟨7, 2, 3⟩, ⟨5, 1, 2⟩], 10, 4, true⟩

def ci4spnImm : ImmFormat :=
  ⟨"IsCI4SPNImm(imm)", [⟨4, 2, 11⟩, ⟨6, 4, 7⟩, ⟨2, 1, 6⟩, ⟨3, 1, 5⟩], 9, 2, false⟩

/-- The formats of words of 32 bits. -/
def fullFormats : List ImmFormat :=
  [btypeImm, jtypeImm, itypeImm, utypeImm, stypeImm]

/-- The formats of compressed instructions. -/
def compressedFormats : List ImmFormat :=
  [cspload4Imm, cspload8Imm, cspstore4Imm, cspstore8Imm, cmem4Imm, cmem8Imm, cjImm, cbImm, ciImm,
    cuImm, ci16Imm, ci4spnImm]

/-! ## Round trips -/

namespace ImmFormat

/-- Each piece has a place of its own, and no bit between the zeros and the highest one is left
out. -/
structure Sound (f : ImmFormat) (n : ℕ) : Prop where
  placed : Placed n f.pieces
  covered : ∀ i < f.top, f.align ≤ i → Covered f.pieces i
  pos : 0 < f.width
  width_le : f.width ≤ f.top
  top_le : f.top ≤ 32

theorem sound_full {f : ImmFormat} (hf : f ∈ fullFormats) : f.Sound 32 := by
  simp only [fullFormats, List.mem_cons, List.not_mem_nil, or_false] at hf
  rcases hf with rfl | rfl | rfl | rfl | rfl <;>
    exact ⟨by decide, by decide, by decide, by decide, by decide⟩

theorem sound_compressed {f : ImmFormat} (hf : f ∈ compressedFormats) : f.Sound 16 := by
  simp only [compressedFormats, List.mem_cons, List.not_mem_nil, or_false] at hf
  rcases hf with rfl | rfl | rfl | rfl | rfl | rfl | rfl | rfl | rfl | rfl | rfl | rfl <;>
    exact ⟨by decide, by decide, by decide, by decide, by decide⟩

variable {f : ImmFormat} {n : ℕ} {imm : ℤ} {w : BitVec n}

theorem encode_eq_ok : f.encode n imm = .ok w ↔
    f.fits imm = true ∧ scatter n f.pieces (BitVec.ofInt 64 imm) = w := by
  simp [encode]

theorem fits_iff : f.fits imm = true ↔ 2 ^ f.align ∣ imm ∧
    if f.signed then -2 ^ (f.width - 1) ≤ imm ∧ imm < 2 ^ (f.width - 1)
    else 0 ≤ imm ∧ imm < 2 ^ f.width := by
  rw [fits, Bool.and_eq_true, beq_iff_eq, ← Int.dvd_iff_emod_eq_zero, and_comm]
  refine and_congr_right fun _ => ?_
  split <;> simp [isInt]

theorem toInt_signExtend {k : ℕ} (hk : 0 < k) (h : k ≤ 32) (x : BitVec 32) :
    (signExtend k x).toInt = (x.setWidth k).toInt := by
  have hx := sshiftRight_shiftLeft_eq hk (show 0 + k ≤ 32 by omega) x
  rw [Nat.zero_add] at hx
  rw [signExtend, hx, BitVec.toInt_signExtend_of_le h]
  congr 1
  ext i hi
  simp

/-- What has been encoded is decoded, and the processor reads it. -/
theorem decode_encode (hf : f.Sound n) (h : f.encode n imm = .ok w) :
    f.decode w = imm ∧ f.read w = imm := by
  obtain ⟨hfits, rfl⟩ := encode_eq_ok.mp h
  obtain ⟨hdvd, hrange⟩ := fits_iff.mp hfits
  have hw := hf.width_le
  have ht := hf.top_le
  have hpos := hf.pos
  unfold decode read
  dsimp only
  split at hrange
  · rename_i hs
    rw [if_pos hs, if_pos hs, toInt_signExtend hf.pos (hw.trans ht), setWidth_scatter (hw.trans ht)]
    have hmono : (2 : ℤ) ^ (f.width - 1) ≤ 2 ^ (f.top - 1) :=
      pow_le_pow_right₀ one_le_two (by omega)
    exact ⟨toInt_collect hf.placed (fun i hi => hf.covered i (by omega)) (by omega) hpos hdvd
        hrange.1 hrange.2,
      toInt_collect hf.placed hf.covered (by omega) (by omega) hdvd (by omega) (by omega)⟩
  · rename_i hs
    rw [if_neg hs, if_neg hs]
    exact ⟨toNat_collect hf.placed (fun i hi => hf.covered i (by omega)) (by omega) (by omega) hdvd
        hrange.1 hrange.2,
      toNat_collect hf.placed (fun i hi => hf.covered i (by omega)) hw (by omega) hdvd
        hrange.1 hrange.2⟩

/-- In each format of the assembler, the immediates that are accepted are decoded again, by the
assembler and by the processor. -/
theorem immediate_round_trip (hf : f ∈ fullFormats ∧ n = 32 ∨ f ∈ compressedFormats ∧ n = 16)
    (h : f.encode n imm = .ok w) : f.decode w = imm ∧ f.read w = imm := by
  rcases hf with ⟨hf, rfl⟩ | ⟨hf, rfl⟩
  · exact decode_encode (sound_full hf) h
  · exact decode_encode (sound_compressed hf) h

theorem immediate_round_trip_back : btypeImm.decode 0xfe000c80#32 = -8 ∧
    btypeImm.read 0xfe000c80#32 = -8 :=
  immediate_round_trip (.inl ⟨List.mem_cons_self, rfl⟩) rfl

end ImmFormat

end Arancini.Riscv.Asm
