import Mathlib.Tactic.IntervalCases
import Arancini.Riscv.AssemblerRight

/-!
# Labels in the code

A branch to a label that has no position yet is emitted with the place of the previous such branch
in its offset. So the branches to one label are a list that is threaded through the code, with its
head in the label. `Bind` walks along it and puts in the offsets.

The code is a list of halfwords here, and `assemble` is a list of calls.
-/

namespace Arancini.Riscv.Asm

/-! ## Code -/

/-- The parcel in memory, the low half first. -/
def Parcel.halfwords : Parcel → List (BitVec 16)
  | full w => [part 0 16 w, part 16 16 w]
  | compressed h => [h]

/-- `IsCInstruction`. -/
def isCInstruction (parcel : BitVec 16) : Bool :=
  parcel &&& 3 != 3

/-- The parcel at a position, with `Read16` and `Read32`. -/
def fetch (code : List (BitVec 16)) (position : ℕ) : Option Parcel := do
  let low ← code[position / 2]?
  if isCInstruction low then return .compressed low
  else return .full ((← code[position / 2 + 1]?) ++ low)

/-- `Write16` and `Write32`. -/
def write (code : List (BitVec 16)) (position : ℕ) (p : Parcel) : List (BitVec 16) :=
  code.take (position / 2) ++ p.halfwords ++ code.drop ((position + p.length) / 2)

/-- An instruction that goes to a label. -/
inductive Jump
  | jal (rd : Register)
  | branch (c : Cond) (rs1 rs2 : Register)
  deriving DecidableEq

/-- The instruction with an offset. -/
def Jump.to (offset : ℤ) : Jump → Insn
  | jal rd => .jal rd offset
  | branch c rs1 rs2 => .branch c rs1 rs2 offset

/-- What is asked of the assembler : an instruction (an `addi` may have to have four bytes), a jump
to a label (which may have to be short), that a label is bound here, or alignment. -/
inductive Item
  | insn (i : Insn) (big : Bool)
  | jump (j : Jump) (near : Bool) (l : ℕ)
  | bind (l : ℕ)
  | align (n : ℕ)
  deriving DecidableEq

/-! ## Labels -/

/-- The number in a label is zero, a position with `kWordSize` added, or minus that when the label
is bound. -/
def isBound (position : ℤ) : Bool :=
  position < 0

def isLinked (position : ℤ) : Bool :=
  0 < position

/-- `Position`. -/
def labelPosition (position : ℤ) : ℤ :=
  if isBound position then -position - 8 else position - 8

/-- `int32_t`. -/
def int32 (x : ℤ) : ℤ :=
  (BitVec.ofInt 32 x).toInt

/-- `EncodeBranchOrJumpOffset`. -/
def encodeBranchOrJumpOffset (offset : ℤ) (encoded : BitVec 32) : Except String (BitVec 32) := do
  assert (offset != 0) "offset != 0"
  if part 0 7 encoded = Opcode.branch.code then
    return put 32 20 (part 20 5 encoded) ||| put 32 15 (part 15 5 encoded) |||
      put 32 12 (part 12 3 encoded) ||| put 32 0 (part 0 7 encoded) |||
        (← btypeImm.encode 32 offset)
  else if part 0 7 encoded = Opcode.jal.code then
    return put 32 7 (part 7 5 encoded) ||| put 32 0 (part 0 7 encoded) |||
      (← jtypeImm.encode 32 offset)
  else .error "unreachable code"

/-- `DecodeBranchOrJumpOffset`. -/
def decodeBranchOrJumpOffset (encoded : BitVec 32) : Except String ℤ :=
  if part 0 7 encoded = Opcode.branch.code then .ok (btypeImm.decode encoded)
  else if part 0 7 encoded = Opcode.jal.code then .ok (jtypeImm.decode encoded)
  else .error "unreachable code"

/-- The opcode of a compressed instruction. -/
def copcode (encoded : BitVec 16) : BitVec 16 :=
  encoded &&& 0b1110000000000011

/-- `EncodeCBranchOrJumpOffset`. -/
def encodeCBranchOrJumpOffset (offset : ℤ) (encoded : BitVec 16) : Except String (BitVec 16) := do
  assert (offset != 0) "offset != 0"
  if copcode encoded = C_BEQZ ∨ copcode encoded = C_BNEZ then
    cbranch (copcode encoded) (primeReg (part 7 3 encoded)) offset
  else if copcode encoded = C_J then
    return copcode encoded ||| (← cjImm.encode 16 offset)
  else .error "unreachable code"

/-- `DecodeCBranchOrJumpOffset`. -/
def decodeCBranchOrJumpOffset (encoded : BitVec 16) : Except String ℤ :=
  if copcode encoded = C_BEQZ ∨ copcode encoded = C_BNEZ then .ok (cbImm.decode encoded)
  else if copcode encoded = C_J then .ok (cjImm.decode encoded)
  else .error "unreachable code"

namespace Parcel

def encodeOffset (offset : ℤ) : Parcel → Except String Parcel
  | full w => full <$> encodeBranchOrJumpOffset offset w
  | compressed h => compressed <$> encodeCBranchOrJumpOffset offset h

def decodeOffset : Parcel → Except String ℤ
  | full w => decodeBranchOrJumpOffset w
  | compressed h => decodeCBranchOrJumpOffset h

end Parcel

/-- The loop of `Bind`, for at most `fuel` branches. -/
def bindLoop (target : ℤ) : ℕ → ℤ → List (BitVec 16) → Except String (List (BitVec 16))
  | 0, _, _ => .error "no end"
  | fuel + 1, position, code =>
    if isLinked position then do
      let branchPosition := int32 (labelPosition position)
      let offset := int32 (target - branchPosition)
      match fetch code branchPosition.toNat with
      | none => .error "outside of the code"
      | some old =>
        let new ← old.encodeOffset offset
        let position ← old.decodeOffset
        bindLoop target fuel (int32 position) (write code branchPosition.toNat new)
    else .ok code

/-- The instructions that `Align` emits : as many bytes as the code is behind the last multiple. -/
def padding (n position : ℕ) : List Parcel :=
  let misalignment := position &&& (n - 1)
  List.replicate (misalignment / 4) (.full 0b10011) ++
    List.replicate (misalignment % 4 / 2) (.compressed 0b1)

/-! ## The assembler -/

/-- The code so far, and the labels. -/
structure State where
  code : List (BitVec 16)
  labels : ℕ → ℤ

def State.empty : State :=
  ⟨[], fun _ => 0⟩

namespace State

variable (s : State)

/-- `Position`, the size of the code. -/
def position : ℕ :=
  2 * s.code.length

def emit (p : Parcel) : State :=
  { s with code := s.code ++ p.halfwords }

/-- `Bind`. There are not more branches in the code than halfwords. -/
def bind (label : ℕ) : Except String State := do
  let position := s.labels label
  assert (!isBound position) "!label->IsBound()"
  let code ← bindLoop s.position (s.code.length + 1) position s.code
  return ⟨code, Function.update s.labels label (-s.position - 8)⟩

/-- `Align`. -/
def align (n : ℕ) : Except String State := do
  assert (n ≤ 16) "alignByte <= 16"
  let s' := (padding n s.position).foldl emit s
  assert (s'.position &&& (n - 1) == 0) "Utils::IsAligned(Position(), alignByte)"
  return s'

/-- `EmitBranch`, `EmitJump`, `EmitCBranch` and `EmitCJump` with a label. -/
def emitJump (rvc : Bool) (j : Jump) (near : Bool) (label : ℕ) : Except String State := do
  let position := s.labels label
  let offset := if isBound position then labelPosition position - s.position else position
  let p ← (j.to offset).assemble rvc near false
  let s' := s.emit p
  if isBound position then return s'
  else return { s' with labels := Function.update s.labels label (s.position + 8) }

end State

/-- With an offset of its own, a jump or a branch is short when the offset is. -/
def Insn.reaches : Insn → Bool
  | jal _ offset => cjImm.fits offset
  | branch _ _ _ offset => cbImm.fits offset
  | _ => false

def Item.emit (rvc : Bool) (s : State) : Item → Except String State
  | insn i big => s.emit <$> i.assemble rvc i.reaches big
  | jump j near l => s.emitJump rvc j near l
  | bind l => s.bind l
  | align n => s.align n

/-- The bytes that a label is aligned to. -/
def labelAlign : ℕ := 4

/-- A label in the instruction builder. -/
def label (l : ℕ) : List Item :=
  [.align labelAlign, .bind l]

/-- The calls of the assembler, in order. -/
def assemble (rvc : Bool) (items : List Item) : Except String State :=
  items.foldlM (Item.emit rvc) State.empty

/-! ## Jumps of which the offset is replaced -/

section Offset

variable {rvc near : Bool} {j : Jump} {offset : ℤ} {p : Parcel}

theorem ImmFormat.decode_or_put {n : ℕ} {f : ImmFormat} {w : BitVec n} {k pos : ℕ} (x : BitVec k)
    (h : ∀ p ∈ f.pieces, p.pos + p.len ≤ pos ∨ pos + k ≤ p.pos) :
    f.decode (w ||| put n pos x) = f.decode w := by
  rw [decode, decode, collect_or_put h]

theorem ImmFormat.decode_or_encode {f : ImmFormat} (hf : f ∈ compressedFormats) {b e : BitVec 16}
    (he : f.encode 16 offset = .ok e) (hb : collect 32 f.pieces b = 0) :
    f.decode (b ||| e) = offset := by
  have hdecode := (decode_encode (sound_compressed hf) he).1
  rw [decode] at hdecode ⊢
  rw [collect] at hb
  rw [collect, scatter_or, hb]
  simpa using hdecode

theorem assert_ne_zero (hne : offset ≠ 0) : assert (offset != 0) "offset != 0" = .ok () := by
  rw [assert, if_pos (bne_iff_ne.mpr hne)]

theorem emitJType_offset {rd : Register} {w : BitVec 32} (h : emitJType offset rd .jal = .ok w) :
    decodeBranchOrJumpOffset w = .ok offset ∧ ∀ offset' ≠ 0,
      encodeBranchOrJumpOffset offset' w = emitJType offset' rd .jal := by
  obtain ⟨hop, hrd, -⟩ := emitJType_reads h
  simp only [emitJType, bind_eq_ok, pure_eq_ok] at h
  obtain ⟨e, he, rfl⟩ := h
  have hdecode : jtypeImm.decode (e ||| put 32 7 rd ||| put 32 0 Opcode.jal.code) = offset := by
    simp (disch := decide) only [ImmFormat.decode_or_put]
    exact (ImmFormat.decode_encode jtype_sound he).1
  refine ⟨?_, fun offset' hne => ?_⟩
  · rw [decodeBranchOrJumpOffset, hop, if_neg (by decide), if_pos rfl, hdecode]
  · rw [encodeBranchOrJumpOffset, assert_ne_zero hne, ok_bind, hop, hrd, if_neg (by decide),
      if_pos rfl, emitJType]
    refine bind_congr fun e' => congrArg _ ?_
    rw [BitVec.or_comm _ e']
    simp only [BitVec.or_assoc]

theorem emitBType_offset {c : Cond} {rs1 rs2 : Register} {w : BitVec 32}
    (h : emitBType offset rs2 rs1 c.funct3 .branch = .ok w) :
    decodeBranchOrJumpOffset w = .ok offset ∧ ∀ offset' ≠ 0,
      encodeBranchOrJumpOffset offset' w = emitBType offset' rs2 rs1 c.funct3 .branch := by
  obtain ⟨hop, hf, hrs1, hrs2, -⟩ := emitBType_reads h
  simp only [emitBType, bind_eq_ok, pure_eq_ok] at h
  obtain ⟨e, he, rfl⟩ := h
  have hdecode : btypeImm.decode (e ||| put 32 20 rs2 ||| put 32 15 rs1 ||| put 32 12 c.funct3 |||
      put 32 0 Opcode.branch.code) = offset := by
    simp (disch := decide) only [ImmFormat.decode_or_put]
    exact (ImmFormat.decode_encode btype_sound he).1
  refine ⟨?_, fun offset' hne => ?_⟩
  · rw [decodeBranchOrJumpOffset, hop, if_pos rfl, hdecode]
  · rw [encodeBranchOrJumpOffset, assert_ne_zero hne, ok_bind, hop, hf, hrs1, hrs2, if_pos rfl,
      emitBType]
    refine bind_congr fun e' => congrArg _ ?_
    rw [BitVec.or_comm _ e']
    simp only [BitVec.or_assoc]

/-- The bits of the opcode are not among those of the register and of the offset. -/
theorem copcode_eq (h : BitVec 16) :
    copcode h = put 16 13 (part 13 3 h) ||| put 16 0 (part 0 2 h) := by
  refine BitVec.eq_of_getLsbD_eq fun i hi => ?_
  simp only [copcode, put, part]
  interval_cases i <;> simp

theorem cj_offset {h : BitVec 16} (he : cj offset = .ok h) :
    decodeCBranchOrJumpOffset h = .ok offset ∧ ∀ offset' ≠ 0,
      encodeCBranchOrJumpOffset offset' h = cj offset' := by
  simp only [cj, bind_eq_ok, pure_eq_ok] at he
  obtain ⟨e, he, rfl⟩ := he
  have hop : copcode (C_J ||| e) = C_J := by
    rw [copcode_eq]
    simp (disch := decide) [ImmFormat.part_encode he, C_J]
    decide
  have hdecode : cjImm.decode (C_J ||| e) = offset :=
    ImmFormat.decode_or_encode (by simp [compressedFormats]) he (by decide)
  refine ⟨?_, fun offset' hne => ?_⟩
  · rw [decodeCBranchOrJumpOffset, hop, if_neg (by decide), if_pos rfl, hdecode]
  · rw [encodeCBranchOrJumpOffset, assert_ne_zero hne, ok_bind, hop, if_neg (by decide),
      if_pos rfl, cj]

theorem cbranch_offset {base h : BitVec 16} (hbase : base = C_BEQZ ∨ base = C_BNEZ)
    {rs1 : Register} (he : cbranch base rs1 offset = .ok h) :
    decodeCBranchOrJumpOffset h = .ok offset ∧ ∀ offset' ≠ 0,
      encodeCBranchOrJumpOffset offset' h = cbranch base rs1 offset' := by
  simp only [cbranch, bind_eq_ok, pure_eq_ok, encodePrime_eq_ok] at he
  obtain ⟨r, ⟨hprime, rfl⟩, e, he, rfl⟩ := he
  have hr : part 7 3 (base ||| put 16 7 (part 0 3 rs1) ||| e) = part 0 3 rs1 := by
    rcases hbase with rfl | rfl <;>
      simp (disch := decide) [ImmFormat.part_encode he, C_BEQZ, C_BNEZ]
  have hop : copcode (base ||| put 16 7 (part 0 3 rs1) ||| e) = base := by
    rw [copcode_eq]
    rcases hbase with rfl | rfl <;>
    · simp (disch := decide) [ImmFormat.part_encode he, C_BEQZ, C_BNEZ]
      decide
  have hdecode : cbImm.decode (base ||| put 16 7 (part 0 3 rs1) ||| e) = offset := by
    refine ImmFormat.decode_or_encode (by simp [compressedFormats]) he ?_
    rw [collect_or_put (by decide)]
    rcases hbase with rfl | rfl <;> decide
  refine ⟨?_, fun offset' hne => ?_⟩
  · rw [decodeCBranchOrJumpOffset, hop, if_pos hbase, hdecode]
  · rw [encodeCBranchOrJumpOffset, assert_ne_zero hne, ok_bind, hop, if_pos hbase, hr,
      primeReg_part hprime]

theorem jump_offset (h : (j.to offset).assemble rvc near false = .ok p) :
    p.decodeOffset = .ok offset ∧ ∀ offset' ≠ 0,
      p.encodeOffset offset' = (j.to offset').assemble rvc near false := by
  have hfull {c : Cond} {rs1 rs2 : Register}
      (h : Parcel.full <$> emitBType offset rs2 rs1 c.funct3 .branch = .ok p) :
      p.decodeOffset = .ok offset ∧ ∀ offset' ≠ 0, p.encodeOffset offset' =
        Parcel.full <$> emitBType offset' rs2 rs1 c.funct3 .branch := by
    obtain ⟨w, hw, rfl⟩ := map_eq_ok.mp h
    obtain ⟨hdecode, hencode⟩ := emitBType_offset hw
    exact ⟨hdecode, fun offset' hne => congrArg (Parcel.full <$> ·) (hencode offset' hne)⟩
  have hzero {base : BitVec 16} {c : Cond} {rs1 rs2 : Register}
      (hbase : base = C_BEQZ ∨ base = C_BNEZ)
      (h : branchZero rvc near base c rs1 rs2 offset = .ok p) :
      p.decodeOffset = .ok offset ∧ ∀ offset' ≠ 0, p.encodeOffset offset' =
        branchZero rvc near base c rs1 rs2 offset' := by
    unfold branchZero at h ⊢
    split_ifs at h ⊢ with hfirst hsecond
    · obtain ⟨w, hw, rfl⟩ := map_eq_ok.mp h
      obtain ⟨hdecode, hencode⟩ := cbranch_offset hbase hw
      exact ⟨hdecode, fun offset' hne => congrArg (Parcel.compressed <$> ·) (hencode offset' hne)⟩
    · obtain ⟨w, hw, rfl⟩ := map_eq_ok.mp h
      obtain ⟨hdecode, hencode⟩ := cbranch_offset hbase hw
      exact ⟨hdecode, fun offset' hne => congrArg (Parcel.compressed <$> ·) (hencode offset' hne)⟩
    · exact hfull h
  cases j with
  | jal rd =>
    simp only [Jump.to, Insn.assemble, jal] at h ⊢
    split_ifs at h ⊢ with hc
    · obtain ⟨w, hw, rfl⟩ := map_eq_ok.mp h
      obtain ⟨hdecode, hencode⟩ := cj_offset hw
      exact ⟨hdecode, fun offset' hne => congrArg (Parcel.compressed <$> ·) (hencode offset' hne)⟩
    · obtain ⟨w, hw, rfl⟩ := map_eq_ok.mp h
      obtain ⟨hdecode, hencode⟩ := emitJType_offset hw
      exact ⟨hdecode, fun offset' hne => congrArg (Parcel.full <$> ·) (hencode offset' hne)⟩
  | branch c rs1 rs2 =>
    cases c with
    | beq => exact hzero (.inl rfl) h
    | bne => exact hzero (.inr rfl) h
    | _ => exact hfull h

end Offset

end Arancini.Riscv.Asm
