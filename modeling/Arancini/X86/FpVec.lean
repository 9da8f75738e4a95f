import Arancini.X86.PackedShift

/-!
# Floating-point instructions on vectors

`fpvec_translator` reads three operands of every instruction, also of those that have two, and goes
through three switches. The first renames the operands of some of the instructions that have two,
the second takes the elements out of them, and the third computes and writes.

What the arithmetic and the conversions compute is left open. `fpvec_right_iff` says for which
operands an instruction applies the operation it is named after to the operands in their order and
leaves the rest as it should.
-/

namespace Arancini.X86

open Ir

/-! ## Values of the translation -/

/-- A value with its type. -/
structure Value where
  type : ValueType
  bits : BitVec type.width

/-- `fp_convert_type`. -/
inductive FpConvertType
  | none
  | round
  | trunc
  deriving DecidableEq

/-- The arithmetic of floating-point numbers. -/
inductive FpOp
  | add
  | sub
  | mul
  | div
  deriving DecidableEq

/-- What the arithmetic on `w` bits computes, and the conversions between type classes, to `n`
bits. -/
structure FpFunctions where
  arith : FpOp → {w : ℕ} → BitVec w → BitVec w → BitVec w
  convert : FpConvertType → TypeClass → TypeClass → {m : ℕ} → (n : ℕ) → BitVec m → BitVec n

namespace Value

/-- An unsigned number, as it is read. -/
def u {n : ℕ} (x : BitVec n) : Value :=
  ⟨.u n, x.setWidth _⟩

/-- `insert_bitcast`. -/
def bitcast (type : ValueType) (v : Value) : Except String Value :=
  if type.width = v.type.width then .ok ⟨type, v.bits.setWidth _⟩
  else .error "cannot bitcast between types with different sizes"

/-- `insert_vector_extract` of the first element. -/
def vectorExtract (v : Value) : Value :=
  ⟨⟨v.type.typeClass, v.type.elementWidth, 1⟩, v.bits.setWidth _⟩

/-- `insert_vector_insert` of the first element. A value that is not a vector is taken as one of
elements like the one that is inserted. -/
def vectorInsert (v x : Value) : Value :=
  ⟨v.type, insertField v.bits 0
    (if v.type.nrElements = 1 then x.type.width else v.type.elementWidth) x.bits⟩

/-- `insert_bit_insert` from the lowest bit on. -/
def bitInsert (v x : Value) (length : ℕ) : Value :=
  ⟨v.type, insertField v.bits 0 length x.bits⟩

/-- `insert_xor`. -/
def xor (lhs rhs : Value) : Except String Value :=
  if lhs.type.width = rhs.type.width then .ok ⟨lhs.type, lhs.bits ^^^ rhs.bits.setWidth _⟩
  else .error "incompatible types in binary arith node"

section Functions

variable (F : FpFunctions)

/-- `insert_add`, `insert_sub`, `insert_mul` and `insert_div`, for each element. -/
def arith (op : FpOp) (lhs rhs : Value) : Value :=
  ⟨lhs.type, zipLanes (w := lhs.type.elementWidth) (F.arith op) lhs.type.nrElements lhs.bits
    (rhs.bits.setWidth _)⟩

/-- `insert_convert`. -/
def convert (type : ValueType) (v : Value) (convertType : FpConvertType) : Value :=
  ⟨type, F.convert convertType v.type.typeClass type.typeClass _ v.bits⟩

end Functions

end Value

/-! ## The translator -/

/-- The instruction classes of the translator. -/
inductive FpVecClass
  | SUBPD
  | ADDPD
  | XORPD
  | XORPS
  | VADDSS
  | ADDSS
  | VSUBSS
  | SUBSS
  | VDIVSS
  | DIVSS
  | VMULSS
  | MULSS
  | VADDSD
  | ADDSD
  | VSUBSD
  | SUBSD
  | VDIVSD
  | DIVSD
  | VMULSD
  | MULSD
  | CVTSD2SI
  | CVTSD2SS
  | CVTSS2SD
  | CVTSS2SI
  | CVTSI2SS
  | CVTSI2SD
  | CVTTSS2SI
  | CVTTSD2SI
  deriving DecidableEq

/-- The operands 0, 1 and 2. -/
structure FpOperands where
  dest : Value
  src1 : Value
  src2 : Value

/-- The first switch. The instruction has no third operand. -/
def renameOperands (iclass : FpVecClass) (o : FpOperands) : FpOperands :=
  match iclass with
  | .SUBPD | .ADDPD | .ADDSD | .SUBSD | .DIVSD | .MULSD | .ADDSS | .SUBSS | .DIVSS | .MULSS =>
    { o with src2 := o.src1, src1 := o.dest }
  | _ => o

/-- A vector of floating-point numbers. -/
def fpVector (width elements : ℕ) : ValueType :=
  ⟨.floatingPoint, width, elements⟩

/-- The first element of a register, or the number that was in memory. -/
def firstElement (width elements : ℕ) (v : Value) (elementwise : Bool) : Except String Value :=
  if (if elementwise then v.type.elementWidth else v.type.width) = 128 then do
    let v ← v.bitcast (fpVector width elements)
    return v.vectorExtract
  else v.bitcast (.f width)

/-- All operands as vectors. -/
def castOperands (width elements : ℕ) (o : FpOperands) : Except String FpOperands := do
  let dest ← o.dest.bitcast (fpVector width elements)
  let src1 ← o.src1.bitcast (fpVector width elements)
  let src2 ← o.src2.bitcast (fpVector width elements)
  return ⟨dest, src1, src2⟩

/-- The destination as a vector and the first elements of the sources. -/
def scalarOperands (width elements : ℕ) (o : FpOperands) : Except String FpOperands := do
  let dest ← o.dest.bitcast (fpVector width elements)
  let src1 ← o.src1.bitcast (fpVector width elements)
  let src2 ← firstElement width elements o.src2 false
  return ⟨dest, src1.vectorExtract, src2⟩

/-- The second switch, for the instructions that it does not return from. -/
def prepareOperands (iclass : FpVecClass) (o : FpOperands) : Except String FpOperands :=
  match iclass with
  | .XORPS => castOperands 32 4 o
  | .SUBPD | .ADDPD | .XORPD => castOperands 64 2 o
  | .ADDSS | .SUBSS | .DIVSS | .MULSS | .VADDSS | .VSUBSS | .VDIVSS | .VMULSS =>
    scalarOperands 32 4 o
  | .ADDSD | .SUBSD | .DIVSD | .MULSD | .VADDSD | .VSUBSD | .VDIVSD | .VMULSD =>
    scalarOperands 64 2 o
  | .CVTSD2SS | .CVTSD2SI | .CVTTSD2SI => do
    let src1 ← firstElement 64 2 o.src1 true
    return { o with src1 }
  | .CVTSS2SD | .CVTSS2SI | .CVTTSS2SI => do
    let src1 ← firstElement 32 4 o.src1 true
    return { o with src1 }
  | _ => .error "Unknown fpvec instruction"

variable (F : FpFunctions)

/-- The value that is written after the third switch. -/
def computeResult (iclass : FpVecClass) (o : FpOperands) : Except String Value :=
  match iclass with
  | .XORPD | .XORPS => o.src1.xor o.src2
  | .ADDPD => .ok (.arith F .add o.src1 o.src2)
  | .SUBPD => .ok (.arith F .sub o.src1 o.src2)
  | .ADDSS | .ADDSD | .VADDSS | .VADDSD =>
    .ok (o.dest.vectorInsert (.arith F .add o.src1 o.src2))
  | .SUBSS | .SUBSD | .VSUBSS | .VSUBSD =>
    .ok (o.dest.vectorInsert (.arith F .sub o.src1 o.src2))
  | .DIVSS | .DIVSD | .VDIVSS | .VDIVSD =>
    .ok (o.dest.vectorInsert (.arith F .div o.src1 o.src2))
  | .VMULSS | .VMULSD | .MULSS | .MULSD =>
    .ok (o.dest.vectorInsert (.arith F .mul o.src1 o.src2))
  | .CVTSD2SI | .CVTSD2SS =>
    .ok (o.dest.vectorInsert (.convert F (.f 32) o.src1 .round))
  | .CVTTSD2SI | .CVTTSS2SI => .ok (.convert F o.dest.type o.src1 .trunc)
  | .CVTSS2SI | .CVTSS2SD => .ok (.convert F o.dest.type o.src1 .none)
  | _ => .error "Unknown fpvec instruction"

/-- A conversion from an integer, which is written by the second switch. -/
def convertInteger (width : ℕ) (o : FpOperands) : Value :=
  o.dest.bitInsert (.convert F (.f width) o.src1 .round) width

/-- `do_translate`, up to the value that is written to operand 0. -/
def translateFpVec (iclass : FpVecClass) (o : FpOperands) : Except String Value :=
  let o := renameOperands iclass o
  match iclass with
  | .CVTSI2SS => .ok (convertInteger F 32 o)
  | .CVTSI2SD => .ok (convertInteger F 64 o)
  | _ => do
    let o ← prepareOperands iclass o
    computeResult F iclass o

/-! ## The instructions -/

/-- The formats of the elements. -/
inductive Precision
  | single
  | double
  deriving DecidableEq

def Precision.width : Precision → ℕ
  | single => 32
  | double => 64

/-- The widths of the integers that are converted. -/
inductive IntWidth
  | dword
  | qword
  deriving DecidableEq

def IntWidth.part : IntWidth → GprPart
  | dword => .dword
  | qword => .full

/-- A general purpose register with so many bits. -/
def IntWidth.reg (iw : IntWidth) (num : Fin 16) : GprReg where
  num := num
  part := iw.part
  valid h := by cases iw <;> cases h

/-- An XMM register, or `w` bits in memory. -/
inductive XmmOrMem (w : ℕ)
  | xmm (num : Fin 32)
  | mem (content : BitVec w)

/-- A general purpose register, or as many bits in memory. -/
inductive GprOrMem (iw : IntWidth)
  | gpr (num : Fin 16)
  | mem (content : BitVec iw.part.width)

def XmmOrMem.read {w : ℕ} (s : CpuState) : XmmOrMem w → Except String Value
  | xmm num => do
    let x ← readXmm num s
    return .u x
  | mem content => .ok (.u content)

def GprOrMem.read {iw : IntWidth} (s : CpuState) : GprOrMem iw → Except String Value
  | gpr num => do
    let x ← readGpr (iw.reg num) s
    return .u x
  | mem content => .ok (.u content)

/-- `ADDPD` and `SUBPD`. -/
inductive PackedFpOp
  | ADDPD
  | SUBPD
  deriving DecidableEq

/-- An instruction with its operands. The `vex` forms have two sources. -/
inductive FpInst
  | packed (op : PackedFpOp) (dest : Fin 32) (src : XmmOrMem 128)
  | logic (prec : Precision) (dest : Fin 32) (src : XmmOrMem 128)
  | scalar (op : FpOp) (prec : Precision) (dest : Fin 32) (src : XmmOrMem prec.width)
  | vex (op : FpOp) (prec : Precision) (dest first : Fin 32) (second : XmmOrMem prec.width)
  | cvtsd2ss (dest : Fin 32) (src : XmmOrMem 64)
  | cvtss2sd (dest : Fin 32) (src : XmmOrMem 32)
  | cvtsi2s (prec : Precision) (dest : Fin 32) (iw : IntWidth) (src : GprOrMem iw)
  | cvts2si (prec : Precision) (dest : Fin 16) (iw : IntWidth) (src : XmmOrMem prec.width)
  | cvtts2si (prec : Precision) (dest : Fin 16) (iw : IntWidth) (src : XmmOrMem prec.width)

namespace FpInst

def iclass : FpInst → FpVecClass
  | packed .ADDPD _ _ => .ADDPD
  | packed .SUBPD _ _ => .SUBPD
  | logic .single _ _ => .XORPS
  | logic .double _ _ => .XORPD
  | scalar .add .single _ _ => .ADDSS
  | scalar .sub .single _ _ => .SUBSS
  | scalar .mul .single _ _ => .MULSS
  | scalar .div .single _ _ => .DIVSS
  | scalar .add .double _ _ => .ADDSD
  | scalar .sub .double _ _ => .SUBSD
  | scalar .mul .double _ _ => .MULSD
  | scalar .div .double _ _ => .DIVSD
  | vex .add .single _ _ _ => .VADDSS
  | vex .sub .single _ _ _ => .VSUBSS
  | vex .mul .single _ _ _ => .VMULSS
  | vex .div .single _ _ _ => .VDIVSS
  | vex .add .double _ _ _ => .VADDSD
  | vex .sub .double _ _ _ => .VSUBSD
  | vex .mul .double _ _ _ => .VMULSD
  | vex .div .double _ _ _ => .VDIVSD
  | cvtsd2ss _ _ => .CVTSD2SS
  | cvtss2sd _ _ => .CVTSS2SD
  | cvtsi2s .single _ _ _ => .CVTSI2SS
  | cvtsi2s .double _ _ _ => .CVTSI2SD
  | cvts2si .single _ _ _ => .CVTSS2SI
  | cvts2si .double _ _ _ => .CVTSD2SI
  | cvtts2si .single _ _ _ => .CVTTSS2SI
  | cvtts2si .double _ _ _ => .CVTTSD2SI

section Run

variable (extra : Except String Value) (s : CpuState)

/-- `read_operand(0)`. -/
def readDest : FpInst → Except String Value
  | packed _ dest _ | logic _ dest _ | scalar _ _ dest _ | vex _ _ dest _ _ | cvtsd2ss dest _
  | cvtss2sd dest _ | cvtsi2s _ dest _ _ => (XmmOrMem.xmm dest : XmmOrMem 128).read s
  | cvts2si _ dest iw _ | cvtts2si _ dest iw _ => (GprOrMem.gpr dest : GprOrMem iw).read s

/-- `read_operand(1)`. -/
def readSrc1 : FpInst → Except String Value
  | packed _ _ src | logic _ _ src => src.read s
  | scalar _ _ _ src | cvts2si _ _ _ src | cvtts2si _ _ _ src => src.read s
  | vex _ _ _ first _ => (XmmOrMem.xmm first : XmmOrMem 128).read s
  | cvtsd2ss _ src => src.read s
  | cvtss2sd _ src => src.read s
  | cvtsi2s _ _ _ src => src.read s

/-- `read_operand(2)`. An instruction with two operands has none. What is read then is `extra`. -/
def readSrc2 : FpInst → Except String Value
  | vex _ _ _ _ second => second.read s
  | _ => extra

/-- `xed_classify_sse`. -/
def isSse : FpInst → Bool
  | vex .. => false
  | _ => true

/-- `write_operand(0, ...)`. -/
def writeDest (v : Value) (inst : FpInst) : Except String CpuState :=
  match inst with
  | packed _ dest _ | logic _ dest _ | scalar _ _ dest _ | vex _ _ dest _ _ | cvtsd2ss dest _
  | cvtss2sd dest _ | cvtsi2s _ dest _ _ => writeVec inst.isSse (xmm dest) v.bits s
  | cvts2si _ dest iw _ | cvtts2si _ dest iw _ =>
    writeGpr (iw.reg dest) v.type.typeClass v.bits s

/-- The translation and what it does. -/
def run (inst : FpInst) : Except String CpuState := do
  let dest ← inst.readDest s
  let src1 ← inst.readSrc1 s
  let src2 ← inst.readSrc2 extra s
  let v ← translateFpVec F inst.iclass ⟨dest, src1, src2⟩
  inst.writeDest s v

end Run

end FpInst

/-! ## The reference -/

/-- What an instruction should write : the first `k` lanes of a register, the rest of which is that
of `merge`, or a general purpose register. -/
inductive FpResult
  | xmm (dest : Fin 32) (sse : Bool) (w k : ℕ) (lanes : ℕ → BitVec w) (merge : BitVec 128)
  | gpr (reg : GprReg) (value : BitVec reg.part.width)

/-- The result is there, and nothing else has changed. What is above an XMM register stays in an SSE
instruction, and is zero after another one. -/
def FpResult.Holds (s s' : CpuState) : FpResult → Prop
  | xmm dest sse w k lanes merge =>
    ((∀ i < k, lane w i (s'.xmm dest) = lanes i) ∧
      ∀ i < 128, w * k ≤ i → (s'.xmm dest).getLsbD i = merge.getLsbD i) ∧
      (∀ i < 512, 128 ≤ i → (s'.zmm dest).getLsbD i = (sse && (s.zmm dest).getLsbD i)) ∧
      ∀ r ≠ .ZMM dest, s' r = s r
  | gpr reg value =>
    reg.Written value (s.gpr reg.num) (s'.gpr reg.num) ∧ ∀ r ≠ gprReg reg.num, s' r = s r

def XmmOrMem.value {w : ℕ} (s : CpuState) : XmmOrMem w → BitVec w
  | xmm num => (s.xmm num).setWidth w
  | mem content => content

def GprOrMem.value {iw : IntWidth} (s : CpuState) : GprOrMem iw → BitVec iw.part.width
  | gpr num => (s.gpr num).setWidth _
  | mem content => content

def PackedFpOp.op : PackedFpOp → FpOp
  | ADDPD => .add
  | SUBPD => .sub

namespace FpInst

/-- The operation that the instruction is named after, of its operands in their order. An integer
has a sign, and a conversion to one rounds, unless the instruction says that it truncates. -/
def result (s : CpuState) : FpInst → FpResult
  | packed op dest src => .xmm dest true 64 2
    (fun i => F.arith op.op (lane 64 i (s.xmm dest)) (lane 64 i (src.value s))) (s.xmm dest)
  | logic _ dest src => .xmm dest true 128 1 (fun _ => s.xmm dest ^^^ src.value s) (s.xmm dest)
  | scalar op prec dest src => .xmm dest true prec.width 1
    (fun _ => F.arith op ((s.xmm dest).setWidth prec.width) (src.value s)) (s.xmm dest)
  | vex op prec dest first second => .xmm dest false prec.width 1
    (fun _ => F.arith op ((s.xmm first).setWidth prec.width) (second.value s)) (s.xmm first)
  | cvtsd2ss dest src => .xmm dest true 32 1
    (fun _ => F.convert .round .floatingPoint .floatingPoint 32 (src.value s)) (s.xmm dest)
  | cvtss2sd dest src => .xmm dest true 64 1
    (fun _ => F.convert .none .floatingPoint .floatingPoint 64 (src.value s)) (s.xmm dest)
  | cvtsi2s prec dest _ src => .xmm dest true prec.width 1
    (fun _ => F.convert .round .signedInteger .floatingPoint prec.width (src.value s))
    (s.xmm dest)
  | cvts2si _ dest iw src => .gpr (iw.reg dest)
    (F.convert .round .floatingPoint .signedInteger iw.part.width (src.value s))
  | cvtts2si _ dest iw src => .gpr (iw.reg dest)
    (F.convert .trunc .floatingPoint .signedInteger iw.part.width (src.value s))

variable (extra : Except String Value) (s : CpuState)

/-- The run leaves what the instruction should. -/
def Right (inst : FpInst) : Prop :=
  ∃ s', inst.run F extra s = .ok s' ∧ (inst.result F s).Holds s s'

/-- There is no third operand, but what is read for it can be read. -/
def Accepted : Prop :=
  ∃ v, extra = .ok v

/-- The third operand that `XORPS` does not have is the destination. The destination of a form with
two sources has the rest of the first one. The conversions are those of unsigned integers, and two
of them convert to something else. -/
def fits : FpInst → Prop
  | packed _ _ _ | scalar _ _ _ _ | cvtsd2ss _ _ => Accepted extra
  | logic _ dest _ => ∃ v, extra = .ok v ∧ v.type.width = 128 ∧ v.bits.setWidth 128 = s.xmm dest
  | vex _ prec dest first _ => s.xmm dest >>> prec.width = s.xmm first >>> prec.width
  | cvtss2sd dest src => Accepted extra ∧
    F.convert .none .floatingPoint .unsignedInteger 128 (src.value s) =
      insertField (s.xmm dest) 0 64
        (F.convert .none .floatingPoint .floatingPoint 64 (src.value s))
  | cvtsi2s prec _ _ src => Accepted extra ∧
    F.convert .round .unsignedInteger .floatingPoint prec.width (src.value s) =
      F.convert .round .signedInteger .floatingPoint prec.width (src.value s)
  | cvts2si .single _ iw src => Accepted extra ∧
    F.convert .none .floatingPoint .unsignedInteger iw.part.width (src.value s) =
      F.convert .round .floatingPoint .signedInteger iw.part.width (src.value s)
  | cvts2si .double dest iw src => Accepted extra ∧
    insertField ((s.gpr dest).setWidth iw.part.width) 0 32
        (F.convert .round .floatingPoint .floatingPoint 32 (src.value s)) =
      F.convert .round .floatingPoint .signedInteger iw.part.width (src.value s)
  | cvtts2si _ _ iw src => Accepted extra ∧
    F.convert .trunc .floatingPoint .unsignedInteger iw.part.width (src.value s) =
      F.convert .trunc .floatingPoint .signedInteger iw.part.width (src.value s)

end FpInst

/-! ## What is read and written -/

section Values

variable (s : CpuState)

/-- A number in a format. -/
def Value.f {w : ℕ} (x : BitVec w) : Value :=
  ⟨.f w, x.setWidth _⟩

/-- The content of a register as elements of a format. -/
def Value.vec (prec : Precision) (x : BitVec 128) : Value :=
  ⟨fpVector prec.width (128 / prec.width), x.setWidth _⟩

theorem readGpr_reg (iw : IntWidth) (num : Fin 16) :
    readGpr (iw.reg num) s = .ok ((s.gpr num).setWidth iw.part.width) :=
  GprReg.readGpr_eq (iw.reg num) s

theorem read_xmm {w : ℕ} (num : Fin 32) :
    (XmmOrMem.xmm num : XmmOrMem w).read s = .ok (.u (s.xmm num)) := by
  rw [XmmOrMem.read, readXmm_eq]
  rfl

theorem GprOrMem.read_eq {iw : IntWidth} (src : GprOrMem iw) :
    src.read s = .ok (.u (src.value s)) := by
  cases src with
  | gpr num =>
    rw [GprOrMem.read, readGpr_reg]
    rfl
  | mem content => rfl

theorem XmmOrMem.read_eq (src : XmmOrMem 128) : src.read s = .ok (.u (src.value s)) := by
  cases src with
  | xmm num =>
    rw [read_xmm, XmmOrMem.value, BitVec.setWidth_eq]
  | mem content => rfl

theorem Value.bitcast_u (prec : Precision) (x : BitVec 128) :
    (Value.u x).bitcast (fpVector prec.width (128 / prec.width)) = .ok (.vec prec x) := by
  cases prec <;> rfl

theorem Value.vectorExtract_vec (prec : Precision) (x : BitVec 128) :
    (Value.vec prec x).vectorExtract = .f (x.setWidth prec.width) := by
  have hle : prec.width * 1 ≤ prec.width * (128 / prec.width) := by cases prec <;> decide
  have hone : prec.width * 1 ≤ prec.width := (Nat.mul_one _).le
  refine congrArg (Value.mk (.f prec.width)) ?_
  exact (BitVec.setWidth_setWidth_of_le x hle).trans (BitVec.setWidth_setWidth_of_le x hone).symm

/-- A number is read from a register as well as from memory. -/
theorem XmmOrMem.firstElement_read (prec : Precision) (src : XmmOrMem prec.width) :
    ∃ v, src.read s = .ok v ∧
      ∀ b, firstElement prec.width (128 / prec.width) v b = .ok (.f (src.value s)) := by
  cases src with
  | xmm num =>
    refine ⟨_, read_xmm s num, fun b => ?_⟩
    rw [firstElement, if_pos (by cases b <;> rfl), Value.bitcast_u, ok_bind,
      Value.vectorExtract_vec]
    rfl
  | mem content =>
    refine ⟨_, rfl, fun b => ?_⟩
    cases prec <;> cases b <;> rfl

/-- There is one lane. -/
theorem Value.arith_f (op : FpOp) (prec : Precision) (x y : BitVec prec.width) :
    Value.arith F op (.f x) (.f y) = .f (F.arith op x y) := by
  have hlane {w : ℕ} (x y : BitVec w) : setLane 0 x (F.arith op (lane w 0 x) (lane w 0 y)) =
      F.arith op x y := by
    rw [setLane_zero, lane_zero, lane_zero, BitVec.setWidth_eq, BitVec.setWidth_eq]
  cases prec with
  | single => exact congrArg (Value.mk (.f 32)) (hlane (w := 32) x y)
  | double => exact congrArg (Value.mk (.f 64)) (hlane (w := 64) x y)

theorem Value.vectorInsert_vec (prec : Precision) (x : BitVec 128) (y : BitVec prec.width) :
    (Value.vec prec x).vectorInsert (.f y) = .vec prec (insertField x 0 prec.width y) := by
  cases prec with
  | single => exact congrArg (Value.mk (fpVector 32 4)) (insertField_setWidth (w := 128) le_rfl)
  | double => exact congrArg (Value.mk (fpVector 64 2)) (insertField_setWidth (w := 128) le_rfl)

end Values

section Writes

variable (s : CpuState)

theorem exists_writeVec_iff (sse : Bool) (dest : Fin 32) (x : BitVec 128) {w k : ℕ}
    {lanes : ℕ → BitVec w} {merge : BitVec 128} :
    (∃ s', writeVec sse (xmm dest) x s = .ok s' ∧
      (FpResult.xmm dest sse w k lanes merge).Holds s s') ↔
      (∀ i < k, lane w i x = lanes i) ∧
        ∀ i < 128, w * k ≤ i → x.getLsbD i = merge.getLsbD i :=
  exists_writeVec_xmm_iff sse dest x s fun z => (∀ i < k, lane w i z = lanes i) ∧
    ∀ i < 128, w * k ≤ i → z.getLsbD i = merge.getLsbD i

/-- A result with one lane. -/
theorem one_lane_iff {w : ℕ} (hw : w ≤ 128) {x merge : BitVec 128} {y : BitVec w} :
    ((∀ i < 1, lane w i x = y) ∧ ∀ i < 128, w * 1 ≤ i → x.getLsbD i = merge.getLsbD i) ↔
      x = insertField merge 0 w y := by
  rw [eq_insertField_iff hw, ushiftRight_eq_iff, Nat.mul_one, ← lane_zero]
  refine and_congr ⟨fun h => h 0 Nat.one_pos, fun h i hi => ?_⟩ Iff.rfl
  rwa [Nat.lt_one_iff.1 hi]

theorem exists_writeGpr_iff (iw : IntWidth) (num : Fin 16) (typeClass : TypeClass)
    (x value : BitVec iw.part.width) :
    (∃ s', writeGpr (iw.reg num) typeClass x s = .ok s' ∧
      (FpResult.gpr (iw.reg num) value).Holds s s') ↔ x = value := by
  have hlow : (iw.reg num).part ≠ .high := by cases iw <;> nofun
  obtain ⟨y, hrun, hwritten⟩ := GprReg.writeGpr_spec (iw.reg num) typeClass x s
  have hx : y.setWidth iw.part.width = x :=
    (GprReg.setWidth_of_written hwritten).trans (if_neg hlow)
  constructor
  · rintro ⟨s', hs', hright, -⟩
    obtain rfl := Except.ok.inj (hrun.symm.trans hs')
    have hvalue : y.setWidth iw.part.width = value := by
      rw [gpr_setGpr] at hright
      exact (GprReg.setWidth_of_written hright).trans (if_neg hlow)
    exact hx.symm.trans hvalue
  · rintro rfl
    refine ⟨_, hrun, ?_, fun r hr => Function.update_of_ne hr _ _⟩
    rwa [gpr_setGpr]

end Writes

/-! ## When the result is right -/

namespace FpInst

variable (extra : Except String Value) (s : CpuState)

theorem right_iff_of_run {inst : FpInst} {dest src1 src2 v : Value}
    (hdest : inst.readDest s = .ok dest) (hsrc1 : inst.readSrc1 s = .ok src1)
    (hsrc2 : inst.readSrc2 extra s = .ok src2)
    (hv : translateFpVec F inst.iclass ⟨dest, src1, src2⟩ = .ok v) :
    inst.Right F extra s ↔
      ∃ s', inst.writeDest s v = .ok s' ∧ (inst.result F s).Holds s s' := by
  rw [Right, run, hdest, ok_bind, hsrc1, ok_bind, hsrc2, ok_bind, hv, ok_bind]

/-- An instruction with two operands is right if what is read for a third one can be, and if the
condition for what it then does holds. -/
theorem right_iff_accepted_and {inst : FpInst} {P : Prop}
    (hsrc2 : inst.readSrc2 extra s = extra)
    (h : ∀ v, extra = .ok v → (inst.Right F extra s ↔ P)) :
    inst.Right F extra s ↔ Accepted extra ∧ P := by
  constructor
  · intro hright
    obtain ⟨s', hrun, -⟩ := id hright
    obtain ⟨dest, -, hrun⟩ := bind_eq_ok.1 hrun
    obtain ⟨src1, -, hrun⟩ := bind_eq_ok.1 hrun
    obtain ⟨src2, hread, -⟩ := bind_eq_ok.1 hrun
    rw [hsrc2] at hread
    exact ⟨⟨src2, hread⟩, (h src2 hread).1 hright⟩
  · rintro ⟨⟨v, hv⟩, hP⟩
    exact (h v hv).2 hP

theorem writeVec_vec (sse : Bool) (dest : Fin 32) (prec : Precision) (x : BitVec 128) :
    writeVec sse (xmm dest) (Value.vec prec x).bits s = writeVec sse (xmm dest) x s := by
  cases prec with
  | single => exact congrArg (fun y => writeVec sse (xmm dest) y s) (BitVec.setWidth_eq x)
  | double => exact congrArg (fun y => writeVec sse (xmm dest) y s) (BitVec.setWidth_eq x)

theorem width_le (prec : Precision) : prec.width ≤ 128 := by
  cases prec <;> decide

theorem scalarOperands_eq (prec : Precision) (d x : BitVec 128) {v : Value}
    {y : BitVec prec.width}
    (hv : firstElement prec.width (128 / prec.width) v false = .ok (.f y)) :
    scalarOperands prec.width (128 / prec.width) ⟨.u d, .u x, v⟩ =
      .ok ⟨.vec prec d, .f (x.setWidth prec.width), .f y⟩ := by
  simp only [scalarOperands, Value.bitcast_u, ok_bind, hv, Value.vectorExtract_vec]
  rfl

theorem translate_scalar (op : FpOp) (prec : Precision) (dest : Fin 32)
    (src : XmmOrMem prec.width) (o : FpOperands) :
    translateFpVec F (scalar op prec dest src).iclass o = (do
      let o ← scalarOperands prec.width (128 / prec.width) ⟨o.dest, o.dest, o.src1⟩
      return o.dest.vectorInsert (.arith F op o.src1 o.src2)) := by
  cases op <;> cases prec <;> rfl

theorem translate_vex (op : FpOp) (prec : Precision) (dest first : Fin 32)
    (second : XmmOrMem prec.width) (o : FpOperands) :
    translateFpVec F (vex op prec dest first second).iclass o = (do
      let o ← scalarOperands prec.width (128 / prec.width) o
      return o.dest.vectorInsert (.arith F op o.src1 o.src2)) := by
  cases op <;> cases prec <;> rfl

/-- The value that a scalar instruction writes. -/
theorem scalar_value (op : FpOp) (prec : Precision) (d x : BitVec 128) {v : Value}
    {y : BitVec prec.width}
    (hv : firstElement prec.width (128 / prec.width) v false = .ok (.f y)) :
    (do
      let o ← scalarOperands prec.width (128 / prec.width) ⟨.u d, .u x, v⟩
      return o.dest.vectorInsert (.arith F op o.src1 o.src2) : Except String Value) =
      .ok (.vec prec (insertField d 0 prec.width (F.arith op (x.setWidth _) y))) := by
  rw [scalarOperands_eq prec d x hv, ok_bind, Value.arith_f, Value.vectorInsert_vec]
  rfl

theorem scalar_right_iff (op : FpOp) (prec : Precision) (dest : Fin 32)
    (src : XmmOrMem prec.width) :
    (scalar op prec dest src).Right F extra s ↔ (scalar op prec dest src).fits F extra s := by
  obtain ⟨v, hread, hv⟩ := XmmOrMem.firstElement_read s prec src
  have hright : (scalar op prec dest src).Right F extra s ↔ Accepted extra ∧ True := by
    refine right_iff_accepted_and F extra s rfl fun v₂ hv₂ => ?_
    have hvalue := (translate_scalar F op prec dest src ⟨.u (s.xmm dest), v, v₂⟩).trans
      (scalar_value F op prec (s.xmm dest) (s.xmm dest) (hv false))
    rw [@right_iff_of_run F extra s (scalar op prec dest src) _ _ _ _
      (read_xmm (w := 128) s dest) hread hv₂ hvalue]
    have hwrite (x : BitVec 128) : (scalar op prec dest src).writeDest s (.vec prec x) =
        writeVec true (xmm dest) x s := writeVec_vec s true dest prec x
    rw [hwrite]
    refine iff_of_true ((exists_writeVec_iff s true dest _).2 ?_) trivial
    exact (one_lane_iff (width_le prec)).2 rfl
  exact hright.trans (and_iff_left trivial)

theorem vex_right_iff (op : FpOp) (prec : Precision) (dest first : Fin 32)
    (second : XmmOrMem prec.width) :
    (vex op prec dest first second).Right F extra s ↔
      (vex op prec dest first second).fits F extra s := by
  obtain ⟨v, hread, hv⟩ := XmmOrMem.firstElement_read s prec second
  have hvalue := (translate_vex F op prec dest first second
    ⟨.u (s.xmm dest), .u (s.xmm first), v⟩).trans
    (scalar_value F op prec (s.xmm dest) (s.xmm first) (hv false))
  rw [@right_iff_of_run F extra s (vex op prec dest first second) _ _ _ _
    (read_xmm (w := 128) s dest) (read_xmm (w := 128) s first) hread hvalue]
  have hwrite (x : BitVec 128) : (vex op prec dest first second).writeDest s (.vec prec x) =
      writeVec false (xmm dest) x s := writeVec_vec s false dest prec x
  rw [hwrite]
  refine (exists_writeVec_iff s false dest _).trans ?_
  rw [one_lane_iff (width_le prec), insertField_eq_insertField_iff (width_le prec)]
  exact and_iff_right rfl

theorem castOperands_eq (prec : Precision) (d x : BitVec 128) {v v' : Value}
    (hv : v.bitcast (fpVector prec.width (128 / prec.width)) = .ok v') :
    castOperands prec.width (128 / prec.width) ⟨.u d, .u x, v⟩ =
      .ok ⟨.vec prec d, .vec prec x, v'⟩ := by
  simp only [castOperands, Value.bitcast_u, ok_bind, hv]
  rfl

theorem translate_packed (op : PackedFpOp) (dest : Fin 32) (src : XmmOrMem 128)
    (o : FpOperands) :
    translateFpVec F (packed op dest src).iclass o = (do
      let o ← castOperands 64 2 ⟨o.dest, o.dest, o.src1⟩
      return .arith F op.op o.src1 o.src2) := by
  cases op <;> rfl

theorem arith_vec (op : FpOp) (x y : BitVec 128) :
    Value.arith F op (.vec .double x) (.vec .double y) =
      .vec .double (zipLanes (w := 64) (F.arith op) 2 x y) := by
  have hbits : zipLanes (w := 64) (F.arith op) 2 (x.setWidth 128)
      ((y.setWidth 128).setWidth 128) =
        (zipLanes (w := 64) (F.arith op) 2 x y).setWidth 128 := by
    rw [BitVec.setWidth_eq, BitVec.setWidth_eq, BitVec.setWidth_eq, BitVec.setWidth_eq]
  exact congrArg (Value.mk (fpVector 64 2)) hbits

theorem packed_value (op : PackedFpOp) (dest : Fin 32) (src : XmmOrMem 128) (d x : BitVec 128)
    (v : Value) :
    translateFpVec F (packed op dest src).iclass ⟨.u d, .u x, v⟩ =
      .ok (.vec .double (zipLanes (w := 64) (F.arith op.op) 2 d x)) := by
  have hcast := castOperands_eq .double d d (Value.bitcast_u .double x)
  rw [translate_packed, show castOperands 64 2 ⟨.u d, .u d, .u x⟩ = _ from hcast, ok_bind,
    arith_vec]
  rfl

theorem packed_right_iff (op : PackedFpOp) (dest : Fin 32) (src : XmmOrMem 128) :
    (packed op dest src).Right F extra s ↔ (packed op dest src).fits F extra s := by
  have hright : (packed op dest src).Right F extra s ↔ Accepted extra ∧ True := by
    refine right_iff_accepted_and F extra s rfl fun v₂ hv₂ => ?_
    rw [@right_iff_of_run F extra s (packed op dest src) _ _ _ _ (read_xmm (w := 128) s dest)
      (src.read_eq s) hv₂ (packed_value F op dest src _ _ _)]
    have hwrite (x : BitVec 128) : (packed op dest src).writeDest s (.vec .double x) =
        writeVec true (xmm dest) x s := writeVec_vec s true dest .double x
    rw [hwrite]
    refine iff_of_true ((exists_writeVec_iff s true dest _).2 ⟨fun i hi => ?_, ?_⟩) trivial
    · rw [lane_zipLanes (by omega) _ _ (by decide), if_pos hi]
    · intro i hi hle
      omega
  exact hright.trans (and_iff_left trivial)

theorem translate_logic (prec : Precision) (dest : Fin 32) (src : XmmOrMem 128)
    (o : FpOperands) :
    translateFpVec F (logic prec dest src).iclass o = (do
      let o ← castOperands prec.width (128 / prec.width) o
      o.src1.xor o.src2) := by
  cases prec <;> rfl

theorem width_fpVector (prec : Precision) :
    (fpVector prec.width (128 / prec.width)).width = 128 := by
  cases prec <;> rfl

theorem bitcast_of_width (prec : Precision) {v : Value} (hv : v.type.width = 128) :
    v.bitcast (fpVector prec.width (128 / prec.width)) =
      .ok (.vec prec (v.bits.setWidth 128)) := by
  rw [Value.bitcast, if_pos ((width_fpVector prec).trans hv.symm)]
  exact congrArg (fun x => Except.ok (Value.mk _ x))
    (BitVec.setWidth_setWidth_of_le v.bits (width_fpVector prec).le).symm

theorem xor_vec (prec : Precision) (x y : BitVec 128) :
    (Value.vec prec x).xor (.vec prec y) = .ok (.vec prec (x ^^^ y)) := by
  have hbits : x.setWidth 128 ^^^ (y.setWidth 128).setWidth 128 = (x ^^^ y).setWidth 128 := by
    rw [BitVec.setWidth_eq, BitVec.setWidth_eq, BitVec.setWidth_eq, BitVec.setWidth_eq]
  cases prec with
  | single => exact congrArg (fun z => Except.ok (Value.mk (fpVector 32 4) z)) hbits
  | double => exact congrArg (fun z => Except.ok (Value.mk (fpVector 64 2) z)) hbits

/-- What is read for the third operand, if it has the width of the others. -/
theorem logic_value (prec : Precision) (dest : Fin 32) (src : XmmOrMem 128) (d x : BitVec 128)
    {v : Value} (hv : v.type.width = 128) :
    translateFpVec F (logic prec dest src).iclass ⟨.u d, .u x, v⟩ =
      .ok (.vec prec (x ^^^ v.bits.setWidth 128)) := by
  rw [translate_logic, castOperands_eq prec d x (bitcast_of_width prec hv), ok_bind, xor_vec]

/-- A third operand of another width is rejected. -/
theorem width_of_logic_right {prec : Precision} {dest : Fin 32} {src : XmmOrMem 128} {v : Value}
    (h : (logic prec dest src).Right F (.ok v) s) : v.type.width = 128 := by
  obtain ⟨s', hrun, -⟩ := h
  obtain ⟨d, -, hrun⟩ := bind_eq_ok.1 hrun
  obtain ⟨x, -, hrun⟩ := bind_eq_ok.1 hrun
  obtain ⟨v', hv', hrun⟩ := bind_eq_ok.1 hrun
  obtain rfl := Except.ok.inj hv'
  obtain ⟨res, hres, -⟩ := bind_eq_ok.1 hrun
  rw [translate_logic] at hres
  obtain ⟨o, ho, -⟩ := bind_eq_ok.1 hres
  obtain ⟨d', -, hcast⟩ := bind_eq_ok.1 ho
  obtain ⟨x', -, hcast⟩ := bind_eq_ok.1 hcast
  obtain ⟨y, hy, -⟩ := bind_eq_ok.1 hcast
  by_contra hne
  rw [Value.bitcast, if_neg fun hwidth => hne (hwidth.symm.trans (width_fpVector prec))] at hy
  cases hy

theorem logic_right_iff (prec : Precision) (dest : Fin 32) (src : XmmOrMem 128) :
    (logic prec dest src).Right F extra s ↔ (logic prec dest src).fits F extra s := by
  have haccepted : (logic prec dest src).fits F extra s → Accepted extra :=
    fun ⟨v, hv, _⟩ => ⟨v, hv⟩
  rw [← and_iff_right_of_imp haccepted]
  refine @right_iff_accepted_and F extra s (logic prec dest src) _ rfl fun v hv => ?_
  subst hv
  have hfits : (logic prec dest src).fits F (.ok v) s ↔
      v.type.width = 128 ∧ v.bits.setWidth 128 = s.xmm dest := by
    constructor
    · rintro ⟨v', hv', hwidth, hbits⟩
      obtain rfl := Except.ok.inj hv'
      exact ⟨hwidth, hbits⟩
    · rintro ⟨hwidth, hbits⟩
      exact ⟨v, rfl, hwidth, hbits⟩
  rw [hfits]
  by_cases hwidth : v.type.width = 128
  · rw [and_iff_right hwidth, @right_iff_of_run F (.ok v) s (logic prec dest src) _ _ _ _
      (read_xmm (w := 128) s dest) (src.read_eq s) rfl (logic_value F prec dest src _ _ hwidth)]
    have hwrite (x : BitVec 128) : (logic prec dest src).writeDest s (.vec prec x) =
        writeVec true (xmm dest) x s := writeVec_vec s true dest prec x
    rw [hwrite]
    refine (exists_writeVec_iff s true dest _).trans ?_
    rw [one_lane_iff le_rfl, insertField_all, BitVec.xor_comm, BitVec.xor_left_inj]
  · exact iff_of_false (fun h => hwidth (width_of_logic_right F s h)) fun h => hwidth h.1

/-! ### Conversions -/

theorem convert_f (prec : Precision) (type : ValueType) (y : BitVec prec.width)
    (convertType : FpConvertType) :
    Value.convert F type (.f y) convertType =
      ⟨type, F.convert convertType .floatingPoint type.typeClass _ y⟩ := by
  cases prec with
  | single =>
    exact congrArg
      (fun x => Value.mk type (F.convert convertType .floatingPoint type.typeClass _ x))
      (BitVec.setWidth_eq (y : BitVec 32))
  | double =>
    exact congrArg
      (fun x => Value.mk type (F.convert convertType .floatingPoint type.typeClass _ x))
      (BitVec.setWidth_eq (y : BitVec 64))

theorem convert_u (iw : IntWidth) (type : ValueType) (y : BitVec iw.part.width)
    (convertType : FpConvertType) :
    Value.convert F type (.u y) convertType =
      ⟨type, F.convert convertType .unsignedInteger type.typeClass _ y⟩ := by
  cases iw with
  | dword =>
    exact congrArg
      (fun x => Value.mk type (F.convert convertType .unsignedInteger type.typeClass _ x))
      (BitVec.setWidth_eq (y : BitVec 32))
  | qword =>
    exact congrArg
      (fun x => Value.mk type (F.convert convertType .unsignedInteger type.typeClass _ x))
      (BitVec.setWidth_eq (y : BitVec 64))

/-- A number that is converted to an integer. -/
theorem convert_f_u (prec : Precision) (iw : IntWidth) (y : BitVec prec.width)
    (convertType : FpConvertType) :
    Value.convert F (.u iw.part.width) (.f y) convertType =
      .u (F.convert convertType .floatingPoint .unsignedInteger iw.part.width y) := by
  rw [convert_f]
  cases iw with
  | dword => exact congrArg (Value.mk (.u 32)) (BitVec.setWidth_eq (_ : BitVec 32)).symm
  | qword => exact congrArg (Value.mk (.u 64)) (BitVec.setWidth_eq (_ : BitVec 64)).symm

/-- An integer that is converted to a number. -/
theorem convert_u_f (prec : Precision) (iw : IntWidth) (y : BitVec iw.part.width)
    (convertType : FpConvertType) :
    Value.convert F (.f prec.width) (.u y) convertType =
      .f (F.convert convertType .unsignedInteger .floatingPoint prec.width y) := by
  rw [convert_u]
  cases prec with
  | single => exact congrArg (Value.mk (.f 32)) (BitVec.setWidth_eq (_ : BitVec 32)).symm
  | double => exact congrArg (Value.mk (.f 64)) (BitVec.setWidth_eq (_ : BitVec 64)).symm

theorem vectorInsert_u {w : ℕ} (d : BitVec w) (y : BitVec 32) :
    (Value.u d).vectorInsert ⟨.f 32, y⟩ = .u (insertField d 0 32 y) :=
  congrArg (Value.mk (.u w)) (setWidth_insertField (Nat.mul_one w).le).symm

theorem bitInsert_u (prec : Precision) (d : BitVec 128) (y : BitVec prec.width) :
    (Value.u d).bitInsert (.f y) prec.width = .u (insertField d 0 prec.width y) := by
  have hlow : insertField (d.setWidth (128 * 1)) 0 prec.width (y.setWidth (prec.width * 1)) =
      insertField (d.setWidth (128 * 1)) 0 prec.width y :=
    insertField_setWidth (Nat.mul_one prec.width).ge
  exact congrArg (Value.mk (.u 128)) (hlow.trans (setWidth_insertField le_rfl).symm)

theorem writeVec_u (sse : Bool) (dest : Fin 32) (x : BitVec 128) :
    writeVec sse (xmm dest) (Value.u x).bits s = writeVec sse (xmm dest) x s :=
  congrArg (fun y => writeVec sse (xmm dest) y s) (BitVec.setWidth_eq x)

/-- A conversion from a floating-point number takes the first element of the source. -/
theorem translate_cvt (prec : Precision) {iclass : FpVecClass} {o : FpOperands}
    {y : BitVec prec.width}
    (h : translateFpVec F iclass o = (do
      let src1 ← firstElement prec.width (128 / prec.width) o.src1 true
      return { o with src1 }) >>= computeResult F iclass)
    (hv : firstElement prec.width (128 / prec.width) o.src1 true = .ok (.f y)) :
    translateFpVec F iclass o = computeResult F iclass { o with src1 := .f y } := by
  rw [h, hv]
  rfl

theorem cvtsd2ss_right_iff (dest : Fin 32) (src : XmmOrMem 64) :
    (cvtsd2ss dest src).Right F extra s ↔ (cvtsd2ss dest src).fits F extra s := by
  obtain ⟨v, hread, hv⟩ := XmmOrMem.firstElement_read s .double src
  have hright : (cvtsd2ss dest src).Right F extra s ↔ Accepted extra ∧ True := by
    refine right_iff_accepted_and F extra s rfl fun v₂ hv₂ => ?_
    have hvalue : translateFpVec F (cvtsd2ss dest src).iclass ⟨.u (s.xmm dest), v, v₂⟩ =
        .ok (.u (insertField (s.xmm dest) 0 32
          (F.convert .round .floatingPoint .floatingPoint 32 (src.value s)))) := by
      rw [translate_cvt F .double rfl (hv true), iclass, computeResult, convert_f F .double]
      exact congrArg Except.ok (vectorInsert_u (s.xmm dest) _)
    have hwrite (x : BitVec 128) : (cvtsd2ss dest src).writeDest s (.u x) =
        writeVec true (xmm dest) x s := writeVec_u s true dest x
    rw [@right_iff_of_run F extra s (cvtsd2ss dest src) _ _ _ _ (read_xmm (w := 128) s dest) hread
      hv₂ hvalue, hwrite]
    refine iff_of_true ((exists_writeVec_iff s true dest _).2 ?_) trivial
    exact (one_lane_iff (show 32 ≤ 128 by decide)).2 rfl
  exact hright.trans (and_iff_left trivial)

theorem cvtss2sd_right_iff (dest : Fin 32) (src : XmmOrMem 32) :
    (cvtss2sd dest src).Right F extra s ↔ (cvtss2sd dest src).fits F extra s := by
  obtain ⟨v, hread, hv⟩ := XmmOrMem.firstElement_read s .single src
  refine right_iff_accepted_and F extra s rfl fun v₂ hv₂ => ?_
  have hvalue : translateFpVec F (cvtss2sd dest src).iclass ⟨.u (s.xmm dest), v, v₂⟩ =
      .ok ⟨.u 128, F.convert .none .floatingPoint .unsignedInteger 128 (src.value s)⟩ := by
    rw [translate_cvt F .single rfl (hv true), iclass, computeResult, convert_f F .single]
    rfl
  have hwrite (x : BitVec 128) : (cvtss2sd dest src).writeDest s ⟨.u 128, x⟩ =
      writeVec true (xmm dest) x s := rfl
  rw [@right_iff_of_run F extra s (cvtss2sd dest src) _ _ _ _ (read_xmm (w := 128) s dest) hread
    hv₂ hvalue, hwrite]
  refine (exists_writeVec_iff s true dest _).trans ?_
  rw [one_lane_iff (show 64 ≤ 128 by decide)]

theorem cvtsi2s_right_iff (prec : Precision) (dest : Fin 32) (iw : IntWidth)
    (src : GprOrMem iw) :
    (cvtsi2s prec dest iw src).Right F extra s ↔ (cvtsi2s prec dest iw src).fits F extra s := by
  refine right_iff_accepted_and F extra s rfl fun v₂ hv₂ => ?_
  have hvalue : translateFpVec F (cvtsi2s prec dest iw src).iclass
      ⟨.u (s.xmm dest), .u (src.value s), v₂⟩ =
        .ok (.u (insertField (s.xmm dest) 0 prec.width
          (F.convert .round .unsignedInteger .floatingPoint prec.width (src.value s)))) := by
    have hcode : translateFpVec F (cvtsi2s prec dest iw src).iclass
        ⟨.u (s.xmm dest), .u (src.value s), v₂⟩ = .ok ((Value.u (s.xmm dest)).bitInsert
          (.convert F (.f prec.width) (.u (src.value s)) .round) prec.width) := by
      cases prec <;> rfl
    rw [hcode, convert_u_f, bitInsert_u]
  have hwrite (x : BitVec 128) : (cvtsi2s prec dest iw src).writeDest s (.u x) =
      writeVec true (xmm dest) x s := writeVec_u s true dest x
  rw [@right_iff_of_run F extra s (cvtsi2s prec dest iw src) _ _ _ _ (read_xmm (w := 128) s dest)
    (src.read_eq s) hv₂ hvalue, hwrite]
  refine (exists_writeVec_iff s true dest _).trans ?_
  rw [one_lane_iff (width_le prec), insertField_eq_insertField_iff (width_le prec)]
  exact and_iff_left rfl

theorem writeGpr_u (iw : IntWidth) (num : Fin 16) (x : BitVec iw.part.width) :
    writeGpr (iw.reg num) .unsignedInteger (Value.u x).bits s =
      writeGpr (iw.reg num) .unsignedInteger x s := by
  cases iw with
  | dword =>
    exact congrArg (fun y => writeGpr (IntWidth.dword.reg num) .unsignedInteger y s)
      (BitVec.setWidth_eq (x : BitVec 32))
  | qword =>
    exact congrArg (fun y => writeGpr (IntWidth.qword.reg num) .unsignedInteger y s)
      (BitVec.setWidth_eq (x : BitVec 64))

theorem cvtts2si_right_iff (prec : Precision) (dest : Fin 16) (iw : IntWidth)
    (src : XmmOrMem prec.width) :
    (cvtts2si prec dest iw src).Right F extra s ↔ (cvtts2si prec dest iw src).fits F extra s := by
  obtain ⟨v, hread, hv⟩ := XmmOrMem.firstElement_read s prec src
  refine right_iff_accepted_and F extra s rfl fun v₂ hv₂ => ?_
  have hvalue : translateFpVec F (cvtts2si prec dest iw src).iclass
      ⟨.u ((s.gpr dest).setWidth iw.part.width), v, v₂⟩ =
        .ok (.u (F.convert .trunc .floatingPoint .unsignedInteger iw.part.width
          (src.value s))) := by
    rw [translate_cvt F prec (by cases prec <;> rfl) (hv true)]
    have hcode (o : FpOperands) : computeResult F (cvtts2si prec dest iw src).iclass o =
        .ok (.convert F o.dest.type o.src1 .trunc) := by
      cases prec <;> rfl
    rw [hcode]
    exact congrArg Except.ok (convert_f_u F prec iw _ _)
  have hwrite (x : BitVec iw.part.width) : (cvtts2si prec dest iw src).writeDest s (.u x) =
      writeGpr (iw.reg dest) .unsignedInteger x s := writeGpr_u s iw dest x
  rw [@right_iff_of_run F extra s (cvtts2si prec dest iw src) _ _ _ _
    ((GprOrMem.gpr dest : GprOrMem iw).read_eq s) hread hv₂ hvalue, hwrite]
  exact exists_writeGpr_iff s iw dest _ _ _

theorem cvts2si_right_iff (prec : Precision) (dest : Fin 16) (iw : IntWidth)
    (src : XmmOrMem prec.width) :
    (cvts2si prec dest iw src).Right F extra s ↔ (cvts2si prec dest iw src).fits F extra s := by
  obtain ⟨v, hread, hv⟩ := XmmOrMem.firstElement_read s prec src
  have hwrite (x : BitVec iw.part.width) : (cvts2si prec dest iw src).writeDest s (.u x) =
      writeGpr (iw.reg dest) .unsignedInteger x s := writeGpr_u s iw dest x
  cases prec with
  | single =>
    refine right_iff_accepted_and F extra s rfl fun v₂ hv₂ => ?_
    have hvalue : translateFpVec F (cvts2si .single dest iw src).iclass
        ⟨.u ((s.gpr dest).setWidth iw.part.width), v, v₂⟩ =
          .ok (.u (F.convert .none .floatingPoint .unsignedInteger iw.part.width
            (src.value s))) := by
      rw [translate_cvt F .single rfl (hv true), iclass, computeResult]
      exact congrArg Except.ok (convert_f_u F .single iw _ _)
    rw [@right_iff_of_run F extra s (cvts2si .single dest iw src) _ _ _ _
      ((GprOrMem.gpr dest : GprOrMem iw).read_eq s) hread hv₂ hvalue, hwrite]
    exact exists_writeGpr_iff s iw dest _ _ _
  | double =>
    refine right_iff_accepted_and F extra s rfl fun v₂ hv₂ => ?_
    have hvalue : translateFpVec F (cvts2si .double dest iw src).iclass
        ⟨.u ((s.gpr dest).setWidth iw.part.width), v, v₂⟩ =
          .ok (.u (insertField ((s.gpr dest).setWidth iw.part.width) 0 32
            (F.convert .round .floatingPoint .floatingPoint 32 (src.value s)))) := by
      rw [translate_cvt F .double rfl (hv true), iclass, computeResult, convert_f F .double]
      exact congrArg Except.ok (vectorInsert_u _ _)
    rw [@right_iff_of_run F extra s (cvts2si .double dest iw src) _ _ _ _
      ((GprOrMem.gpr dest : GprOrMem iw).read_eq s) hread hv₂ hvalue, hwrite]
    exact exists_writeGpr_iff s iw dest _ _ _

/-- What an instruction leaves is right exactly if it fits. -/
theorem fpvec_right_iff (inst : FpInst) : inst.Right F extra s ↔ inst.fits F extra s := by
  cases inst with
  | packed op dest src => exact packed_right_iff F extra s op dest src
  | logic prec dest src => exact logic_right_iff F extra s prec dest src
  | scalar op prec dest src => exact scalar_right_iff F extra s op prec dest src
  | vex op prec dest first second => exact vex_right_iff F extra s op prec dest first second
  | cvtsd2ss dest src => exact cvtsd2ss_right_iff F extra s dest src
  | cvtss2sd dest src => exact cvtss2sd_right_iff F extra s dest src
  | cvtsi2s prec dest iw src => exact cvtsi2s_right_iff F extra s prec dest iw src
  | cvts2si prec dest iw src => exact cvts2si_right_iff F extra s prec dest iw src
  | cvtts2si prec dest iw src => exact cvtts2si_right_iff F extra s prec dest iw src

/-- Functions that return an operand. -/
def firstOperand : FpFunctions where
  arith _ _ x _ := x
  convert _ _ _ _ _ x := x.setWidth _

/-- A bit in the second element of `XMM0`. -/
def secondElement : CpuState :=
  Function.update (fun _ => 0) (.ZMM 0) 0x100000000

/-- `VADDSS` of `XMM1` and `XMM2` to `XMM0`, of which the rest stays. -/
theorem not_fpvec_right :
    ¬(vex .add .single 0 1 (.xmm 2)).Right firstOperand (.ok (.u 0#128)) secondElement := by
  intro h
  have hrest : secondElement.xmm 0 >>> 32 = secondElement.xmm 1 >>> 32 :=
    (vex_right_iff _ _ _ _ _ _ _ _).1 h
  exact absurd hrest (by decide +kernel)

end FpInst

end Arancini.X86
