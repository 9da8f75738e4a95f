import Arancini.Ir.Node
import Arancini.Lib.Except
import Arancini.Riscv.Shift

/-!
# Constant folding on RISC-V

`get_as_int` evaluates a tree of nodes on integers of 64 bits. It does not reduce the inner nodes
to their widths, so the integer of a node agrees with the value of the node on the width of the
node only. Additions and shifts to the left need no more. A shift to the right brings bits from
above the width into it, a division reads the whole integer, and a shift looks at the whole
integer of its amount.

`getAsInt_right_iff` says for which trees the integers are right at every node, and no shift or
division is undefined.
-/

namespace Arancini.Riscv

open Ir (ValueType BinaryArithOp CastOp)

/-! ## Trees -/

/-- The flags of a shift that another node may use. -/
inductive ShiftFlag
  | zero
  | negative
  deriving DecidableEq

/-- A port with what it depends on, of the type of the port. The constructors of the nodes check
the width of a bitcast and the range of an extraction. A binary operation has whether one of its
flags is used, and `shiftFlag` is a flag of a shift. The ports of all other nodes, and the flags
of a binary operation, are `other`. -/
inductive Tree : ValueType → Type
  | constant (vt : ValueType) (cvi : BitVec 64) : Tree vt
  | readPc : Tree (.u 64)
  | binaryArith {vt vt' : ValueType} (op : BinaryArithOp) (flagsNeeded : Bool) (lhs : Tree vt)
      (rhs : Tree vt') : Tree vt
  | cast {vt' : ValueType} (op : CastOp) (vt : ValueType) (source : Tree vt')
      (width : op = .bitcast → vt.width = vt'.width) : Tree vt
  | bitExtract {vt' : ValueType} (start length : ℕ) (source : Tree vt')
      (range : start + length ≤ vt'.width) : Tree (.u length)
  | bitShift {vt vt' : ValueType} (op : ShiftOp) (input : Tree vt) (amount : Tree vt') : Tree vt
  | shiftFlag {vt vt' : ValueType} (flag : ShiftFlag) (op : ShiftOp) (input : Tree vt)
      (amount : Tree vt') : Tree (.u 1)
  | other (vt : ValueType) (val : BitVec vt.width) : Tree vt

/-- `is_gpr_or_flag_t`. -/
def isGprOrFlagT (vt : ValueType) : Bool :=
  (vt.elementWidth ∈ widths && vt.nrElements ≤ 1 &&
      (vt.typeClass = .signedInteger || vt.typeClass = .unsignedInteger)) ||
    vt.elementWidth = 1

/-! ## The evaluator -/

/-- How `get_as_int` ends without an answer : it throws, or it does what C++ does not define. -/
inductive Stop
  | thrown (msg : String)
  | undefined
  deriving DecidableEq

/-- An integer, or none for a tree that is not a constant. -/
abbrev Folded :=
  Except Stop (Option (BitVec 64))

/-- A shift of C++. -/
def shiftedInt (shift : BitVec 64 → ℕ → BitVec 64) (x : BitVec 64) (amt : ℤ) :
    Except Stop (BitVec 64) :=
  if 0 ≤ amt ∧ amt < 64 then .ok (shift x amt.toNat) else .error .undefined

/-- A division of C++. The quotient of the least number and minus one is not defined either. -/
def dividedInt (divide : BitVec 64 → BitVec 64 → BitVec 64) (x y : BitVec 64) : Folded :=
  if y = 0 ∨ (x = BitVec.intMin 64 ∧ y = -1) then .error .undefined else .ok (some (divide x y))

/-- The `switch` on `binary_arith_op`. -/
def intArith (op : BinaryArithOp) (lhs rhs : BitVec 64) : Folded :=
  match op with
  | .add => .ok (some (lhs + rhs))
  | .sub => .ok (some (lhs - rhs))
  | .mul => .ok (some (lhs * rhs))
  | .div => dividedInt BitVec.sdiv lhs rhs
  | .mod => dividedInt BitVec.srem lhs rhs
  | .band => .ok (some (lhs &&& rhs))
  | .bor => .ok (some (lhs ||| rhs))
  | .bxor => .ok (some (lhs ^^^ rhs))
  | _ => .ok none

/-- The `switch` on `cast_op`, where `width` is the element width of the source. -/
def intCast (op : CastOp) (width : ℕ) (srcVal : BitVec 64) : Folded :=
  match op with
  | .bitcast => .ok (some srcVal)
  | .trunc | .zx => do
    let up ← shiftedInt (· <<< ·) srcVal (64 - width)
    let down ← shiftedInt (· >>> ·) up (64 - width)
    return some down
  | .sx => do
    let up ← shiftedInt (· <<< ·) srcVal (64 - width)
    let down ← shiftedInt BitVec.sshiftRight up (64 - width)
    return some down
  | .convert => .ok none

/-- The case of `bit_extract`. -/
def intExtract (start length : ℕ) (srcVal : BitVec 64) : Folded := do
  let up ← shiftedInt (· <<< ·) srcVal (64 - (start + length))
  let down ← shiftedInt (· >>> ·) up (64 - length)
  return some down

/-- The `switch` on `shift_op`. -/
def intShift (op : ShiftOp) (srcVal amt : BitVec 64) : Folded := do
  let out ← shiftedInt op.value srcVal amt.toInt
  return some out

/-- Go on with an integer, if there is one. -/
def withInt (f : BitVec 64 → Folded) : Option (BitVec 64) → Folded
  | some x => f x
  | none => .ok none

/-- Go on with two integers, if there are both. -/
def withInts (f : BitVec 64 → BitVec 64 → Folded) : Option (BitVec 64) → Option (BitVec 64) → Folded
  | some x, some y => f x y
  | _, _ => .ok none

section Evaluate

variable (address : BitVec 64)

/-- `get_as_int` of the owner of the port, in a translation at `address`. -/
def getAsInt {vt : ValueType} : Tree vt → Folded
  | .constant vt cvi =>
    if isGprOrFlagT vt then .ok (some cvi) else .error (.thrown "unsupported width on constant")
  | .readPc => .ok (some address)
  | .binaryArith op flagsNeeded lhs rhs =>
    if flagsNeeded then .ok none
    else getAsInt lhs >>= withInt fun x => getAsInt rhs >>= withInt fun y => intArith op x y
  | @Tree.cast vt' op _ source _ =>
    getAsInt source >>= withInt fun x => intCast op vt'.elementWidth x
  | .bitExtract start length source _ =>
    getAsInt source >>= withInt fun x => intExtract start length x
  | .bitShift op input amount =>
    getAsInt input >>= fun x => getAsInt amount >>= fun y => withInts (intShift op) x y
  | .shiftFlag _ op input amount => -- the port is not looked at
    getAsInt input >>= fun x => getAsInt amount >>= fun y => withInts (intShift op) x y
  | .other .. => .ok none

end Evaluate

/-! ## The meaning of a tree -/

/-- A type of one integer. -/
def isScalarInt (vt : ValueType) : Bool :=
  vt.nrElements = 1 && (vt.typeClass = .signedInteger || vt.typeClass = .unsignedInteger)

/-- The operations on vectors and on floating-point numbers, and the comparisons. -/
structure LaneOps where
  arith : (vt : ValueType) → BinaryArithOp → BitVec vt.width → BitVec vt.width → BitVec vt.width
  cast : (vt vt' : ValueType) → CastOp → BitVec vt'.width → BitVec vt.width
  shift : (vt : ValueType) → ShiftOp → BitVec vt.width → ℕ → BitVec vt.width

section Meaning

variable (ops : LaneOps)

/-- A binary operation at a type. The type says whether a division is signed. -/
def arithValue (vt : ValueType) (op : BinaryArithOp) (lhs rhs : BitVec vt.width) :
    BitVec vt.width :=
  match op, isScalarInt vt with
  | .band, _ => lhs &&& rhs
  | .bor, _ => lhs ||| rhs
  | .bxor, _ => lhs ^^^ rhs
  | .add, true => lhs + rhs
  | .sub, true => lhs - rhs
  | .mul, true => lhs * rhs
  | .div, true => if vt.typeClass = .signedInteger then lhs.sdiv rhs else lhs.udiv rhs
  | .mod, true => if vt.typeClass = .signedInteger then lhs.srem rhs else lhs.umod rhs
  | op, _ => ops.arith vt op lhs rhs

/-- A cast from `vt'` to `vt`. -/
def castValue (vt vt' : ValueType) (op : CastOp) (source : BitVec vt'.width) : BitVec vt.width :=
  match op, isScalarInt vt && isScalarInt vt' with
  | .bitcast, _ => source.setWidth vt.width
  | .zx, true | .trunc, true => source.setWidth vt.width
  | .sx, true => source.signExtend vt.width
  | op, _ => ops.cast vt vt' op source

def shiftValue (vt : ValueType) (op : ShiftOp) (input : BitVec vt.width) (amount : ℕ) :
    BitVec vt.width :=
  if isScalarInt vt then op.value input amount else ops.shift vt op input amount

def ShiftFlag.value {w : ℕ} (out : BitVec w) : ShiftFlag → BitVec 1
  | zero => BitVec.ofBool (out == 0)
  | negative => BitVec.ofBool out.msb

variable (address : BitVec 64)

/-- The value of a tree. An operand of a binary operation of another width is taken at the width of
the node. -/
def Tree.value {vt : ValueType} : Tree vt → BitVec vt.width
  | constant vt cvi => cvi.setWidth vt.width
  | readPc => address
  | @binaryArith vt _ op _ lhs rhs => arithValue ops vt op lhs.value (rhs.value.setWidth vt.width)
  | @cast vt' op vt source _ => castValue ops vt vt' op source.value
  | bitExtract start length source _ => (source.value >>> start).setWidth _
  | @bitShift vt _ op input amount => shiftValue ops vt op input.value amount.value.toNat
  | @shiftFlag vt _ flag op input amount =>
    flag.value (shiftValue ops vt op input.value amount.value.toNat)
  | other _ val => val

/-- A result is the value, or there is none. It agrees with the value modulo two to the width. -/
def Represents {w : ℕ} (res : Folded) (v : BitVec w) : Prop :=
  match res with
  | .ok (some x) => BitVec.ofInt w x.toInt = v
  | .ok none => True
  | .error (.thrown _) => True
  | .error .undefined => False

/-- A property holds of a tree and of the trees in it. -/
def Everywhere (P : {vt : ValueType} → Tree vt → Prop) {vt : ValueType} : Tree vt → Prop
  | t@(.constant ..) | t@.readPc | t@(.other ..) => P t
  | t@(.binaryArith _ _ lhs rhs) => (Everywhere P lhs ∧ Everywhere P rhs) ∧ P t
  | t@(.cast _ _ source _) => Everywhere P source ∧ P t
  | t@(.bitExtract _ _ source _) => Everywhere P source ∧ P t
  | t@(.bitShift _ input amount) => (Everywhere P input ∧ Everywhere P amount) ∧ P t
  | t@(.shiftFlag _ _ input amount) => (Everywhere P input ∧ Everywhere P amount) ∧ P t

/-- Folding is right at every node of a tree. -/
def FoldsRight {vt : ValueType} (t : Tree vt) : Prop :=
  Everywhere (fun t => Represents (getAsInt address t) (t.value ops address)) t

end Meaning

/-! ## When folding is right -/

/-- The operations that `get_as_int` has a case for. -/
def BinaryArithOp.folds (op : BinaryArithOp) : Bool :=
  op ∈ [.add, .sub, .mul, .div, .mod, .band, .bor, .bxor]

/-- The trees that are accepted as constants. -/
def Tree.isConst {vt : ValueType} : Tree vt → Bool
  | constant vt _ => isGprOrFlagT vt
  | readPc => true
  | binaryArith op flagsNeeded lhs rhs =>
    !flagsNeeded && lhs.isConst && rhs.isConst && BinaryArithOp.folds op
  | cast op _ source _ => source.isConst && op != .convert
  | bitExtract _ _ source _ => source.isConst
  | bitShift _ input amount => input.isConst && amount.isConst
  | shiftFlag _ _ input amount => input.isConst && amount.isConst
  | other .. => false

/-- A binary operation on 64 bits. -/
def wideArith (op : BinaryArithOp) (x y : BitVec 64) : BitVec 64 :=
  match op with
  | .add => x + y
  | .sub => x - y
  | .mul => x * y
  | .div => x.sdiv y
  | .mod => x.srem y
  | .band => x &&& y
  | .bor => x ||| y
  | .bxor => x ^^^ y
  | _ => 0

/-- A cast of the low bits of a number of 64 bits. -/
def wideCast (op : CastOp) (width : ℕ) (x : BitVec 64) : BitVec 64 :=
  match op with
  | .trunc | .zx => (x.setWidth width).setWidth 64
  | .sx => sext width x
  | _ => x

/-- The number that a tree is in arithmetic of 64 bits, when its inner nodes are not cut to their
widths. -/
def Tree.wide (address : BitVec 64) {vt : ValueType} : Tree vt → BitVec 64
  | constant _ cvi => cvi
  | readPc => address
  | binaryArith op _ lhs rhs => wideArith op (lhs.wide address) (rhs.wide address)
  | @cast vt' op _ source _ => wideCast op vt'.elementWidth (source.wide address)
  | bitExtract start length source _ =>
    ((source.wide address >>> start).setWidth length).setWidth 64
  | bitShift op input amount => op.value (input.wide address) (amount.wide address).toNat
  | shiftFlag _ op input amount => op.value (input.wide address) (amount.wide address).toNat
  | other .. => 0

/-- The bits of `x` that a shift to the right by `n` brings from above the width of `v` into it are
those of the extension of `v`. -/
def ShiftOp.fills {w : ℕ} (op : ShiftOp) (x : BitVec 64) (v : BitVec w) (n : ℕ) : Prop :=
  match op with
  | lsl => True
  | lsr => ∀ k < w, w ≤ n + k → (x >>> n).getLsbD k = false
  | asr => ∀ k < w, w ≤ n + k → (x.sshiftRight n).getLsbD k = v.msb

section Fits

variable (ops : LaneOps)

/-- When a binary operation on 64 bits is the operation at type `vt`, with a right operand of type
`vt'`. -/
def arithFits (vt vt' : ValueType) (op : BinaryArithOp) (x y : BitVec 64) (lhs : BitVec vt.width)
    (rhs : BitVec vt'.width) : Prop :=
  let agrees := (wideArith op x y).signExtend vt.width =
    arithValue ops vt op lhs (rhs.setWidth vt.width)
  match op with
  | .add | .sub | .mul => (isScalarInt vt ∧ vt.width ≤ 64 ∧ vt.width ≤ vt'.width) ∨ agrees
  | .band | .bor | .bxor => vt.width ≤ vt'.width ∨ agrees
  | .div | .mod => (y ≠ 0 ∧ ¬(x = BitVec.intMin 64 ∧ y = -1)) ∧ agrees
  | _ => True

/-- When a cast on 64 bits is the cast from `vt'` to `vt`. A zero extension to more than 64 bits is
read as a signed number. -/
def castFits (vt vt' : ValueType) (op : CastOp) (x : BitVec 64) (source : BitVec vt'.width) :
    Prop :=
  match op with
  | .bitcast | .convert => True
  | .zx | .trunc => (0 < vt'.elementWidth ∧ vt'.elementWidth ≤ 64) ∧
    if isScalarInt vt && isScalarInt vt' then
      vt.width ≤ 64 ∨ vt'.width < 64 ∨ source.msb = false
    else (wideCast op vt'.elementWidth x).signExtend vt.width = castValue ops vt vt' op source
  | .sx => (0 < vt'.elementWidth ∧ vt'.elementWidth ≤ 64) ∧
    (isScalarInt vt && isScalarInt vt' ∨
      (wideCast op vt'.elementWidth x).signExtend vt.width = castValue ops vt vt' op source)

/-- When a shift on 64 bits is the shift at type `vt`. -/
def shiftIntFits (vt : ValueType) (op : ShiftOp) (x amt : BitVec 64) (input : BitVec vt.width)
    (amount : ℕ) : Prop :=
  amt.toNat < 64 ∧
    if isScalarInt vt ∧ vt.width ≤ 64 ∧ amt.toNat = amount then op.fills x input amount
    else (op.value x amt.toNat).signExtend vt.width = shiftValue ops vt op input amount

variable (address : BitVec 64)

/-- What a node needs of its operands. -/
def nodeFits {vt : ValueType} (t : Tree vt) : Prop :=
  t.isConst → match t with
  | .constant vt cvi => vt.width ≤ 64 ∨ cvi.msb = false
  | .readPc | .other .. => True
  | @Tree.binaryArith vt vt' op _ lhs rhs =>
    arithFits ops vt vt' op (lhs.wide address) (rhs.wide address) (lhs.value ops address)
      (rhs.value ops address)
  | @Tree.cast vt' op vt source _ =>
    castFits ops vt vt' op (source.wide address) (source.value ops address)
  | .bitExtract start length _ _ => 0 < length ∧ start + length ≤ 64
  | @Tree.bitShift vt _ op input amount =>
    shiftIntFits ops vt op (input.wide address) (amount.wide address) (input.value ops address)
      (amount.value ops address).toNat
  | @Tree.shiftFlag vt _ flag op input amount => (amount.wide address).toNat < 64 ∧
    (op.value (input.wide address) (amount.wide address).toNat).setWidth 1 =
      flag.value (shiftValue ops vt op (input.value ops address) (amount.value ops address).toNat)

/-- Every node of a tree has the operands it needs. -/
def Fits {vt : ValueType} (t : Tree vt) : Prop :=
  Everywhere (fun t => nodeFits ops address t) t

end Fits

/-! ## The operations on 64 bits -/

/-- The result is `x`, or undefined if `p` is not met. -/
def Decides (p : Prop) (x : BitVec 64) (res : Folded) : Prop :=
  (p ∧ res = .ok (some x)) ∨ (¬p ∧ res = .error .undefined)

theorem Decides.congr {p q : Prop} {x y : BitVec 64} {res : Folded} (h : Decides p x res)
    (hp : p ↔ q) (hx : p → x = y) : Decides q y res := by
  obtain ⟨hin, hres⟩ | ⟨hout, hres⟩ := h
  · exact .inl ⟨hp.1 hin, by rw [hres, hx hin]⟩
  · exact .inr ⟨mt hp.2 hout, hres⟩

theorem shiftedInt_of_mem {shift : BitVec 64 → ℕ → BitVec 64} {x : BitVec 64} {amt : ℤ} {n : ℕ}
    (hamt : amt = n) (hn : n < 64) : shiftedInt shift x amt = .ok (shift x n) := by
  subst hamt
  rw [shiftedInt, if_pos (by omega), Int.toNat_natCast]

theorem shiftedInt_of_not_mem {shift : BitVec 64 → ℕ → BitVec 64} {x : BitVec 64} {amt : ℤ}
    (hamt : ¬(0 ≤ amt ∧ amt < 64)) : shiftedInt shift x amt = .error .undefined := by
  rw [shiftedInt, if_neg hamt]

/-- Two shifts one after the other. -/
theorem decides_shifts {up down : BitVec 64 → ℕ → BitVec 64} {x : BitVec 64} {amt amt' : ℤ}
    {n m : ℕ} {p : Prop}
    (hin : p → amt = n ∧ n < 64 ∧ amt' = m ∧ m < 64)
    (hout : ¬p → ¬(0 ≤ amt ∧ amt < 64) ∨ ¬(0 ≤ amt' ∧ amt' < 64)) :
    Decides p (down (up x n) m) (do
      let y ← shiftedInt up x amt
      let z ← shiftedInt down y amt'
      return some z) := by
  by_cases hp : p
  · obtain ⟨hamt, hn, hamt', hm⟩ := hin hp
    refine .inl ⟨hp, ?_⟩
    rw [shiftedInt_of_mem hamt hn, ok_bind, shiftedInt_of_mem hamt' hm]
    rfl
  · refine .inr ⟨hp, ?_⟩
    by_cases hamt : 0 ≤ amt ∧ amt < 64
    · have hout := (hout hp).resolve_left (not_not_intro hamt)
      rw [shiftedInt, if_pos hamt, ok_bind, shiftedInt_of_not_mem hout]
      rfl
    · rw [shiftedInt_of_not_mem hamt]
      rfl

theorem decides_dividedInt (divide : BitVec 64 → BitVec 64 → BitVec 64) (x y : BitVec 64) :
    Decides (y ≠ 0 ∧ ¬(x = BitVec.intMin 64 ∧ y = -1)) (divide x y) (dividedInt divide x y) := by
  rw [dividedInt]
  split_ifs with h
  · exact .inr ⟨by tauto, rfl⟩
  · exact .inl ⟨by tauto, rfl⟩

/-- The operands that a division is defined for. -/
def divides (op : BinaryArithOp) (x y : BitVec 64) : Prop :=
  op = .div ∨ op = .mod → y ≠ 0 ∧ ¬(x = BitVec.intMin 64 ∧ y = -1)

theorem decides_intArith {op : BinaryArithOp} (hop : BinaryArithOp.folds op) (x y : BitVec 64) :
    Decides (divides op x y) (wideArith op x y) (intArith op x y) := by
  have hdivide := fun divide => decides_dividedInt divide x y
  cases op
  case div => exact (hdivide BitVec.sdiv).congr (by simp [divides]) fun _ => rfl
  case mod => exact (hdivide BitVec.srem).congr (by simp [divides]) fun _ => rfl
  case add | sub | mul | band | bor | bxor => exact .inl ⟨by simp [divides], rfl⟩
  all_goals cases hop

theorem decides_intCast {op : CastOp} (hop : op ≠ .convert) (width : ℕ) (x : BitVec 64) :
    Decides (op = .bitcast ∨ (0 < width ∧ width ≤ 64)) (wideCast op width x)
      (intCast op width x) := by
  have hshifts : ∀ down : BitVec 64 → ℕ → BitVec 64,
      Decides (0 < width ∧ width ≤ 64) (down (x <<< (64 - width)) (64 - width)) (do
        let y ← shiftedInt (· <<< ·) x (64 - width)
        let z ← shiftedInt down y (64 - width)
        return some z) :=
    fun down => decides_shifts (by omega) (by omega)
  cases op with
  | bitcast => exact .inl ⟨.inl rfl, rfl⟩
  | convert => contradiction
  | zx | trunc =>
    exact (hshifts (· >>> ·)).congr (by simp) fun hw => ushiftRight_shiftLeft hw.2 x
  | sx =>
    exact (hshifts BitVec.sshiftRight).congr (by simp) fun hw => sshiftRight_shiftLeft hw.1 hw.2 x

theorem decides_intExtract (start length : ℕ) (x : BitVec 64) :
    Decides (0 < length ∧ start + length ≤ 64)
      (((x >>> start).setWidth length).setWidth 64) (intExtract start length x) := by
  have hshifts : Decides (0 < length ∧ start + length ≤ 64)
      ((x <<< (64 - (start + length))) >>> (64 - length)) (intExtract start length x) :=
    decides_shifts (by omega) (by omega)
  refine hshifts.congr Iff.rfl fun hlen => ?_
  ext k hk
  by_cases hin : k < length
  · have hup : 64 - length + k - (64 - (start + length)) = start + k := by omega
    have hlt : 64 - length + k < 64 := by omega
    have hge : ¬64 - length + k < 64 - (start + length) := by omega
    have hbit : start + k < 64 := by omega
    simp [hin, hup, hlt, hge, BitVec.getLsbD_eq_getElem hbit]
  · have hge : ¬64 - length + k < 64 := by omega
    simp [hin, hge]

theorem decides_intShift (op : ShiftOp) (x amt : BitVec 64) :
    Decides (amt.toNat < 64) (op.value x amt.toNat) (intShift op x amt) := by
  by_cases hamt : amt.toNat < 64
  · have htoInt : amt.toInt = amt.toNat := BitVec.toInt_eq_toNat_of_lt (by omega)
    refine .inl ⟨hamt, ?_⟩
    rw [intShift, shiftedInt_of_mem htoInt hamt]
    rfl
  · refine .inr ⟨hamt, ?_⟩
    have hout : ¬(0 ≤ amt.toInt ∧ amt.toInt < 64) := by
      rw [BitVec.toInt_eq_toNat_cond]
      have hlt := amt.isLt
      split_ifs <;> omega
    rw [intShift, shiftedInt_of_not_mem hout]
    rfl

/-! ## Nodes -/

/-- No integer, because the tree is not a constant or is rejected. -/
def Idle (res : Folded) : Prop :=
  res = .ok none ∨ ∃ msg, res = .error (.thrown msg)

theorem represents_of_idle {w : ℕ} {res : Folded} {v : BitVec w} (h : Idle res) :
    Represents res v := by
  rcases h with rfl | ⟨msg, rfl⟩
  · trivial
  · trivial

theorem idle_intArith {op : BinaryArithOp} (hop : BinaryArithOp.folds op = false)
    (x y : BitVec 64) :
    Idle (intArith op x y) := by
  cases op
  case add | sub | mul | div | mod | band | bor | bxor => cases hop
  all_goals exact .inl rfl

theorem represents_some {w : ℕ} {x : BitVec 64} {v : BitVec w} :
    Represents (.ok (some x)) v ↔ x.signExtend w = v :=
  Iff.rfl

/-- The result of a tree that is a constant if `c` holds. -/
def FoldsTo (c : Bool) (x : BitVec 64) (res : Folded) : Prop :=
  if c then res = .ok (some x) else Idle res

section Bind

variable {c c' : Bool} {x x' : BitVec 64} {res res' : Folded}

theorem FoldsTo.withInt (h : FoldsTo c x res) (f : BitVec 64 → Folded) :
    if c then res >>= withInt f = f x else Idle (res >>= withInt f) := by
  cases c with
  | true =>
    obtain rfl : res = .ok (some x) := h
    rfl
  | false =>
    obtain rfl | ⟨msg, rfl⟩ : Idle res := h
    · exact .inl rfl
    · exact .inr ⟨msg, rfl⟩

theorem FoldsTo.withInts (h : FoldsTo c x res) (h' : FoldsTo c' x' res')
    (f : BitVec 64 → BitVec 64 → Folded) :
    if c && c' then (res >>= fun y => res' >>= fun y' => withInts f y y') = f x x'
    else Idle (res >>= fun y => res' >>= fun y' => withInts f y y') := by
  cases c with
  | true =>
    obtain rfl : res = .ok (some x) := h
    cases c' with
    | true =>
      obtain rfl : res' = .ok (some x') := h'
      rfl
    | false =>
      obtain rfl | ⟨msg, rfl⟩ : Idle res' := h'
      · exact .inl rfl
      · exact .inr ⟨msg, rfl⟩
  | false =>
    obtain rfl | ⟨msg, rfl⟩ : Idle res := h
    · cases c' with
      | true =>
        obtain rfl : res' = .ok (some x') := h'
        exact .inl rfl
      | false =>
        obtain rfl | ⟨msg, rfl⟩ : Idle res' := h'
        · exact .inl rfl
        · exact .inr ⟨msg, rfl⟩
    · exact .inr ⟨msg, rfl⟩

theorem FoldsTo.withInt₂ (h : FoldsTo c x res) (h' : FoldsTo c' x' res')
    (f : BitVec 64 → BitVec 64 → Folded) :
    if c && c' then (res >>= Riscv.withInt fun y => res' >>= Riscv.withInt (f y)) = f x x'
    else Idle (res >>= Riscv.withInt fun y => res' >>= Riscv.withInt (f y)) := by
  have hres := h.withInt fun y => res' >>= Riscv.withInt (f y)
  cases c with
  | true =>
    rw [if_pos rfl] at hres
    rw [hres, Bool.true_and]
    exact h'.withInt (f x)
  | false => exact hres

/-- What a node does, from what it does on operands that are constants. -/
theorem node_iff {p fits : Prop} {w : ℕ} {v : BitVec w}
    (hres : if c then Decides p x res else Idle res)
    (hfits : c = true → (p ∧ x.signExtend w = v ↔ fits)) :
    (Represents res v ↔ (c = true → fits)) ∧ (Represents res v → FoldsTo c x res) := by
  cases c with
  | false =>
    have hidle : Idle res := hres
    exact ⟨iff_of_true (represents_of_idle hidle) nofun, fun _ => hidle⟩
  | true =>
    rw [← hfits rfl]
    obtain ⟨hp, rfl⟩ | ⟨hp, rfl⟩ : Decides p x res := hres
    · exact ⟨by simp [represents_some, hp], fun _ => rfl⟩
    · exact ⟨by simp [Represents, hp], nofun⟩

end Bind

/-! ## The values -/

section Values

variable (ops : LaneOps) {vt vt' : ValueType} {x y : BitVec 64}

/-- Cutting a sign extension down. -/
theorem setWidth_signExtend_cut {k m n : ℕ} (hkm : k ≤ m) (x : BitVec n) :
    (x.signExtend m).setWidth k = x.signExtend k := by
  ext i hi
  have him : i < m := by omega
  simp [BitVec.getElem_signExtend, him]

theorem width_of_isScalarInt (h : isScalarInt vt) : vt.width = vt.elementWidth := by
  have hone : vt.nrElements = 1 := by
    simp only [isScalarInt, Bool.and_eq_true, decide_eq_true_eq] at h
    exact h.1
  rw [ValueType.width, hone, mul_one]

/-- Sums, differences, products and bitwise operations on a scalar need no more than the bits of
its width. -/
theorem wideArith_agrees {op : BinaryArithOp} (hop : op = .add ∨ op = .sub ∨ op = .mul)
    (hscalar : isScalarInt vt) (hw : vt.width ≤ 64) (hle : vt.width ≤ vt'.width) :
    (wideArith op x y).signExtend vt.width =
      arithValue ops vt op (x.signExtend vt.width)
        ((y.signExtend vt'.width).setWidth vt.width) := by
  rw [setWidth_signExtend_cut hle]
  simp only [BitVec.signExtend_eq_setWidth_of_le _ hw]
  rcases hop with rfl | rfl | rfl
  · simp [wideArith, arithValue, hscalar, BitVec.setWidth_add _ _ hw]
  · simp [wideArith, arithValue, hscalar, setWidth_sub hw]
  · simp [wideArith, arithValue, hscalar, BitVec.setWidth_mul _ _ hw]

theorem wideBitwise_agrees {op : BinaryArithOp} (hop : op = .band ∨ op = .bor ∨ op = .bxor)
    (hle : vt.width ≤ vt'.width) :
    (wideArith op x y).signExtend vt.width =
      arithValue ops vt op (x.signExtend vt.width)
        ((y.signExtend vt'.width).setWidth vt.width) := by
  rw [setWidth_signExtend_cut hle]
  rcases hop with rfl | rfl | rfl
  · exact BitVec.signExtend_and
  · exact BitVec.signExtend_or
  · exact BitVec.signExtend_xor

theorem arithFits_iff {op : BinaryArithOp} (hop : BinaryArithOp.folds op) {lhs : BitVec vt.width}
    {rhs : BitVec vt'.width} (hx : x.signExtend vt.width = lhs)
    (hy : y.signExtend vt'.width = rhs) :
    divides op x y ∧ (wideArith op x y).signExtend vt.width =
        arithValue ops vt op lhs (rhs.setWidth vt.width) ↔
      arithFits ops vt vt' op x y lhs rhs := by
  subst hx hy
  cases op
  case add | sub | mul =>
    simp only [divides, arithFits, reduceCtorEq, or_self, false_implies, true_and]
    refine ⟨.inr, fun h => h.elim (fun h => ?_) id⟩
    exact wideArith_agrees ops (by simp) h.1 h.2.1 h.2.2
  case band | bor | bxor =>
    simp only [divides, arithFits, reduceCtorEq, or_self, false_implies, true_and]
    refine ⟨.inr, fun h => h.elim (fun h => ?_) id⟩
    exact wideBitwise_agrees ops (by simp) h
  case div | mod => simp [divides, arithFits]
  all_goals cases hop

/-- A zero extension is a signed number of 64 bits, unless it fills them. -/
theorem signExtend_setWidth_iff {m w : ℕ} (hm : 0 < m ∧ m ≤ 64) (v : BitVec m) :
    (v.setWidth 64).signExtend w = v.setWidth w ↔ w ≤ 64 ∨ m < 64 ∨ v.msb = false := by
  by_cases hw : w ≤ 64
  · refine iff_of_true ?_ (.inl hw)
    rw [BitVec.signExtend_eq_setWidth_of_le _ hw, BitVec.setWidth_setWidth_of_le _ hw]
  · have hmsb : (v.setWidth 64).msb = (decide (m = 64) && v.msb) := by
      rw [BitVec.msb_eq_getLsbD_last, BitVec.msb_eq_getLsbD_last]
      by_cases h64 : m = 64
      · subst h64
        simp
      · simp [h64, BitVec.getLsbD_of_ge v 63 (by omega)]
    cases htop : (v.setWidth 64).msb with
    | false =>
      have hlow : m < 64 ∨ v.msb = false := by
        rw [hmsb] at htop
        rcases hm.2.lt_or_eq with hlt | rfl
        · exact .inl hlt
        · exact .inr (by simpa using htop)
      refine iff_of_true ?_ (.inr hlow)
      rw [BitVec.signExtend_eq_setWidth_of_msb_false htop, BitVec.setWidth_setWidth]
      omega
    | true =>
      rw [hmsb, Bool.and_eq_true, decide_eq_true_eq] at htop
      obtain ⟨rfl, htop⟩ := htop
      refine iff_of_false (fun h => ?_) (by simp [hw, htop])
      have hbit := congrArg (BitVec.getLsbD · 64) h
      simp [BitVec.getElem_signExtend, show 64 < w by omega, htop] at hbit

/-- A sign extension in two steps. -/
theorem signExtend_signExtend {m n w : ℕ} (hmn : m ≤ n) (v : BitVec m) :
    (v.signExtend n).signExtend w = v.signExtend w := by
  rw [BitVec.signExtend, toInt_signExtend hmn, ← BitVec.signExtend]

theorem castFits_iff {op : CastOp} (hop : op ≠ .convert)
    (hwidth : op = .bitcast → vt.width = vt'.width) {source : BitVec vt'.width}
    (hx : x.signExtend vt'.width = source) :
    (op = .bitcast ∨ (0 < vt'.elementWidth ∧ vt'.elementWidth ≤ 64)) ∧
        (wideCast op vt'.elementWidth x).signExtend vt.width = castValue ops vt vt' op source ↔
      castFits ops vt vt' op x source := by
  have hlow : vt'.width ≤ 64 → x.setWidth vt'.width = source := by
    intro hle
    rw [← hx, BitVec.signExtend_eq_setWidth_of_le _ hle]
  cases op with
  | convert => contradiction
  | bitcast =>
    refine iff_of_true ⟨.inl rfl, ?_⟩ trivial
    subst hx
    change x.signExtend vt.width = (x.signExtend vt'.width).setWidth vt.width
    rw [setWidth_signExtend_cut (hwidth rfl).le]
  | zx | trunc =>
    simp only [reduceCtorEq, false_or, castFits]
    refine and_congr_right fun hw => ?_
    split_ifs with h
    · rw [← width_of_isScalarInt (Bool.and_eq_true _ _ ▸ h).2] at hw ⊢
      rw [wideCast, hlow hw.2, ← signExtend_setWidth_iff hw]
      simp [castValue, h]
    · rfl
  | sx =>
    simp only [reduceCtorEq, false_or, castFits]
    refine and_congr_right fun hw => ?_
    refine ⟨.inr, fun h => h.elim (fun h => ?_) id⟩
    rw [← width_of_isScalarInt (Bool.and_eq_true _ _ ▸ h).2] at hw ⊢
    rw [wideCast, sext, hlow hw.2, signExtend_signExtend hw.2]
    simp [castValue, h]

/-- On a scalar the bits that are shifted in decide. -/
theorem fills_iff {op : ShiftOp} {w n : ℕ} (hw : w ≤ 64) {v : BitVec w} (hx : x.setWidth w = v) :
    (op.value x n).setWidth w = op.value v n ↔ op.fills x v n := by
  have hbit : ∀ k < w, v.getLsbD k = x.getLsbD k := by
    intro k hk
    simp [← hx, hk]
  cases op with
  | lsl =>
    refine iff_of_true (BitVec.eq_of_getLsbD_eq fun k hk => ?_) trivial
    have hk64 : k < 64 := by omega
    simp only [ShiftOp.value, BitVec.getLsbD_setWidth, BitVec.getLsbD_shiftLeft, hk, hk64,
      decide_true, Bool.true_and, hbit (k - n) (by omega)]
  | lsr =>
    have hbits : ∀ k < w, ((x >>> n).setWidth w).getLsbD k = (x >>> n).getLsbD k := by
      intro k hk
      rw [BitVec.getLsbD_setWidth, decide_eq_true hk, Bool.true_and]
    constructor
    · intro h k hk hle
      rw [← hbits k hk, show (x >>> n).setWidth w = v >>> n from h, BitVec.getLsbD_ushiftRight,
        BitVec.getLsbD_of_ge v (n + k) hle]
    · intro h
      refine BitVec.eq_of_getLsbD_eq fun k hk => (hbits k hk).trans ?_
      by_cases hin : n + k < w
      · simp only [ShiftOp.value, BitVec.getLsbD_ushiftRight, hbit _ hin]
      · rw [h k hk (by omega), ShiftOp.value, BitVec.getLsbD_ushiftRight,
          BitVec.getLsbD_of_ge v (n + k) (by omega)]
  | asr =>
    have hbits : ∀ k < w, ((x.sshiftRight n).setWidth w).getLsbD k =
        (x.sshiftRight n).getLsbD k := by
      intro k hk
      rw [BitVec.getLsbD_setWidth, decide_eq_true hk, Bool.true_and]
    have hsign : ∀ k < w, ¬n + k < w → (v.sshiftRight n).getLsbD k = v.msb := by
      intro k hk hin
      simp only [BitVec.getLsbD_sshiftRight, if_neg hin, show ¬w ≤ k by omega, decide_false,
        Bool.not_false, Bool.true_and]
    constructor
    · intro h k hk hle
      rw [← hbits k hk, show (x.sshiftRight n).setWidth w = v.sshiftRight n from h,
        hsign k hk (by omega)]
    · intro h
      refine BitVec.eq_of_getLsbD_eq fun k hk => (hbits k hk).trans ?_
      by_cases hin : n + k < w
      · simp only [ShiftOp.value, BitVec.getLsbD_sshiftRight, hbit _ hin, if_pos hin,
          show n + k < 64 by omega, show ¬64 ≤ k by omega, show ¬w ≤ k by omega, if_true]
      · rw [h k hk (by omega), ShiftOp.value, hsign k hk hin]

theorem shiftIntFits_iff {op : ShiftOp} {amt : BitVec 64} {input : BitVec vt.width} {amount : ℕ}
    (hx : x.signExtend vt.width = input) :
    amt.toNat < 64 ∧ (op.value x amt.toNat).signExtend vt.width =
        shiftValue ops vt op input amount ↔
      shiftIntFits ops vt op x amt input amount := by
  rw [shiftIntFits]
  refine and_congr_right fun _ => ?_
  split_ifs with h
  · obtain ⟨hscalar, hw, rfl⟩ := h
    rw [BitVec.signExtend_eq_setWidth_of_le _ hw] at hx ⊢
    rw [shiftValue, if_pos hscalar]
    exact fills_iff hw hx
  · rfl

/-- The extracted bits are below 64 and below the width of the source. -/
theorem extract_eq {start length m w : ℕ} (hm : m = length) (hrange : start + length ≤ w)
    (hlen : start + length ≤ 64) :
    (((x >>> start).setWidth length).setWidth 64).signExtend m =
      (x.signExtend w >>> start).setWidth m := by
  subst hm
  rw [BitVec.signExtend_eq_setWidth_of_le _ (by omega), BitVec.setWidth_setWidth_of_le _ (by omega),
    BitVec.setWidth_eq]
  ext k hk
  have hw : start + k < w := by omega
  have h64 : start + k < 64 := by omega
  simp [BitVec.getElem_signExtend, BitVec.getLsbD_eq_getElem hw, h64]

end Values

/-! ## Trees -/

section Trees

variable (ops : LaneOps) (address : BitVec 64)

theorem Everywhere.self {P : {vt : ValueType} → Tree vt → Prop} {vt : ValueType} {t : Tree vt}
    (h : Everywhere P t) : P t := by
  cases t with
  | constant | readPc | other => exact h
  | binaryArith | cast | bitExtract | bitShift | shiftFlag => exact h.2

/-- What the operands give, and what the node adds to it. -/
theorem and_iff_of_step {a a' b b' y : Prop} (h : a ↔ a') (hb : a → (b ↔ b') ∧ (b → y)) :
    (a ∧ b ↔ a' ∧ b') ∧ (a ∧ b → y) := by
  refine ⟨?_, fun hab => (hb hab.1).2 hab.2⟩
  rw [← h]
  exact and_congr_right fun ha => (hb ha).1

/-- The integer of a constant represents its value. -/
theorem signExtend_wide {vt : ValueType} {t : Tree vt} (h : FoldsRight ops address t)
    (hfold : FoldsTo t.isConst (t.wide address) (getAsInt address t)) (hc : t.isConst = true) :
    (t.wide address).signExtend vt.width = t.value ops address := by
  have hres : getAsInt address t = .ok (some (t.wide address)) := by
    rw [FoldsTo, if_pos hc] at hfold
    exact hfold
  have hself := Everywhere.self h
  rw [hres] at hself
  exact hself

/-- A constant of a supported width. -/
theorem constant_iff (vt : ValueType) (cvi : BitVec 64) :
    cvi.signExtend vt.width = cvi.setWidth vt.width ↔ vt.width ≤ 64 ∨ cvi.msb = false := by
  simpa using signExtend_setWidth_iff (w := vt.width) (m := 64) (by decide) cvi

theorem binaryArith_result {vt vt' : ValueType} {op : BinaryArithOp} (flagsNeeded : Bool)
    {lhs : Tree vt} {rhs : Tree vt'}
    (hl : FoldsTo lhs.isConst (lhs.wide address) (getAsInt address lhs))
    (hr : FoldsTo rhs.isConst (rhs.wide address) (getAsInt address rhs)) :
    if (Tree.binaryArith op flagsNeeded lhs rhs).isConst then
      Decides (divides op (lhs.wide address) (rhs.wide address))
        (wideArith op (lhs.wide address) (rhs.wide address))
        (getAsInt address (.binaryArith op flagsNeeded lhs rhs))
    else Idle (getAsInt address (.binaryArith op flagsNeeded lhs rhs)) := by
  rw [Tree.isConst, getAsInt]
  cases flagsNeeded with
  | true => exact .inl rfl
  | false =>
    have hres := hl.withInt₂ hr (intArith op)
    simp only [Bool.not_false, Bool.true_and, Bool.false_eq_true, if_false]
    cases hconst : lhs.isConst && rhs.isConst with
    | false => simpa only [hconst] using! hres
    | true =>
      rw [hconst, if_pos rfl] at hres
      rw [hres, Bool.true_and]
      split_ifs with hop
      · exact decides_intArith hop _ _
      · exact idle_intArith (Bool.not_eq_true _ ▸ hop) _ _

theorem cast_result {vt vt' : ValueType} {op : CastOp} {source : Tree vt'}
    (width : op = .bitcast → vt.width = vt'.width)
    (h : FoldsTo source.isConst (source.wide address) (getAsInt address source)) :
    if (Tree.cast op vt source width).isConst then
      Decides (op = .bitcast ∨ (0 < vt'.elementWidth ∧ vt'.elementWidth ≤ 64))
        (wideCast op vt'.elementWidth (source.wide address))
        (getAsInt address (.cast op vt source width))
    else Idle (getAsInt address (.cast op vt source width)) := by
  have hres := h.withInt (intCast op vt'.elementWidth)
  rw [Tree.isConst, getAsInt]
  cases hconst : source.isConst with
  | false => simpa only [hconst] using! hres
  | true =>
    rw [hconst, if_pos rfl] at hres
    rw [hres, Bool.true_and]
    split_ifs with hop
    · exact decides_intCast (by simpa using hop) _ _
    · obtain rfl : op = .convert := by simpa using hop
      exact .inl rfl

/-- Folding is right at a node with right operands exactly if they fit, and then it gives the
number of the tree. -/
theorem foldsRight_iff {vt : ValueType} (t : Tree vt) :
    (FoldsRight ops address t ↔ Fits ops address t) ∧
      (FoldsRight ops address t → FoldsTo t.isConst (t.wide address) (getAsInt address t)) := by
  induction t with
  | constant vt cvi =>
    refine node_iff (p := True) ?_ fun _ => ?_
    · rw [Tree.isConst, getAsInt]
      split_ifs
      · exact .inl ⟨trivial, rfl⟩
      · exact .inr ⟨_, rfl⟩
    · exact (iff_of_eq (true_and _)).trans (constant_iff vt cvi)
  | readPc => exact ⟨iff_of_true (BitVec.signExtend_eq _) fun _ => trivial, fun _ => rfl⟩
  | other vt val => exact ⟨iff_of_true trivial nofun, fun _ => .inl rfl⟩
  | @cast vt' op vt source width ih =>
    refine and_iff_of_step ih.1 fun hsource => ?_
    have hfold := ih.2 hsource
    have hval := signExtend_wide ops address hsource hfold
    refine node_iff (p := op = .bitcast ∨ (0 < vt'.elementWidth ∧ vt'.elementWidth ≤ 64)) ?_
      fun hc => ?_
    · exact cast_result address width hfold
    · obtain ⟨hc, hop⟩ := (Bool.and_eq_true _ _).mp hc
      exact castFits_iff ops (by simpa using hop) width (hval hc)
  | bitExtract start length source range ih =>
    refine and_iff_of_step ih.1 fun hsource => ?_
    have hfold := ih.2 hsource
    have hval := signExtend_wide ops address hsource hfold
    have hres := hfold.withInt (intExtract start length)
    refine node_iff (p := 0 < length ∧ start + length ≤ 64) ?_ fun hc => ?_
    · rw [Tree.isConst, getAsInt]
      split_ifs at hres ⊢
      · rw [hres]
        exact decides_intExtract start length _
      · exact hres
    · refine and_iff_left_of_imp fun hlen => ?_
      rw [Tree.wide, Tree.value, ← hval hc]
      exact extract_eq (Nat.mul_one length) range hlen.2
  | @binaryArith vt vt' op flagsNeeded lhs rhs ihl ihr =>
    refine and_iff_of_step (and_congr ihl.1 ihr.1) fun ⟨hl, hr⟩ => ?_
    have hfoldl := ihl.2 hl
    have hfoldr := ihr.2 hr
    have hvall := signExtend_wide ops address hl hfoldl
    have hvalr := signExtend_wide ops address hr hfoldr
    refine node_iff (p := divides op (lhs.wide address) (rhs.wide address)) ?_ fun hc => ?_
    · exact binaryArith_result address flagsNeeded hfoldl hfoldr
    · simp only [Tree.isConst, Bool.and_eq_true] at hc
      exact arithFits_iff ops hc.2 (hvall hc.1.1.2) (hvalr hc.1.2)
  | bitShift op input amount ihi iha =>
    refine and_iff_of_step (and_congr ihi.1 iha.1) fun ⟨hi, ha⟩ => ?_
    have hfoldi := ihi.2 hi
    have hfolda := iha.2 ha
    have hval := signExtend_wide ops address hi hfoldi
    have hres := hfoldi.withInts hfolda (intShift op)
    refine node_iff (p := (amount.wide address).toNat < 64) ?_ fun hc => ?_
    · rw [Tree.isConst, getAsInt]
      split_ifs at hres ⊢
      · rw [hres]
        exact decides_intShift op _ _
      · exact hres
    · obtain ⟨hc, -⟩ := (Bool.and_eq_true _ _).mp hc
      exact shiftIntFits_iff ops (hval hc)
  | shiftFlag flag op input amount ihi iha =>
    refine and_iff_of_step (and_congr ihi.1 iha.1) fun ⟨hi, ha⟩ => ?_
    have hres := (ihi.2 hi).withInts (iha.2 ha) (intShift op)
    refine node_iff (p := (amount.wide address).toNat < 64) ?_ fun hc => ?_
    · rw [Tree.isConst, getAsInt]
      split_ifs at hres ⊢
      · rw [hres]
        exact decides_intShift op _ _
      · exact hres
    · exact and_congr_right fun _ => iff_of_eq
        (congrArg (· = _) (BitVec.signExtend_eq_setWidth_of_le _ (by decide)))

/-- The integers of a tree are right, at each of its nodes, exactly if every node has the operands
it needs. -/
theorem getAsInt_right_iff {vt : ValueType} (t : Tree vt) :
    FoldsRight ops address t ↔ Fits ops address t :=
  (foldsRight_iff ops address t).1

end Trees

/-- The byte `0xff` plus one, shifted right by one. The sum is zero, and the integer 256. -/
theorem not_foldsRight_carry :
    ¬FoldsRight ⟨fun _ _ lhs _ => lhs, fun _ _ _ _ => 0, fun _ _ v _ => v⟩
    0 (.bitShift .lsr (.binaryArith .add false (.constant (.u 8) 0xff) (.constant (.u 8) 1))
      (.constant (.u 8) 1)) := by
  intro hright
  have hroot : BitVec.ofInt 8 (128#64).toInt = 0#8 := Everywhere.self hright
  revert hroot
  decide

end Arancini.Riscv
