import Arancini.Ir.Memory
import Arancini.X86.FpVec
import Arancini.X86.MulDiv

/-!
# Moves

The cases of `mov_translator` for moves between general purpose registers, memory and immediates,
with the extensions. A place of a width is a view of a register or somewhere in memory, and an
instruction is `Right` if it writes its source, extended as it should be, with the width of the
place and changes nothing else.

The extension depends on the types of the values. `MOVZX` and `MOVSXD` extend to 64 bits and write
these to smaller registers as well, and an immediate that goes to 64 bits in memory is extended by
zeros. `mov_right_iff` has the exact conditions.
-/

namespace Arancini.X86

open Ir

/-! ## Casts -/

namespace Value

/-- A number of this class. -/
def scalar (typeClass : TypeClass) {n : ℕ} (x : BitVec n) : Value :=
  ⟨⟨typeClass, n, 1⟩, x.setWidth _⟩

/-- `insert_zx`. A value of the same width is left as it is. -/
def zx (type : ValueType) (v : Value) : Value :=
  if type.width = v.type.width then v else ⟨type, v.bits.setWidth _⟩

/-- `insert_sx`. -/
def sx (type : ValueType) (v : Value) : Except String Value :=
  if type.width = v.type.width then .ok v
  else if type.typeClass = v.type.typeClass then .ok ⟨type, v.bits.signExtend _⟩
  else .error "cannot cast between type classes"

/-- `insert_trunc`. -/
def trunc (type : ValueType) (v : Value) : Except String Value :=
  if type.typeClass = v.type.typeClass then .ok ⟨type, v.bits.setWidth _⟩
  else .error "cannot cast between type classes"

/-- `insert_bit_extract`. -/
def bitExtract (v : Value) (start length : ℕ) : Except String Value := do
  let bits ← X86.bitExtract v.bits start length
  return .u bits

/-- `auto_cast`. -/
def autoCast (targetType : ValueType) (v : Value) : Except String Value :=
  let vtype := v.type
  if targetType.width = vtype.width then
    if targetType.typeClass ≠ vtype.typeClass then v.bitcast targetType else .ok v
  else do
    let r ←
      if targetType.width < vtype.width then v.trunc ⟨vtype.typeClass, targetType.width, 1⟩
      else
        match vtype.typeClass with
        | .signedInteger => v.sx (.s targetType.width)
        | .unsignedInteger => .ok (v.zx (.u targetType.width))
        | _ => .error "auto cast not supported"
    if targetType.typeClass ≠ vtype.typeClass then r.bitcast targetType else .ok r

end Value

/-! ## The instructions -/

/-- The guest registers and its memory. -/
structure CpuMem where
  regs : CpuState
  mem : ℕ → ℕ

/-- A view of a general purpose register or a place in memory, of this width. -/
inductive Place (ow : OpWidth)
  | reg (r : GprReg) (h : r.part.width = ow.bits)
  | mem (addr : BitVec 64)

def Place.isMem {ow : OpWidth} : Place ow → Bool
  | reg .. => false
  | mem _ => true

/-- The width of the longer immediate. -/
def OpWidth.immBits : OpWidth → ℕ
  | byte => 8
  | word => 16
  | dword | qword => 32

/-- The instructions with their operands. `mov` has at most one operand in memory, the immediate of
`movImm` is extended and the one of `movImmv` has the width of the register. -/
inductive MovInst
  | mov (ow : OpWidth) (dst src : Place ow) (h : dst.isMem → !src.isMem)
  | movImm (ow : OpWidth) (dst : Place ow) (value : BitVec ow.immBits)
  | movImmv (ow : OpWidth) (num : Fin 16) (value : BitVec ow.bits)
  | movFromSeg (ow : OpWidth) (dst : Place ow)
  | movToSeg (ow : OpWidth) (src : Place ow)
  | movzx (ow : OpWidth) (num : Fin 16) (sw : OpWidth) (src : Place sw)
    (h : ow ≠ .byte ∧ sw ∈ [.byte, .word])
  | movsx (ow : OpWidth) (num : Fin 16) (sw : OpWidth) (src : Place sw)
    (h : ow ≠ .byte ∧ sw ∈ [.byte, .word])
  | movsxd (ow : OpWidth) (num : Fin 16) (sw : OpWidth) (src : Place sw)
    (h : ow ≠ .byte ∧ sw = if ow = .word then .word else .dword)
  | cbw
  | cwde
  | cdqe
  | cwd
  | cdq
  | cqo

/-! ## The translator -/

/-- An operand. -/
inductive MovOperand
  | reg (r : GprReg)
  | seg
  | imm (signed : Bool) (w : ℕ) (value : BitVec w)
  | mem (addr : BitVec 64) (length : ℕ)

namespace MovOperand

def isImmediate : MovOperand → Bool
  | imm .. => true
  | _ => false

/-- `get_operand_width`. -/
def width : MovOperand → Except String ℕ
  | reg r => .ok r.part.width
  | seg => .ok 16
  | imm _ w _ => .ok w
  | mem _ length => .ok (8 * length)

/-- `type_of_operand`. -/
def typeOf : MovOperand → Except String ValueType
  | reg r => .ok (.u r.part.width)
  | seg => .error "unsupported register class"
  | imm _ w _ => .ok (.s w)
  | mem .. => .error "unsupported operand type"

/-- `read_operand`. -/
def read (s : CpuMem) : MovOperand → Except String Value
  | reg r => do
    let value ← readGpr r s.regs
    return .u value
  | seg => .error "unsupported register class"
  | imm signed w value =>
    if w ∈ [8, 16, 32, 64] then
      .ok (.scalar (if signed then .signedInteger else .unsignedInteger) value)
    else .error "unsupported immediate width"
  | mem addr length =>
    if length ∈ [1, 2, 4, 8, 16] then
      .ok (.u (BitVec.ofNat (8 * length) (Guest.load s.mem addr.toNat length)))
    else .error "invalid memory width in read"

/-- `write_operand`. -/
def write (v : Value) (s : CpuMem) : MovOperand → Except String CpuMem
  | reg r => do
    let regs ← writeGpr r v.type.typeClass v.bits s.regs
    return { s with regs }
  | seg => .error "unsupported register class"
  | imm .. => .error "unsupported write operand type"
  | mem addr _ =>
    .ok { s with mem := Guest.store s.mem addr.toNat v.bits.toNat (v.type.width / 8) }

end MovOperand

/-- `write_reg`. -/
def CpuMem.writeReg (off : ℕ) (v : Value) (s : CpuMem) : Except String CpuMem := do
  let regs ← X86.writeReg off v.bits s.regs
  return { s with regs }

def Place.operand {ow : OpWidth} : Place ow → MovOperand
  | reg r _ => .reg r
  | mem addr => .mem addr (ow.bits / 8)

/-- The type of what `MOV` writes. -/
def movType (op0 op1 : MovOperand) : Except String ValueType :=
  match op0 with
  | .mem .. => op1.typeOf
  | _ => op0.typeOf

/-- The case of `MOV`. -/
def translateMov (op0 op1 : MovOperand) (s : CpuMem) : Except String CpuMem := do
  let tt ← movType op0 op1
  let src ← op1.read s
  let src ← src.autoCast tt
  let width1 ← op1.width
  let width0 ← op0.width
  op0.write (if op1.isImmediate ∧ width1 < width0 then src.zx (.u 64) else src) s

/-- The case of `MOVSXD`. -/
def translateMovsxd (op0 op1 : MovOperand) (s : CpuMem) : Except String CpuMem := do
  let input ← op1.read s
  let input ← input.bitcast (.s input.type.width)
  let cast ← input.sx (.s 64)
  op0.write cast s

/-- The case of `MOVZX`. -/
def translateMovzx (op0 op1 : MovOperand) (s : CpuMem) : Except String CpuMem := do
  let input ← op1.read s
  op0.write (input.zx (.u 64)) s

/-- The case of `MOVSX`. -/
def translateMovsx (op0 op1 : MovOperand) (s : CpuMem) : Except String CpuMem := do
  let input ← op1.read s
  let dest ← op0.read s
  let cast ← input.sx dest.type
  op0.write cast s

/-- The cases of `CWD` and `CQO`, for a register of `w` bits. -/
def translateCwd (w : ℕ) (s : CpuMem) : Except String CpuMem := do
  let value ← readReg w (xedregToOffset (.gpr rax)) s.regs
  let sx ← Value.sx (.s (2 * w)) (.scalar .signedInteger value)
  let hi ← sx.bitExtract w w
  s.writeReg (xedregToOffset (.gpr rdx)) hi

/-- The case of `CDQ`. -/
def translateCdq (op0 op1 : MovOperand) (s : CpuMem) : Except String CpuMem := do
  let value ← op1.read s
  let eax ← value.bitcast (.s 32)
  let sx ← eax.sx (.s 64)
  let hi ← sx.bitExtract 32 32
  op0.write hi s

/-- The case of `CDQE`. -/
def translateCdqe (op0 op1 : MovOperand) (s : CpuMem) : Except String CpuMem := do
  let value ← op1.read s
  let eax ← value.bitcast (.s 32)
  let cast ← eax.sx (.s 64)
  op0.write cast s

namespace MovInst

/-- `do_translate` of `mov_translator`, and what its packet does. An instruction without a
translator ends in a call of `handle_poison`. -/
def doTranslate (s : CpuMem) : MovInst → Except String CpuMem
  | mov _ dst src _ => translateMov dst.operand src.operand s
  | movImm ow dst value => translateMov dst.operand (.imm (ow ≠ .byte) _ value) s
  | movImmv ow num value => translateMov (.reg (ow.reg num)) (.imm false _ value) s
  | movFromSeg _ dst => translateMov dst.operand .seg s
  | movToSeg _ src => translateMov .seg src.operand s
  | movzx ow num _ src _ => translateMovzx (.reg (ow.reg num)) src.operand s
  | movsx ow num _ src _ => translateMovsx (.reg (ow.reg num)) src.operand s
  | movsxd ow num _ src _ => translateMovsxd (.reg (ow.reg num)) src.operand s
  | cbw | cwde => .error "handle_poison"
  | cdqe => translateCdqe (.reg (OpWidth.qword.reg rax)) (.reg (OpWidth.dword.reg rax)) s
  | cwd => translateCwd 16 s
  | cdq => translateCdq (.reg (OpWidth.dword.reg rdx)) (.reg (OpWidth.dword.reg rax)) s
  | cqo => translateCwd 64 s

end MovInst

/-! ## The reference -/

namespace Place

variable {ow : OpWidth}

/-- What the place has. -/
def content (s : CpuMem) : Place ow → BitVec ow.bits
  | reg r h => (r.view (s.regs.gpr r.num)).cast h
  | mem addr => BitVec.ofNat _ (Guest.load s.mem addr.toNat (ow.bits / 8))

/-- The value is written to the place, with its width, and nothing else changes. -/
def Wrote : Place ow → BitVec ow.bits → CpuMem → CpuMem → Prop
  | reg r h, x, s, s' => r.Written (x.cast h.symm) (s.regs.gpr r.num) (s'.regs.gpr r.num) ∧
      (∀ r' ≠ gprReg r.num, s'.regs r' = s.regs r') ∧ s'.mem = s.mem
  | mem addr, x, s, s' => s'.regs = s.regs ∧
      s'.mem = Guest.store s.mem addr.toNat x.toNat (ow.bits / 8)

/-- The low half of a general purpose register, and so on. -/
abbrev gpr (ow : OpWidth) (num : Fin 16) : Place ow :=
  .reg (ow.reg num) rfl

/-- The place is a high byte. -/
def IsHigh : Place ow → Prop
  | reg r _ => r.part = .high
  | mem _ => False

end Place

namespace MovInst

/-- The instruction takes the state `s` to `s'`. -/
def Effect (s s' : CpuMem) : MovInst → Prop
  | mov _ dst src _ => dst.Wrote (src.content s) s s'
  | movImm _ dst value => dst.Wrote (value.signExtend _) s s'
  | movImmv ow num value => (Place.gpr ow num).Wrote value s s'
  | movFromSeg _ dst => ∃ selector : BitVec 16, dst.Wrote (selector.setWidth _) s s'
  | movToSeg _ _ => s' = s
  | movzx ow num _ src _ => (Place.gpr ow num).Wrote ((src.content s).setWidth _) s s'
  | movsx ow num _ src _ | movsxd ow num _ src _ =>
    (Place.gpr ow num).Wrote ((src.content s).signExtend _) s s'
  | cbw => (Place.gpr .word rax).Wrote (((Place.gpr .byte rax).content s).signExtend _) s s'
  | cwde => (Place.gpr .dword rax).Wrote (((Place.gpr .word rax).content s).signExtend _) s s'
  | cdqe => (Place.gpr .qword rax).Wrote (((Place.gpr .dword rax).content s).signExtend _) s s'
  | cwd => (Place.gpr .word rdx).Wrote
      ((((Place.gpr .word rax).content s).signExtend 32).extractLsb' 16 16) s s'
  | cdq => (Place.gpr .dword rdx).Wrote
      ((((Place.gpr .dword rax).content s).signExtend 64).extractLsb' 32 32) s s'
  | cqo => (Place.gpr .qword rdx).Wrote
      ((((Place.gpr .qword rax).content s).signExtend 128).extractLsb' 64 64) s s'

/-- The packet does what the instruction is to do. -/
def Right (inst : MovInst) (s : CpuMem) : Prop :=
  ∃ s', inst.doTranslate s = .ok s' ∧ inst.Effect s s'

end MovInst

/-! ## Casts of numbers -/

namespace Value

variable {n m : ℕ} {c d : TypeClass}

theorem width_scalar (x : BitVec n) : (scalar c x).type.width = n :=
  Nat.mul_one n

theorem setWidth_bits_scalar (x : BitVec n) : (scalar c x).bits.setWidth m = x.setWidth m := by
  have hwidth : ∀ w, w = n → (x.setWidth w).setWidth m = x.setWidth m := by
    rintro _ rfl
    rw [BitVec.setWidth_eq]
  exact hwidth _ (width_scalar x)

theorem signExtend_bits_scalar (x : BitVec n) :
    (scalar c x).bits.signExtend m = x.signExtend m := by
  have hwidth : ∀ w, w = n → (x.setWidth w).signExtend m = x.signExtend m := by
    rintro _ rfl
    rw [BitVec.setWidth_eq]
  exact hwidth _ (width_scalar x)

theorem mk_setWidth (v : Value) :
    (⟨⟨c, m, 1⟩, v.bits.setWidth _⟩ : Value) = scalar c (v.bits.setWidth m) := by
  have hwidth : ∀ w, w = m → v.bits.setWidth w = (v.bits.setWidth m).setWidth w := by
    rintro _ rfl
    rw [BitVec.setWidth_eq]
  exact congrArg (Value.mk _) (hwidth _ (Nat.mul_one m))

theorem mk_signExtend (v : Value) :
    (⟨⟨c, m, 1⟩, v.bits.signExtend _⟩ : Value) = scalar c (v.bits.signExtend m) := by
  have hwidth : ∀ w, w = m → v.bits.signExtend w = (v.bits.signExtend m).setWidth w := by
    rintro _ rfl
    rw [BitVec.setWidth_eq]
  exact congrArg (Value.mk _) (hwidth _ (Nat.mul_one m))

theorem width_eq_iff (x : BitVec n) :
    (ValueType.mk d m 1).width = (scalar c x).type.width ↔ m = n := by
  rw [width_scalar, ValueType.width, Nat.mul_one]

theorem zx_scalar_of_ne (h : m ≠ n) (x : BitVec n) :
    (scalar c x).zx (.u m) = u (x.setWidth m) := by
  have hne : ¬(ValueType.u m).width = (scalar c x).type.width := fun hw => h ((width_eq_iff x).1 hw)
  rw [zx, if_neg hne]
  exact (mk_setWidth _).trans (congrArg _ (setWidth_bits_scalar x))

theorem zx_scalar (x : BitVec n) : (u x).zx (.u m) = u (x.setWidth m) := by
  rw [zx]
  split_ifs with h
  · obtain rfl := (width_eq_iff x).1 h
    rw [BitVec.setWidth_eq]
  · exact (mk_setWidth (u x)).trans (congrArg _ (setWidth_bits_scalar x))

/-- A sign extension, of an unsigned number as well. -/
theorem sx_scalar (x : BitVec n) : (scalar c x).sx ⟨c, m, 1⟩ = .ok (scalar c (x.signExtend m)) := by
  rw [sx, if_pos (show (⟨c, m, 1⟩ : ValueType).typeClass = (scalar c x).type.typeClass from rfl)]
  split_ifs with h
  · obtain rfl := (width_eq_iff x).1 h
    rw [BitVec.signExtend_eq]
  · rw [mk_signExtend, signExtend_bits_scalar]

theorem bitcast_scalar (x : BitVec n) : (scalar c x).bitcast ⟨d, n, 1⟩ = .ok (scalar d x) := by
  rw [bitcast, if_pos ((width_eq_iff x).2 rfl), mk_setWidth, setWidth_bits_scalar,
    BitVec.setWidth_eq]

/-- A cast to another class. -/
theorem autoCast_scalar_self (x : BitVec n) :
    (scalar c x).autoCast ⟨d, n, 1⟩ = .ok (scalar d x) := by
  rw [autoCast, if_pos ((width_eq_iff x).2 rfl)]
  split_ifs with h
  · exact bitcast_scalar x
  · obtain rfl : d = c := not_not.1 h
    rfl

/-- A signed number in a wider unsigned type. -/
theorem autoCast_signed (hle : n ≤ m) (x : BitVec n) :
    (scalar .signedInteger x).autoCast (.u m) = .ok (u (x.signExtend m)) := by
  obtain rfl | hlt := hle.eq_or_lt
  · rw [BitVec.signExtend_eq]
    exact autoCast_scalar_self x
  · have hne : ¬(ValueType.u m).width = (scalar .signedInteger x).type.width :=
      fun h => hlt.ne' ((width_eq_iff x).1 h)
    have hwidth : (ValueType.u m).width = m := Nat.mul_one m
    have hge : ¬(ValueType.u m).width < (scalar .signedInteger x).type.width := by
      rw [width_scalar, hwidth]
      omega
    have hsx : (scalar .signedInteger x).sx (.s m) = .ok (scalar .signedInteger (x.signExtend m)) :=
      sx_scalar x
    rw [autoCast, if_neg hne, if_neg hge, hwidth]
    simp only [scalar] at hsx ⊢
    simp only [hsx, ok_bind]
    exact bitcast_scalar _

theorem bitExtract_scalar {start length : ℕ} (h : start + length ≤ n) (x : BitVec n) :
    (scalar c x).bitExtract start length = .ok (u (x.extractLsb' start length)) := by
  have hbits : ∀ w, w = n → (x.setWidth w).extractLsb' start length =
      x.extractLsb' start length := by
    rintro _ rfl
    rw [BitVec.setWidth_eq]
  have hrange : ¬start + length - 1 > (scalar c x).type.width - 1 := by
    rw [width_scalar]
    omega
  rw [bitExtract, X86.bitExtract, if_neg hrange]
  exact congrArg (fun y => Except.ok (u y)) (hbits _ (width_scalar x))

theorem u_cast (h : n = m) (x : BitVec n) : u (x.cast h) = u x := by
  subst h
  rfl

end Value

/-! ## Operands -/

/-- What is written to a view is known from it. -/
theorem GprReg.Written.unique {reg : GprReg} {v v' : BitVec reg.part.width} {x y : BitVec 64}
    (h : reg.Written v x y) (h' : reg.Written v' x y) : v = v' := by
  have hle := reg.add_width_le
  refine BitVec.eq_of_getLsbD_eq fun i hi => ?_
  have hv := h (reg.part.start + i) (by omega)
  have hv' := h' (reg.part.start + i) (by omega)
  rw [if_pos ⟨Nat.le_add_right .., by omega⟩, Nat.add_sub_cancel_left] at hv hv'
  exact hv.symm.trans hv'

theorem writeGpr_setWidth {n m w : ℕ} (r : GprReg) (c : TypeClass) (hn : n = m) (hw : w = n)
    (v : BitVec n) (s : CpuState) :
    writeGpr r c (v.setWidth w) s = writeGpr r c (v.cast hn) s := by
  subst hn hw
  rw [BitVec.setWidth_eq]
  rfl

theorem OpWidth.mul_div_bits (ow : OpWidth) : 8 * (ow.bits / 8) = ow.bits := by
  cases ow <;> rfl

theorem cast_injective {n m : ℕ} (h : n = m) : Function.Injective fun x : BitVec n => x.cast h := by
  subst h
  exact fun _ _ => id

namespace Place

variable {ow : OpWidth} {s : CpuMem}

/-- What is read. -/
def value (s : CpuMem) : Place ow → BitVec ow.bits
  | reg r h => ((s.regs.gpr r.num).setWidth r.part.width).cast h
  | mem addr => content s (.mem addr)

/-- A high byte is the low one as well. -/
def Seen (s : CpuMem) : Place ow → Prop
  | reg r _ => r.part = .high →
      (s.regs.gpr r.num).setWidth 8 = (s.regs.gpr r.num).extractLsb' 8 8
  | mem _ => True

theorem value_eq_iff (p : Place ow) : p.value s = p.content s ↔ p.Seen s := by
  cases p with
  | reg r h =>
    obtain ⟨num, part, valid⟩ := r
    rw [value, content, (cast_injective h).eq_iff, Seen]
    cases part with
    | high => exact ⟨fun h _ => h, fun h => h rfl⟩
    | full | dword | word | low =>
      exact iff_of_true (GprReg.view_eq_setWidth (by nofun) _).symm nofun
  | mem addr => exact iff_of_true rfl trivial

theorem seen_of_ne_byte (h : ow ≠ .byte) (p : Place ow) : p.Seen s := by
  cases p with
  | reg r hr =>
    intro hhigh
    rw [hhigh] at hr
    cases ow with
    | byte => exact absurd rfl h
    | word | dword | qword => exact absurd hr (by decide)
  | mem addr => trivial

theorem read_operand (p : Place ow) : p.operand.read s = .ok (.u (p.value s)) := by
  cases p with
  | reg r h =>
    rw [operand, MovOperand.read, GprReg.readGpr_eq, ok_bind, value, Value.u_cast]
    rfl
  | mem addr =>
    have hlen : ow.bits / 8 ∈ [1, 2, 4, 8, 16] := by cases ow <;> decide
    rw [operand, MovOperand.read, if_pos hlen, OpWidth.mul_div_bits]
    rfl

/-- Two values that are stored alike. -/
theorem store_inj (mem : ℕ → ℕ) (a : ℕ) {x y : BitVec ow.bits} :
    Guest.store mem a x.toNat (ow.bits / 8) = Guest.store mem a y.toNat (ow.bits / 8) ↔ x = y := by
  have hpow : 256 ^ (ow.bits / 8) = 2 ^ ow.bits := by cases ow <;> rfl
  have hlen : ow.bits / 8 ≤ 2 ^ 64 := by cases ow <;> decide
  refine ⟨fun h => BitVec.eq_of_toNat_eq ?_, fun h => h ▸ rfl⟩
  have hload := congrArg (fun mem => Guest.load mem a (ow.bits / 8)) h
  simp only [Guest.load_store_self hlen, hpow, Nat.mod_eq_of_lt x.isLt, Nat.mod_eq_of_lt y.isLt]
    at hload
  exact hload

/-- A write to a register is judged by what the register is left with. -/
theorem reg_wrote_iff {r : GprReg} {h : r.part.width = ow.bits} {v : Value} {y : BitVec 64}
    (hwrite : writeGpr r v.type.typeClass v.bits s.regs = .ok (s.regs.setGpr r.num y))
    (x : BitVec ow.bits) :
    (∃ s', (reg r h).operand.write v s = .ok s' ∧ (reg r h).Wrote x s s') ↔
      r.Written (x.cast h.symm) (s.regs.gpr r.num) y := by
  rw [operand, MovOperand.write]
  constructor
  · rintro ⟨s', hs', hw, -⟩
    rw [hwrite] at hs'
    obtain rfl := Except.ok.inj hs'
    rwa [gpr_setGpr] at hw
  · intro hw
    refine ⟨{ s with regs := s.regs.setGpr r.num y }, ?_, ?_, fun r' hr' => ?_, rfl⟩
    · rw [hwrite]
      rfl
    · rwa [gpr_setGpr]
    · exact Function.update_of_ne hr' _ _

/-- A value of the width of the place. -/
theorem wrote_iff (p : Place ow) {c : TypeClass} (v x : BitVec ow.bits) :
    (∃ s', p.operand.write (.scalar c v) s = .ok s' ∧ p.Wrote x s s') ↔ x = v := by
  cases p with
  | reg r h =>
    obtain ⟨y, hy, hwritten⟩ := GprReg.writeGpr_spec r c (v.cast h.symm) s.regs
    have hbits : writeGpr r c (Value.scalar c v).bits s.regs = .ok (s.regs.setGpr r.num y) := by
      rw [← hy]
      exact writeGpr_setWidth r c h.symm (Value.width_scalar v) v s.regs
    rw [reg_wrote_iff hbits]
    exact ⟨fun hx => cast_injective h.symm (hx.unique hwritten), fun hx => hx ▸ hwritten⟩
  | mem addr =>
    have hlen : (Value.scalar c v).type.width / 8 = ow.bits / 8 := by rw [Value.width_scalar]
    have hbits : (Value.scalar c v).bits.toNat = v.toNat := by
      have hwidth := Value.width_scalar (c := c) v
      rw [Value.scalar, BitVec.toNat_setWidth]
      exact Nat.mod_eq_of_lt (hwidth.symm ▸ v.isLt)
    rw [operand, MovOperand.write, hlen, hbits, ← store_inj s.mem addr.toNat]
    constructor
    · rintro ⟨s', hs', -, hw⟩
      obtain rfl := Except.ok.inj hs'
      exact hw.symm
    · exact fun h => ⟨_, rfl, rfl, h.symm⟩

/-- A value of 64 bits, written to a smaller register. -/
theorem gpr_wrote_iff (num : Fin 16) {c : TypeClass} (v : BitVec 64) (x : BitVec ow.bits) :
    (∃ s', (gpr ow num).operand.write (.scalar c v) s = .ok s' ∧ (gpr ow num).Wrote x s s') ↔
      x = v.setWidth ow.bits ∧ (ow.reg num).leaFits v (s.regs.gpr num) := by
  have hlow : ow.part ≠ .high := by cases ow <;> nofun
  have hbits : writeGpr (ow.reg num) c (Value.scalar c v).bits s.regs =
      .ok (s.regs.setGpr num v) := GprReg.writeGpr_64 ..
  rw [reg_wrote_iff hbits, ← GprReg.written_setWidth_iff hlow]
  constructor
  · intro h
    have hx := GprReg.setWidth_of_written h
    rw [if_neg hlow] at hx
    exact ⟨hx.symm, hx.symm ▸ h⟩
  · exact fun h => h.1 ▸ h.2

end Place

/-! ## The instructions -/

theorem setWidth_inj {n m : ℕ} (h : n ≤ m) {x y : BitVec n} :
    x.setWidth m = y.setWidth m ↔ x = y := by
  refine ⟨fun heq => ?_, fun heq => heq ▸ rfl⟩
  have hback := congrArg (BitVec.setWidth n) heq
  rwa [BitVec.setWidth_setWidth_of_le _ h, BitVec.setWidth_setWidth_of_le _ h, BitVec.setWidth_eq,
    BitVec.setWidth_eq] at hback

theorem signExtend_inj {n m : ℕ} (h : n ≤ m) {x y : BitVec n} :
    x.signExtend m = y.signExtend m ↔ x = y := by
  refine ⟨fun heq => ?_, fun heq => heq ▸ rfl⟩
  have hback := congrArg (BitVec.setWidth n) heq
  rwa [setWidth_signExtend h, setWidth_signExtend h] at hback

/-- There is nothing above a number. -/
theorem setWidth_ushiftRight {n m k : ℕ} (h : n ≤ k) (x : BitVec n) :
    x.setWidth m >>> k = 0#m := by
  refine BitVec.eq_of_getLsbD_eq fun i _ => ?_
  rw [BitVec.getLsbD_ushiftRight, BitVec.getLsbD_setWidth, BitVec.getLsbD_of_ge x _ (by omega),
    Bool.and_false, BitVec.getLsbD_zero]

/-- What is above a number that is extended is zero if it is not negative. -/
theorem signExtend_ushiftRight_eq_zero_iff {n m : ℕ} (h : n < m) (x : BitVec n) :
    x.signExtend m >>> n = 0#m ↔ x.msb = false := by
  refine ⟨fun hzero => ?_, fun hmsb => ?_⟩
  · have hbit := congrArg (BitVec.getLsbD · 0) hzero
    simpa only [BitVec.getLsbD_ushiftRight, BitVec.getLsbD_signExtend, Nat.add_zero, h,
      Nat.lt_irrefl, decide_true, Bool.true_and, if_false, BitVec.getLsbD_zero] using hbit
  · rw [BitVec.signExtend_eq_setWidth_of_msb_false hmsb, setWidth_ushiftRight le_rfl]

/-- The two extensions. -/
theorem signExtend_eq_setWidth_iff {n m : ℕ} (h : n < m) (x : BitVec n) :
    x.signExtend m = x.setWidth m ↔ x.msb = false := by
  refine ⟨fun heq => ?_, BitVec.signExtend_eq_setWidth_of_msb_false⟩
  rw [← signExtend_ushiftRight_eq_zero_iff h, heq, setWidth_ushiftRight le_rfl]

namespace MovInst

variable {s : CpuMem}

/-- The conditions on the operands. What is read of a high byte is the low one. -/
def Fits (s : CpuMem) : MovInst → Prop
  | mov _ _ src _ => src.Seen s
  | movImm ow dst value => ow = .qword → dst.isMem → value.msb = false
  | movzx ow num _ src _ => src.Seen s ∧ (ow = .word → s.regs.gpr num >>> 16 = 0)
  | movsx _ _ _ src _ => src.Seen s
  | movsxd ow num _ src _ => (ow = .dword → (src.content s).msb = false) ∧
      (ow = .word → s.regs.gpr num >>> 16 = ((src.content s).signExtend 64) >>> 16)
  | movImmv .. | cdqe | cwd | cdq | cqo => True
  | movFromSeg .. | movToSeg .. | cbw | cwde => False

theorem translateMov_eq {op0 op1 : MovOperand} {tt : ValueType} {v v' : Value} {w0 w1 : ℕ}
    (htype : movType op0 op1 = .ok tt) (hread : op1.read s = .ok v)
    (hcast : v.autoCast tt = .ok v') (hw1 : op1.width = .ok w1) (hw0 : op0.width = .ok w0) :
    translateMov op0 op1 s =
      op0.write (if op1.isImmediate ∧ w1 < w0 then v'.zx (.u 64) else v') s := by
  simp only [translateMov, htype, hread, hcast, hw1, hw0, ok_bind]

theorem width_operand {ow : OpWidth} (p : Place ow) : p.operand.width = .ok ow.bits := by
  cases p with
  | reg r h => exact congrArg Except.ok h
  | mem addr => exact congrArg Except.ok ow.mul_div_bits

theorem mov_right_mov (ow : OpWidth) (dst src : Place ow) (h : dst.isMem → !src.isMem) :
    (mov ow dst src h).Right s ↔ src.Seen s := by
  have htype : movType dst.operand src.operand = .ok (.u ow.bits) := by
    cases dst with
    | reg r hr => exact congrArg (fun w => Except.ok (ValueType.u w)) hr
    | mem addr =>
      cases src with
      | reg r hr => exact congrArg (fun w => Except.ok (ValueType.u w)) hr
      | mem addr' => exact absurd (h rfl) (by simp [Place.isMem])
  have himm : ¬(src.operand.isImmediate ∧ ow.bits < ow.bits) := fun h => h.2.false
  have htranslate : (mov ow dst src h).doTranslate s =
      dst.operand.write (.u (src.value s)) s :=
    (translateMov_eq htype src.read_operand (Value.autoCast_scalar_self _) (width_operand src)
      (width_operand dst)).trans (by rw [if_neg himm]; rfl)
  rw [Right, htranslate, ← Place.value_eq_iff, eq_comm]
  exact dst.wrote_iff _ _

theorem mov_right_movImmv (ow : OpWidth) (num : Fin 16) (value : BitVec ow.bits) :
    (movImmv ow num value).Right s := by
  have hwidth : ow.bits ∈ [8, 16, 32, 64] := by cases ow <;> decide
  have hread : (MovOperand.imm false _ value).read s = .ok (.u value) := if_pos hwidth
  have htranslate : (movImmv ow num value).doTranslate s =
      (Place.gpr ow num).operand.write (.u value) s :=
    (translateMov_eq rfl hread (Value.autoCast_scalar_self _) rfl rfl).trans
      (by rw [if_neg fun h => h.2.false]; rfl)
  rw [Right, htranslate]
  exact ((Place.gpr ow num).wrote_iff _ _).2 rfl

/-- An immediate is extended by zeros if it is written to 64 bits in memory. -/
theorem doTranslate_movImm (ow : OpWidth) (dst : Place ow) (value : BitVec ow.immBits) :
    ∃ c, (movImm ow dst value).doTranslate s = dst.operand.write (.scalar c
      (if ow = .qword ∧ dst.isMem then value.setWidth ow.bits
        else value.signExtend ow.bits)) s := by
  have hwidth : ow.immBits ∈ [8, 16, 32, 64] := by cases ow <;> decide
  have hread : (MovOperand.imm (ow ≠ .byte) _ value).read s = .ok (.scalar _ value) := if_pos hwidth
  have htranslate {tt v'} (htype : movType dst.operand (.imm (ow ≠ .byte) _ value) = .ok tt)
      (hcast : Value.autoCast tt (.scalar _ value) = .ok v') :=
    translateMov_eq htype hread hcast rfl (width_operand dst)
  cases dst with
  | reg r hr =>
    have htype : movType (Place.reg r hr).operand (.imm (ow ≠ .byte) _ value) =
        .ok (.u ow.bits) := congrArg (fun w => Except.ok (ValueType.u w)) hr
    refine ⟨.unsignedInteger, ?_⟩
    rw [if_neg fun h => Bool.false_ne_true h.2]
    cases ow with
    | byte =>
      refine (htranslate htype (Value.autoCast_scalar_self value)).trans ?_
      rw [if_neg fun h => absurd h.2 (by decide)]
      exact congrArg (fun x => MovOperand.write (.u x) s _) (BitVec.signExtend_eq value).symm
    | word | dword =>
      refine (htranslate htype (Value.autoCast_signed (by decide) value)).trans ?_
      rw [if_neg fun h => absurd h.2 (by decide)]
      rfl
    | qword =>
      refine (htranslate htype (Value.autoCast_signed (by decide) value)).trans ?_
      rw [if_pos ⟨rfl, by decide⟩, Value.zx_scalar]
      exact congrArg (fun x => MovOperand.write (.u x) s _)
        (BitVec.setWidth_eq (value.signExtend OpWidth.qword.bits))
  | mem addr =>
    cases ow with
    | byte | word | dword =>
      refine ⟨.signedInteger, (htranslate rfl (Value.autoCast_scalar_self value)).trans ?_⟩
      rw [if_neg fun h => absurd h.2 (by decide), if_neg (by nofun)]
      exact congrArg (fun x => MovOperand.write (.scalar _ x) s _) (BitVec.signExtend_eq value).symm
    | qword =>
      refine ⟨.unsignedInteger, (htranslate rfl (Value.autoCast_scalar_self value)).trans ?_⟩
      rw [if_pos ⟨rfl, by decide⟩, Value.zx_scalar_of_ne (by decide), if_pos ⟨rfl, rfl⟩]
      rfl

theorem mov_right_movImm (ow : OpWidth) (dst : Place ow) (value : BitVec ow.immBits) :
    (movImm ow dst value).Right s ↔ (ow = .qword → dst.isMem → value.msb = false) := by
  obtain ⟨c, htranslate⟩ := doTranslate_movImm (s := s) ow dst value
  rw [Right, htranslate]
  refine (dst.wrote_iff _ _).trans ?_
  split_ifs with h
  · obtain ⟨rfl, hmem⟩ := h
    rw [forall_prop_of_true rfl, forall_prop_of_true hmem]
    exact signExtend_eq_setWidth_iff (by decide) value
  · exact iff_of_true rfl fun how hmem => absurd ⟨how, hmem⟩ h

theorem leaFits_word (num : Fin 16) (x content : BitVec 64) :
    (OpWidth.word.reg num).leaFits x content ↔ x >>> 16 = content >>> 16 :=
  Iff.rfl

theorem leaFits_dword (num : Fin 16) (x content : BitVec 64) :
    (OpWidth.dword.reg num).leaFits x content ↔ x >>> 32 = 0 :=
  Iff.rfl

/-- There is nothing above 64 bits. -/
theorem leaFits_qword (num : Fin 16) (x content : BitVec 64) :
    (OpWidth.qword.reg num).leaFits x content := by
  have hzero (y : BitVec 64) : y >>> 64 = 0#64 := BitVec.ushiftRight_eq_zero le_rfl
  have hpart : OpWidth.qword.part ≠ .dword := by decide
  rw [GprReg.leaFits, if_neg hpart]
  exact (hzero x).trans (hzero content).symm

theorem movzx_right (ow : OpWidth) (num : Fin 16) (sw : OpWidth) (src : Place sw)
    (h : ow ≠ .byte ∧ sw ∈ [.byte, .word]) :
    (movzx ow num sw src h).Right s ↔
      src.Seen s ∧ (ow = .word → s.regs.gpr num >>> 16 = 0) := by
  have hle : sw.bits ≤ ow.bits ∧ ow.bits ≤ 64 := by
    obtain ⟨how, hsw⟩ := h
    revert how hsw
    cases ow <;> cases sw <;> decide
  have htranslate : (movzx ow num sw src h).doTranslate s =
      (Place.gpr ow num).operand.write (.u ((src.value s).setWidth 64)) s := by
    rw [doTranslate, translateMovzx, src.read_operand, ok_bind, Value.zx_scalar]
    rfl
  have habove : (ow.reg num).leaFits ((src.value s).setWidth 64) (s.regs.gpr num) ↔
      (ow = .word → s.regs.gpr num >>> 16 = 0) := by
    have hsw : sw.bits ≤ 16 := by
      have hmem := h.2
      revert hmem
      cases sw <;> decide
    cases ow with
    | byte => exact absurd rfl h.1
    | word =>
      have hzero : (src.value s).setWidth 64 >>> 16 = 0#64 := setWidth_ushiftRight hsw _
      rw [forall_prop_of_true rfl, leaFits_word, hzero]
      exact eq_comm
    | dword =>
      have hzero : (src.value s).setWidth 64 >>> 32 = 0#64 :=
        setWidth_ushiftRight (hsw.trans (by decide)) _
      exact iff_of_true ((leaFits_dword num _ _).2 hzero) nofun
    | qword => exact iff_of_true (leaFits_qword num _ _) nofun
  rw [Right, htranslate, ← Place.value_eq_iff, ← habove]
  refine ((Place.gpr_wrote_iff num _ _)).trans (and_congr_left fun _ => ?_)
  rw [BitVec.setWidth_setWidth_of_le _ hle.2, eq_comm, setWidth_inj hle.1]

theorem movsx_right (ow : OpWidth) (num : Fin 16) (sw : OpWidth) (src : Place sw)
    (h : ow ≠ .byte ∧ sw ∈ [.byte, .word]) :
    (movsx ow num sw src h).Right s ↔ src.Seen s := by
  have hle : sw.bits ≤ ow.bits := by
    obtain ⟨how, hsw⟩ := h
    revert how hsw
    cases ow <;> cases sw <;> decide
  have hdest : (MovOperand.reg (ow.reg num)).read s = .ok (.u ((Place.gpr ow num).value s)) :=
    (Place.gpr ow num).read_operand
  have htranslate : (movsx ow num sw src h).doTranslate s =
      (Place.gpr ow num).operand.write (.u ((src.value s).signExtend ow.bits)) s := by
    rw [doTranslate, translateMovsx, src.read_operand, ok_bind, hdest, ok_bind]
    exact congrArg (· >>= fun v => (Place.gpr ow num).operand.write v s) (Value.sx_scalar _)
  rw [Right, htranslate, ← Place.value_eq_iff, ← signExtend_inj hle, eq_comm]
  exact (Place.gpr ow num).wrote_iff _ _

theorem movsxd_right (ow : OpWidth) (num : Fin 16) (sw : OpWidth) (src : Place sw)
    (h : ow ≠ .byte ∧ sw = if ow = .word then .word else .dword) :
    (movsxd ow num sw src h).Right s ↔ (ow = .dword → (src.content s).msb = false) ∧
      (ow = .word → s.regs.gpr num >>> 16 = ((src.content s).signExtend 64) >>> 16) := by
  have hvalue : src.value s = src.content s := by
    refine src.value_eq_iff.2 (Place.seen_of_ne_byte (fun hsw => ?_) src)
    obtain ⟨-, h⟩ := h
    split_ifs at h <;> simp [h] at hsw
  have htranslate : (movsxd ow num sw src h).doTranslate s =
      (Place.gpr ow num).operand.write
        (.scalar .signedInteger ((src.content s).signExtend 64)) s := by
    have hbitcast : (Value.u (src.content s)).bitcast (.s (Value.u (src.content s)).type.width) =
        .ok (.scalar .signedInteger (src.content s)) := by
      rw [show (Value.u (src.content s)).type.width = sw.bits from Value.width_scalar _]
      exact Value.bitcast_scalar _
    rw [doTranslate, translateMovsxd, src.read_operand, ok_bind, hvalue, hbitcast, ok_bind]
    exact congrArg (· >>= fun v => (Place.gpr ow num).operand.write v s) (Value.sx_scalar _)
  have hle : sw.bits ≤ ow.bits ∧ ow.bits ≤ 64 := by
    obtain ⟨how, hsw⟩ := h
    cases ow with
    | byte => exact absurd rfl how
    | word | dword | qword => exact hsw ▸ by decide
  rw [Right, htranslate]
  refine (Place.gpr_wrote_iff num _ _).trans ?_
  rw [setWidth_signExtend_of_le hle.1 hle.2]
  refine (and_iff_right rfl).trans ?_
  cases ow with
  | byte => exact absurd rfl h.1
  | word =>
    rw [leaFits_word, forall_prop_of_true rfl, and_iff_right (by nofun)]
    exact eq_comm
  | dword =>
    obtain rfl : sw = .dword := h.2
    rw [leaFits_dword, forall_prop_of_true rfl, and_iff_left (by nofun)]
    exact signExtend_ushiftRight_eq_zero_iff (by decide) _
  | qword => exact iff_of_true (leaFits_qword num _ _) ⟨nofun, nofun⟩

/-- `CDQE` and `CDQ` extend the sign of `EAX`. -/
theorem sx_eax : ((MovOperand.reg (OpWidth.dword.reg rax)).read s >>= fun value =>
      value.bitcast (.s 32) >>= fun eax => eax.sx (.s 64)) =
    .ok (.scalar .signedInteger (((Place.gpr .dword rax).content s).signExtend 64)) := by
  have hcontent : (Place.gpr .dword rax).value s = (Place.gpr .dword rax).content s :=
    (Place.gpr .dword rax).value_eq_iff.2 (Place.seen_of_ne_byte (by decide) _)
  have hread : (MovOperand.reg (OpWidth.dword.reg rax)).read s =
      .ok (.u ((Place.gpr .dword rax).content s)) := by
    rw [← hcontent]
    exact (Place.gpr .dword rax).read_operand
  have hbitcast : (Value.u ((Place.gpr .dword rax).content s)).bitcast (.s 32) =
      .ok (.scalar .signedInteger ((Place.gpr .dword rax).content s)) := Value.bitcast_scalar _
  rw [hread, ok_bind, hbitcast, ok_bind]
  exact Value.sx_scalar _

theorem cdqe_right : cdqe.Right s := by
  have htranslate : cdqe.doTranslate s = (Place.gpr .qword rax).operand.write
      (.scalar .signedInteger (((Place.gpr .dword rax).content s).signExtend 64)) s := by
    have heq := congrArg (· >>= fun cast => (Place.gpr .qword rax).operand.write cast s)
      (@sx_eax s)
    simp only [bind_assoc, ok_bind] at heq
    exact heq
  rw [Right, htranslate]
  exact ((Place.gpr .qword rax).wrote_iff _ _).2 rfl

theorem cdq_right : cdq.Right s := by
  let x := ((Place.gpr .dword rax).content s).signExtend 64
  have hhi : (Value.scalar .signedInteger x).bitExtract 32 32 = .ok (.u (x.extractLsb' 32 32)) :=
    Value.bitExtract_scalar (by decide) _
  have htranslate : cdq.doTranslate s =
      (Place.gpr .dword rdx).operand.write (.u (x.extractLsb' 32 32)) s := by
    have heq := congrArg (· >>= fun sx => sx.bitExtract 32 32 >>= fun hi =>
      (Place.gpr .dword rdx).operand.write hi s) (@sx_eax s)
    simp only [bind_assoc, ok_bind] at heq
    rw [hhi, ok_bind] at heq
    exact heq
  rw [Right, htranslate]
  exact ((Place.gpr .dword rdx).wrote_iff _ _).2 rfl

/-- `write_reg` of a value that is as wide as the register. -/
theorem writeReg_eq_write (h : ow = .word ∨ ow = .qword) (num : Fin 16) (x : BitVec ow.bits) :
    s.writeReg (xedregToOffset (.gpr num)) (.u x) = (Place.gpr ow num).operand.write (.u x) s := by
  have hregs : X86.writeReg (xedregToOffset (.gpr num)) (Value.u x).bits s.regs =
      writeGpr (ow.reg num) .unsignedInteger (Value.u x).bits s.regs := by
    rcases h with rfl | rfl
    · have hle : 16 ≤ 64 := by decide
      exact (writeReg_gpr_of_le hle num (Value.u x).bits _).trans
        (GprReg.writeGpr_16 (OpWidth.word.reg num) _ _ _).symm
    · exact (writeReg_gpr num (Value.u x).bits _).trans
        (GprReg.writeGpr_64 (OpWidth.qword.reg num) _ _ _).symm
  exact congrArg (· >>= fun regs => .ok { s with regs }) hregs

/-- `CWD` and `CQO`. -/
theorem translateCwd_right (h : ow = .word ∨ ow = .qword) :
    ∃ s', translateCwd ow.bits s = .ok s' ∧ (Place.gpr ow rdx).Wrote
      ((((Place.gpr ow rax).content s).signExtend (2 * ow.bits)).extractLsb' ow.bits ow.bits)
      s s' := by
  let x := (Place.gpr ow rax).value s
  have hle : ow.bits ≤ 64 := by cases ow <;> decide
  have hread : readReg ow.bits (xedregToOffset (.gpr rax)) s.regs = .ok x := by
    rw [readReg_gpr, setWidth_gprReg _ _ hle]
    rfl
  have hsx : (Value.scalar .signedInteger x).sx (.s (2 * ow.bits)) =
      .ok (.scalar .signedInteger (x.signExtend (2 * ow.bits))) := Value.sx_scalar _
  have hhi : (Value.scalar .signedInteger (x.signExtend (2 * ow.bits))).bitExtract ow.bits ow.bits =
      .ok (.u ((x.signExtend (2 * ow.bits)).extractLsb' ow.bits ow.bits)) :=
    Value.bitExtract_scalar (by omega) _
  have htranslate : translateCwd ow.bits s = (Place.gpr ow rdx).operand.write
      (.u ((x.signExtend (2 * ow.bits)).extractLsb' ow.bits ow.bits)) s := by
    rw [translateCwd, hread, ok_bind, hsx, ok_bind, hhi, ok_bind]
    exact writeReg_eq_write h rdx _
  have hx : x = (Place.gpr ow rax).content s := by
    refine (Place.gpr ow rax).value_eq_iff.2 (Place.seen_of_ne_byte ?_ _)
    rcases h with rfl | rfl <;> decide
  rw [htranslate]
  exact ((Place.gpr ow rdx).wrote_iff _ _).2 (by rw [hx])

/-- A segment register is not read. -/
theorem movFromSeg_not_right (ow : OpWidth) (dst : Place ow) : ¬(movFromSeg ow dst).Right s := by
  rintro ⟨s', h, -⟩
  cases dst with
  | reg r hr => exact nomatch h
  | mem addr => exact nomatch h

/-- An instruction is right exactly under its condition. -/
theorem mov_right_iff (inst : MovInst) (s : CpuMem) : inst.Right s ↔ inst.Fits s := by
  cases inst with
  | mov ow dst src h => exact mov_right_mov ow dst src h
  | movImm ow dst value => exact mov_right_movImm ow dst value
  | movImmv ow num value => exact iff_of_true (mov_right_movImmv ow num value) trivial
  | movFromSeg ow dst => exact iff_of_false (movFromSeg_not_right ow dst) id
  | movToSeg ow src => exact iff_of_false (fun ⟨_, h, _⟩ => nomatch h) id
  | movzx ow num sw src h => exact movzx_right ow num sw src h
  | movsx ow num sw src h => exact movsx_right ow num sw src h
  | movsxd ow num sw src h => exact movsxd_right ow num sw src h
  | cbw | cwde => exact iff_of_false (fun ⟨_, h, _⟩ => nomatch h) id
  | cdqe => exact iff_of_true cdqe_right trivial
  | cwd => exact iff_of_true (translateCwd_right (.inl rfl)) trivial
  | cdq => exact iff_of_true cdq_right trivial
  | cqo => exact iff_of_true (translateCwd_right (.inr rfl)) trivial

/-- `MOV QWORD PTR [0x1000], -1` writes `0xFFFFFFFF`. -/
theorem not_mov_right :
    ¬(movImm .qword (.mem 0x1000) (-1)).Right ⟨fun _ => 0, fun _ => 0⟩ := by
  intro h
  exact absurd ((mov_right_movImm _ _ _).1 h rfl rfl) (by decide)

end MovInst

end Arancini.X86
