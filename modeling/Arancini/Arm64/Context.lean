import Arancini.Arm64.Instr

/-!
# Virtual registers

A port has one register, with the type of the port, if this has up to 64 bits, and registers of 64
bits for the whole multiples of 64 in its width otherwise. The numbers go up, and the instructions
are emitted in order.
-/

namespace Arancini.Arm64

open Ir (ValueType TypeClass)

/-- `base_type().width()`. -/
def baseWidth : ℕ :=
  64

/-- The registers that `virtual_register_allocator` takes for a type, from a number on. -/
def sequence (first : ℕ) (type : ValueType) : List RegisterOperand :=
  if type.width ≤ baseWidth then [⟨first, type⟩]
  else (List.range (type.width / baseWidth)).map fun i => ⟨first + i, ⟨type.typeClass, 64, 1⟩⟩

/-- The number of the next register, and the instructions so far. -/
structure Context where
  next : ℕ
  code : List Instr

namespace Context

variable (c : Context)

/-- `allocate` of a type. -/
def allocateType (type : ValueType) : RegisterOperand × Context :=
  (⟨c.next, type⟩, { c with next := c.next + 1 })

/-- `allocate` of a port of this type. -/
def allocate (type : ValueType) : List RegisterOperand × Context :=
  (sequence c.next type, { c with next := c.next + (sequence c.next type).length })

def emit (i : Instr) : Context :=
  { c with code := c.code ++ [i] }

/-- `cast`. -/
def cast (op : RegisterOperand) (type : ValueType) : RegisterOperand × Context :=
  let (destVreg, c) := c.allocateType type
  (destVreg, c.emit (.mov destVreg (.reg op)))

end Context

/-- A subscript, which is not checked. -/
def subscript (regs : List RegisterOperand) (i : ℕ) : Except String RegisterOperand :=
  match regs[i]? with
  | some r => .ok r
  | none => .error "out of range"

/-! ## Values -/

/-- A value in the registers from `first` on. -/
structure RegValue where
  first : ℕ
  type : ValueType
  pos : 0 < type.width

namespace RegValue

variable (v : RegValue)

def regs : List RegisterOperand :=
  sequence v.first v.type

/-- The first number after the registers. -/
def stop : ℕ :=
  v.first + v.regs.length

end RegValue

/-- A bit of the value in these registers, if there is a register for it. -/
def bitAt (regs : List RegisterOperand) (s : State) (i : ℕ) : Option Bool :=
  regs[i / 64]?.map fun r => (s.regs r.index).getLsbD (i % 64)

/-- The classes with registers `w` and `x`. -/
def isInteger (cls : TypeClass) : Bool :=
  cls = .signedInteger ∨ cls = .unsignedInteger

/-- A register of 64 bits. -/
abbrev wideReg (cls : TypeClass) (index : ℕ) : RegisterOperand :=
  ⟨index, ⟨cls, 64, 1⟩⟩

theorem kind_wideReg {cls : TypeClass} {index : ℕ} :
    (wideReg cls index).kind = if isInteger cls then .x
      else if cls = .floatingPoint then .d else .other := by
  cases cls <;> rfl

theorem kind_wideReg_eq_x {cls : TypeClass} {index : ℕ} :
    (wideReg cls index).kind = .x ↔ isInteger cls := by
  rw [kind_wideReg]
  cases cls <;> decide

theorem operandWidth_wideReg {cls : TypeClass} {rs : List RegisterOperand} (index : ℕ) :
    operandWidth (wideReg cls index :: rs) =
      if isInteger cls ∧ ∀ r ∈ rs, r.kind = .x then .ok 64 else .error invalidOperand := by
  have hw : ¬∀ r ∈ wideReg cls index :: rs, r.kind = .w := by
    intro h
    have hhead := h _ List.mem_cons_self
    rw [kind_wideReg] at hhead
    split_ifs at hhead
  rw [operandWidth, if_neg hw]
  simp only [List.forall_mem_cons, kind_wideReg_eq_x]

theorem operandWidth_pair {cls cls' : TypeClass} {d r : ℕ} :
    operandWidth [wideReg cls d, wideReg cls' r] =
      if isInteger cls ∧ isInteger cls' then .ok 64 else .error invalidOperand := by
  rw [operandWidth_wideReg]
  simp only [List.forall_mem_singleton, kind_wideReg_eq_x]

/-- The content of a register of 64 bits after a copy to it. -/
def copied (cls : TypeClass) (index : ℕ) (src : RegisterOperand) (s : State) : BitVec 64 :=
  if (wideReg cls index).isFloat = src.isFloat then s.regs src.index else s.regs index

/-- A copy to a register of 64 bits is accepted. -/
def CopyOk (assigned : ℕ → ℕ) (cls : TypeClass) (index : ℕ) (src : RegisterOperand) : Prop :=
  assigned index = assigned src.index ∨ (isInteger cls ∧ src.kind = .x)

instance (assigned : ℕ → ℕ) (cls : TypeClass) (index : ℕ) (src : RegisterOperand) :
    Decidable (CopyOk assigned cls index src) :=
  inferInstanceAs (Decidable (_ ∨ _))

theorem isFloat_of_kind_x {r : RegisterOperand} (h : r.kind = .x) : r.isFloat = false := by
  obtain ⟨index, cls, width, elements⟩ := r
  rw [RegisterOperand.kind] at h
  cases cls with
  | floatingPoint =>
    simp only at h
    split_ifs at h
  | none | signedInteger | unsignedInteger => rfl

theorem isFloat_of_isInteger {cls : TypeClass} {index : ℕ} (h : isInteger cls) :
    (wideReg cls index).isFloat = false := by
  cases cls with
  | floatingPoint => exact absurd h (by decide)
  | none | signedInteger | unsignedInteger => rfl

theorem exec_mov_wideReg (assigned : ℕ → ℕ) (cls : TypeClass) (index : ℕ) (src : RegisterOperand)
    (s : State) :
    exec assigned (.mov (wideReg cls index) (.reg src)) s =
      if CopyOk assigned cls index src then
        .ok (s.set (wideReg cls index) (copied cls index src s))
      else .error invalidOperand := by
  rw [exec, movReg]
  by_cases hsame : assigned index = assigned src.index
  · have hok : CopyOk assigned cls index src := .inl hsame
    rw [if_pos hsame, if_pos hok, copied]
    by_cases hfloat : (wideReg cls index).isFloat = src.isFloat
    · rw [if_pos hfloat, if_pos hfloat]
    · rw [if_neg hfloat, if_neg hfloat]
      refine congrArg Except.ok (State.ext ?_ rfl rfl)
      exact ((congrArg (Function.update s.regs index) (BitVec.setWidth_eq _)).trans
        (Function.update_eq_self index s.regs)).symm
  · rw [if_neg hsame, operandWidth_wideReg]
    simp only [List.forall_mem_singleton]
    by_cases hx : isInteger cls ∧ src.kind = .x
    · have hfloat : (wideReg cls index).isFloat = src.isFloat := by
        rw [isFloat_of_isInteger hx.1, isFloat_of_kind_x hx.2]
      rw [if_pos hx, if_pos (.inr hx), ok_bind, copied, if_pos hfloat, State.get,
        BitVec.setWidth_eq]
      rfl
    · rw [if_neg hx, if_neg fun h => h.elim hsame hx]
      rfl

section Field

variable (assigned : ℕ → ℕ) (cls cls' : TypeClass) (d r lsb width : ℕ) (s : State)

theorem exec_bfxil_wideReg :
    exec assigned (.bfxil (wideReg cls d) (wideReg cls' r) lsb width) s =
      if (isInteger cls ∧ isInteger cls') ∧ 0 < width ∧ lsb + width ≤ 64 then
        .ok (s.set (wideReg cls d) (insertField (s.regs d) 0 width (s.regs r >>> lsb)))
      else .error invalidOperand := by
  rw [exec, operandWidth_pair]
  by_cases hint : isInteger cls ∧ isInteger cls'
  · rw [if_pos hint, ok_bind, State.get, State.get, BitVec.setWidth_eq, BitVec.setWidth_eq]
    simp only [hint, and_self, true_and]
  · rw [if_neg hint, if_neg fun h => hint h.1]
    rfl

theorem exec_bfi_wideReg :
    exec assigned (.bfi (wideReg cls d) (wideReg cls' r) lsb width) s =
      if (isInteger cls ∧ isInteger cls') ∧ 0 < width ∧ lsb + width ≤ 64 then
        .ok (s.set (wideReg cls d) (insertField (s.regs d) lsb width (s.regs r)))
      else .error invalidOperand := by
  rw [exec, operandWidth_pair]
  by_cases hint : isInteger cls ∧ isInteger cls'
  · rw [if_pos hint, ok_bind, State.get, State.get, BitVec.setWidth_eq, BitVec.setWidth_eq]
    simp only [hint, and_self, true_and]
  · rw [if_neg hint, if_neg fun h => hint h.1]
    rfl

end Field

variable {first i : ℕ} {type : ValueType}

theorem sequence_of_le (h : type.width ≤ 64) : sequence first type = [⟨first, type⟩] :=
  if_pos h

theorem sequence_of_lt (h : 64 < type.width) :
    sequence first type =
      (List.range (type.width / 64)).map fun i => wideReg type.typeClass (first + i) :=
  if_neg h.not_ge

theorem length_sequence_of_lt (h : 64 < type.width) :
    (sequence first type).length = type.width / 64 := by
  rw [sequence_of_lt h, List.length_map, List.length_range]

theorem getElem?_sequence_of_lt (h : 64 < type.width) :
    (sequence first type)[i]? =
      if i < type.width / 64 then some (wideReg type.typeClass (first + i)) else none := by
  rw [sequence_of_lt h, List.getElem?_map]
  split_ifs with hi
  · rw [List.getElem?_range hi]
    rfl
  · rw [List.getElem?_eq_none (by rw [List.length_range]; omega)]
    rfl

/-- The first register. -/
theorem getElem?_sequence_zero :
    (sequence first type)[0]? =
      some ⟨first, if type.width ≤ 64 then type else ⟨type.typeClass, 64, 1⟩⟩ := by
  by_cases h : type.width ≤ 64
  · rw [sequence_of_le h, if_pos h]
    rfl
  · rw [getElem?_sequence_of_lt (Nat.lt_of_not_le h), if_pos (Nat.div_pos (by omega) (by decide)),
      if_neg h]
    rfl

theorem length_sequence_pos : 0 < (sequence first type).length := by
  have hzero := @getElem?_sequence_zero first type
  exact (List.getElem?_eq_some_iff.1 hzero).1

/-- The numbers of the registers. -/
theorem index_of_getElem? {r : RegisterOperand} (h : (sequence first type)[i]? = some r) :
    r.index = first + i ∧ i < (sequence first type).length := by
  refine ⟨?_, (List.getElem?_eq_some_iff.1 h).1⟩
  by_cases hle : type.width ≤ 64
  · rw [sequence_of_le hle] at h
    cases i with
    | zero => rw [← Option.some.inj h]; rfl
    | succ i => exact nomatch h
  · rw [getElem?_sequence_of_lt (Nat.lt_of_not_le hle)] at h
    split_ifs at h
    rw [← Option.some.inj h]

end Arancini.Arm64
