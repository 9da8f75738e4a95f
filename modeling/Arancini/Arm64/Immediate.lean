import Arancini.Arm64.GuestMem

/-!
# Immediate values

`mov_immediate` puts a constant of up to 64 bits into a register, in pieces of 16 bits. It takes no
more pieces than the type has, but it takes whole ones, so that a type with 8 bits, or with one,
gets 16 bits of the constant. A constant of a narrow type may have more bits than this: the builder
takes the number `-1` for a signed type of 8 bits as it is.

`Immediate.immediate_right_iff` says that these are the constants that are wrong, and that all
pieces are accepted otherwise.
-/

namespace Arancini.Arm64

open Ir (ValueType TypeClass)

/-! ## The lowering -/

/-- `actual_size`. -/
def actualSize (immediate : ℕ) (type : ValueType) : ℕ :=
  min ((immediate ||| 1).log2 + 1) type.elementWidth

/-- `move_count`. -/
def moveCount (immediate : ℕ) (type : ValueType) : ℕ :=
  actualSize immediate type / 16 + if actualSize immediate type % 16 ≠ 0 then 1 else 0

/-- A piece of an immediate. -/
def chunk (immediate i : ℕ) : ℕ :=
  immediate / 2 ^ (16 * i) % 2 ^ 16

/-- The pieces above the first one. -/
def movkChunks (reg : RegisterOperand) (immediate i n : ℕ) : List Instr :=
  (List.range' i n).map fun i => .movk reg (chunk immediate i) (16 * i)

/-- `mov_immediate`. -/
def movImmediate (immediate : ℕ) (type : ValueType) (c : Context) :
    Except String (RegisterOperand × Context) :=
  let (reg, c) := c.allocateType type
  if actualSize immediate type < 16 then .ok (reg, c.emit (.mov reg (.imm (chunk immediate 0))))
  else if actualSize immediate type ≤ baseWidth then
    let moves := .movz reg (chunk immediate 0) 0 ::
      movkChunks reg immediate 1 (moveCount immediate type - 1)
    .ok (reg, { c with code := c.code ++ moves })
  else .error s!"Immediate {immediate} is too large"

/-- A sequence of registers where one is needed. -/
def singleRegister (regs : List RegisterOperand) : Except String RegisterOperand :=
  if regs.length > 1 then
    .error s!"Accessing register set of {regs.length} registers as single register"
  else subscript regs 0

/-- `materialise_constant`, after the conversion of the value to an integer. -/
def materialiseConstant (immediate : ℕ) (type : ValueType) (c : Context) :
    Except String (List RegisterOperand × Context) := do
  let (dest, c) := c.allocate type
  let (reg, c) ← movImmediate immediate type c
  let destVreg ← singleRegister dest
  return (dest, c.emit (.mov destVreg (.reg reg)))

/-- What needs the register of an immediate: the lowering of a node, or a node for the constant. -/
inductive ImmediateUse
  | register
  | constant

/-- An immediate of a type. -/
structure Immediate where
  value : BitVec 64
  type : ValueType
  pos : 0 < type.width

/-- The value with `w` bits is in the registers, and the bits above are zeros. -/
def HoldsBits (regs : List RegisterOperand) (s : State) (w : ℕ) (v : BitVec 64) : Prop :=
  ∀ i, i < w ∨ i < 64 * regs.length → bitAt regs s i = some (decide (i < w) && v.getLsbD i)

namespace Immediate

variable (a : Immediate)

def lower (next : ℕ) : ImmediateUse → Except String (List RegisterOperand × Context)
  | .register => do
    let (reg, c) ← movImmediate a.value.toNat a.type ⟨next, []⟩
    return ([reg], c)
  | .constant => materialiseConstant a.value.toNat a.type ⟨next, []⟩

/-- The code is accepted and leaves the immediate in the destination. -/
def Right (assigned : ℕ → ℕ) (next : ℕ) (use : ImmediateUse) : Prop :=
  ∃ dest c, a.lower next use = .ok (dest, c) ∧ ∀ s, ∃ s', run assigned c.code s = .ok s' ∧
    HoldsBits dest s' a.type.width a.value

/-- An integer of up to 64 bits, with no ones above the type in the pieces that this has. -/
def Fits : Prop :=
  isInteger a.type.typeClass ∧ a.type.nrElements = 1 ∧ a.type.width ≤ 64 ∧
    a.value.toNat % 2 ^ (16 * ((a.type.width + 15) / 16)) < 2 ^ a.type.width

instance : Decidable a.Fits :=
  inferInstanceAs (Decidable (_ ∧ _))

end Immediate

/-! ## Pieces -/

section Chunks

variable {assigned : ℕ → ℕ} {reg : RegisterOperand} {n immediate : ℕ} {s s' : State}

/-- The register has the bits of the immediate below `i`, and zeros above. -/
def HasLow (reg : RegisterOperand) (immediate i : ℕ) (s : State) : Prop :=
  ∀ b < 64, (s.regs reg.index).getLsbD b = (decide (b < i) && immediate.testBit b)

theorem getLsbD_chunk {i b m : ℕ} (hb : b < 16) (hm : b < m) :
    (BitVec.ofNat m (chunk immediate i)).getLsbD b = immediate.testBit (16 * i + b) := by
  rw [BitVec.getLsbD_ofNat, chunk, Nat.testBit_mod_two_pow, Nat.testBit_div_two_pow]
  simp only [hb, hm, decide_true, Bool.true_and]
  rw [Nat.add_comm]

/-- The registers that have a name for integers. -/
theorem operandWidth_single : operandWidth [reg] = .ok n ↔ isInteger reg.type.typeClass ∧
    reg.type.nrElements ≤ 1 ∧ n = if reg.type.elementWidth > 32 then 64 else 32 := by
  obtain ⟨index, cls, width, elements⟩ := reg
  rw [operandWidth]
  simp only [List.forall_mem_singleton, RegisterOperand.kind]
  by_cases hone : elements > 1
  · rw [if_pos hone]
    exact iff_of_false (by simp) fun h => hone.not_ge h.2.1
  · rw [if_neg hone]
    cases cls with
    | none => exact iff_of_false (by simp) fun h => absurd h.1 (by decide)
    | floatingPoint =>
      refine iff_of_false (fun h => ?_) fun h => absurd h.1 (by decide)
      by_cases hw : width > 32
      · simp [hw] at h
      · simp [hw] at h
    | signedInteger | unsignedInteger =>
      by_cases hw : width > 32
      · simp [hw, isInteger, Nat.le_of_not_lt hone, eq_comm]
      · simp [hw, isInteger, Nat.le_of_not_lt hone, eq_comm]

theorem operandWidth_single_le (h : operandWidth [reg] = .ok n) : n = 32 ∨ n = 64 := by
  obtain ⟨-, -, rfl⟩ := operandWidth_single.1 h
  split_ifs
  · exact .inr rfl
  · exact .inl rfl

/-- The first piece. -/
theorem hasLow_set (hn : n = 32 ∨ n = 64) :
    HasLow reg immediate 16 (s.set reg (BitVec.ofNat n (chunk immediate 0))) := by
  intro b hb
  rw [State.regs_set_self, BitVec.getLsbD_setWidth]
  simp only [hb, decide_true, Bool.true_and]
  by_cases hlow : b < 16
  · rw [getLsbD_chunk hlow (by omega)]
    simp only [hlow, decide_true, Bool.true_and, Nat.mul_zero, Nat.zero_add]
  · rw [BitVec.getLsbD_ofNat, chunk, Nat.testBit_mod_two_pow]
    simp only [hlow, decide_false, Bool.false_and, Bool.and_false]

/-- A piece above it. -/
theorem exec_movk (assigned : ℕ → ℕ) (hn : operandWidth [reg] = .ok n) {i : ℕ}
    (hi : 16 * (i + 1) ≤ n) (hs : HasLow reg immediate (16 * i) s) :
    ∃ s', exec assigned (.movk reg (chunk immediate i) (16 * i)) s = .ok s' ∧
      HasLow reg immediate (16 * (i + 1)) s' := by
  have hn' := operandWidth_single_le hn
  have hchunk : chunk immediate i < 2 ^ 16 := Nat.mod_lt _ (by decide)
  have hmod : 16 * i % 16 = 0 := Nat.mul_mod_right 16 i
  have hshift : 16 * i < n := by omega
  rw [exec, hn, ok_bind, if_pos ⟨hchunk, hmod, hshift⟩]
  refine ⟨_, rfl, fun b hb => ?_⟩
  rw [State.regs_set_self, BitVec.getLsbD_setWidth]
  simp only [hb, decide_true, Bool.true_and]
  by_cases hbn : b < n
  · rw [getLsbD_insertField hbn, State.get, BitVec.getLsbD_setWidth]
    by_cases hin : 16 * i ≤ b ∧ b < 16 * i + 16
    · have hsum : 16 * i + (b - 16 * i) = b := by omega
      rw [if_pos hin, getLsbD_chunk (by omega) (by omega), hsum,
        decide_eq_true (by omega : b < 16 * (i + 1)), Bool.true_and]
    · rw [if_neg hin, hs b hb]
      by_cases hlow : b < 16 * i
      · rw [decide_eq_true hbn, decide_eq_true hlow, decide_eq_true (by omega : b < 16 * (i + 1)),
          Bool.true_and]
      · rw [decide_eq_false hlow, decide_eq_false (by omega : ¬b < 16 * (i + 1)), Bool.false_and,
          Bool.and_false]
  · rw [BitVec.getLsbD_of_ge _ _ (Nat.le_of_not_lt hbn),
      decide_eq_false (by omega : ¬b < 16 * (i + 1)), Bool.false_and]

theorem run_movkChunks (assigned : ℕ → ℕ) (hn : operandWidth [reg] = .ok n) :
    ∀ {m i : ℕ} {s : State}, 16 * (i + m) ≤ n → HasLow reg immediate (16 * i) s →
    ∃ s', run assigned (movkChunks reg immediate i m) s = .ok s' ∧
      HasLow reg immediate (16 * (i + m)) s'
  | 0, i, s, _, hs => ⟨s, rfl, hs⟩
  | m + 1, i, s, hi, hs => by
    obtain ⟨t, ht, hlow⟩ := exec_movk assigned hn (by omega) hs
    obtain ⟨s', hs', hlow'⟩ := run_movkChunks assigned hn (by omega : 16 * (i + 1 + m) ≤ n) hlow
    refine ⟨s', ?_, ?_⟩
    · rw [movkChunks, List.range'_succ, List.map_cons, run, ht]
      exact hs'
    · rw [Nat.add_right_comm, Nat.add_assoc] at hlow'
      exact hlow'

end Chunks

/-! ## The whole sequence -/

section Sequence

variable {assigned : ℕ → ℕ} {immediate next : ℕ} {type : ValueType}

/-- The bits that the pieces have. -/
def movedBits (immediate : ℕ) (type : ValueType) : ℕ :=
  16 * ((actualSize immediate type + 15) / 16)

theorem actualSize_pos (h : 0 < type.elementWidth) : 0 < actualSize immediate type :=
  Nat.lt_min.2 ⟨Nat.succ_pos _, h⟩

theorem moveCount_eq : 16 * moveCount immediate type = movedBits immediate type := by
  rw [moveCount, movedBits]
  split_ifs with h
  · omega
  · omega

/-- The immediate has no ones between the pieces that are moved and those that the type has. -/
theorem testBit_of_movedBits_le {b : ℕ} (hb : movedBits immediate type ≤ b)
    (hw : b < 16 * ((type.elementWidth + 15) / 16)) : immediate.testBit b = false := by
  have hsize : (immediate ||| 1).log2 + 1 ≤ b := by
    rw [movedBits, actualSize] at hb
    omega
  have hlt : immediate < 2 ^ b := calc
    immediate ≤ immediate ||| 1 := Nat.left_le_or
    _ < 2 ^ ((immediate ||| 1).log2 + 1) := Nat.lt_log2_self
    _ ≤ 2 ^ b := Nat.pow_le_pow_right (by decide) hsize
  exact Nat.testBit_lt_two_pow hlt

/-- The pieces that are moved are not above those of the type. -/
theorem movedBits_le_width :
    movedBits immediate type ≤ 16 * ((type.elementWidth + 15) / 16) := by
  have hwidth : actualSize immediate type ≤ type.elementWidth := Nat.min_le_right ..
  rw [movedBits]
  omega

theorem actualSize_le (h : immediate < 2 ^ 64) : actualSize immediate type ≤ 64 := by
  have hone : immediate ||| 1 < 2 ^ 64 := Nat.or_lt_two_pow h (by decide)
  have hlog : (immediate ||| 1).log2 < 64 := (Nat.log2_lt (Nat.ne_of_gt (Nat.lt_of_lt_of_le
    Nat.one_pos Nat.right_le_or))).2 hone
  exact (Nat.min_le_left ..).trans hlog

theorem movedBits_le {n : ℕ} (himm : immediate < 2 ^ 64)
    (hn : operandWidth [⟨next, type⟩] = .ok n) : movedBits immediate type ≤ n := by
  have hsize := @actualSize_le immediate type himm
  have hwidth : actualSize immediate type ≤ type.elementWidth := Nat.min_le_right ..
  obtain ⟨-, -, rfl⟩ := operandWidth_single.1 hn
  rw [movedBits]
  dsimp only
  split_ifs
  · omega
  · omega

/-- The instructions of an immediate. -/
theorem movImmediate_spec (himm : immediate < 2 ^ 64) (hpos : 0 < type.elementWidth) :
    ∃ code, movImmediate immediate type ⟨next, []⟩ = .ok (⟨next, type⟩, ⟨next + 1, code⟩) ∧
      (∀ s n, operandWidth [⟨next, type⟩] = .ok n → ∃ s', run assigned code s = .ok s' ∧
        HasLow ⟨next, type⟩ immediate (movedBits immediate type) s') ∧
      ∀ s s', run assigned code s = .ok s' → ∃ n, operandWidth [⟨next, type⟩] = .ok n := by
  have hchunk : chunk immediate 0 < 2 ^ 16 := Nat.mod_lt _ (by decide)
  rw [movImmediate]
  dsimp only [Context.allocateType]
  by_cases hshort : actualSize immediate type < 16
  · rw [if_pos hshort]
    have hmoved : movedBits immediate type = 16 := by
      have := @actualSize_pos immediate _ hpos
      rw [movedBits]
      omega
    refine ⟨_, rfl, fun s n hn => ?_, fun s s' hs => ?_⟩
    · refine ⟨s.set ⟨next, type⟩ (BitVec.ofNat n (chunk immediate 0)), ?_, ?_⟩
      · simp only [List.nil_append, run, exec, hn, ok_bind, if_pos hchunk]
      · rw [hmoved]
        exact hasLow_set (operandWidth_single_le hn)
    · obtain ⟨t, ht, -⟩ := bind_eq_ok.1 hs
      obtain ⟨n, hn, -⟩ := bind_eq_ok.1 ht
      exact ⟨n, hn⟩
  · have hfull : actualSize immediate type ≤ baseWidth := actualSize_le himm
    rw [if_neg hshort, if_pos hfull]
    refine ⟨_, rfl, fun s n hn => ?_, fun s s' hs => ?_⟩
    · have hn' := operandWidth_single_le hn
      have hmoved := movedBits_le himm hn
      have hcount : 1 + (moveCount immediate type - 1) = moveCount immediate type := by
        have hcount := @moveCount_eq immediate type
        rw [movedBits] at hcount
        omega
      obtain ⟨s', hs', hlow⟩ := run_movkChunks assigned hn
        (m := moveCount immediate type - 1) (by rw [hcount, moveCount_eq]; exact hmoved)
        (hasLow_set (s := s) hn')
      refine ⟨s', ?_, ?_⟩
      · rw [List.nil_append, run, exec, hn, ok_bind,
          if_pos ⟨hchunk, rfl, hn'.elim (fun h => by omega) fun h => by omega⟩,
          BitVec.shiftLeft_zero]
        exact hs'
      · rw [hcount, moveCount_eq] at hlow
        exact hlow
    · obtain ⟨t, ht, -⟩ := bind_eq_ok.1 hs
      obtain ⟨n, hn, -⟩ := bind_eq_ok.1 ht
      exact ⟨n, hn⟩

theorem bitAt_singleton {reg : RegisterOperand} {s : State} {i : ℕ} :
    bitAt [reg] s i = if i < 64 then some ((s.regs reg.index).getLsbD i) else none := by
  by_cases hi : i < 64
  · rw [if_pos hi, bitAt_of_getElem? (r := reg), Nat.mod_eq_of_lt hi]
    rw [Nat.div_eq_of_lt hi]
    rfl
  · rw [if_neg hi, bitAt, List.getElem?_eq_none (by rw [List.length_singleton]; omega)]
    rfl

/-- Numbers below a power of two have no ones from there on. -/
theorem mod_two_pow_lt_iff {x m w : ℕ} :
    x % 2 ^ m < 2 ^ w ↔ ∀ b, w ≤ b → b < m → x.testBit b = false := by
  constructor
  · intro h b hw hb
    have hbit := Nat.testBit_lt_two_pow (h.trans_le (Nat.pow_le_pow_right (by decide) hw))
    rw [Nat.testBit_mod_two_pow, decide_eq_true hb, Bool.true_and] at hbit
    exact hbit
  · intro h
    refine Nat.lt_pow_two_of_testBit _ fun b hw => ?_
    rw [Nat.testBit_mod_two_pow]
    by_cases hb : b < m
    · rw [h b hw hb, Bool.and_false]
    · rw [decide_eq_false hb, Bool.false_and]

/-- The bits that have been moved are those of the value. -/
theorem holdsBits_iff {reg : RegisterOperand} {s : State} {value : BitVec 64}
    (hlow : HasLow reg value.toNat (movedBits value.toNat type) s) :
    HoldsBits [reg] s type.elementWidth value ↔ type.elementWidth ≤ 64 ∧
      value.toNat % 2 ^ (16 * ((type.elementWidth + 15) / 16)) < 2 ^ type.elementWidth := by
  rw [mod_two_pow_lt_iff]
  constructor
  · intro h
    have hle : type.elementWidth ≤ 64 := by
      by_contra hgt
      have hbit := h 64 (.inl (Nat.lt_of_not_le hgt))
      rw [bitAt_singleton, if_neg (Nat.lt_irrefl 64)] at hbit
      exact nomatch hbit
    refine ⟨hle, fun b hw hb => ?_⟩
    have hbit := h b (.inr (by rw [List.length_singleton]; omega))
    rw [bitAt_singleton, if_pos (by omega), hlow b (by omega), decide_eq_false hw.not_gt,
      Bool.false_and, Option.some.injEq] at hbit
    rcases Nat.lt_or_ge b (movedBits value.toNat type) with hin | hout
    · rw [decide_eq_true hin, Bool.true_and] at hbit
      exact hbit
    · exact testBit_of_movedBits_le hout hb
  · rintro ⟨hle, hzero⟩ b hb
    have hb64 : b < 64 := hb.elim (fun h => h.trans_le hle) id
    rw [bitAt_singleton, if_pos hb64, hlow b hb64]
    refine congrArg some ?_
    change _ = (decide _ && value.toNat.testBit b)
    by_cases hw : b < type.elementWidth
    · rcases Nat.lt_or_ge b (movedBits value.toNat type) with hin | hout
      · rw [decide_eq_true hin, decide_eq_true hw]
      · rw [testBit_of_movedBits_le hout (by omega), Bool.and_false, Bool.and_false]
    · rw [decide_eq_false hw, Bool.false_and]
      rcases Nat.lt_or_ge b (movedBits value.toNat type) with hin | hout
      · rw [hzero b (Nat.le_of_not_lt hw) (hin.trans_le movedBits_le_width), Bool.and_false]
      · rw [decide_eq_false hout.not_gt, Bool.false_and]

theorem operandWidth_pair_self {d r : ℕ} :
    operandWidth [⟨d, type⟩, ⟨r, type⟩] = operandWidth [⟨r, type⟩] := by
  have hkind : (⟨d, type⟩ : RegisterOperand).kind = (⟨r, type⟩ : RegisterOperand).kind := rfl
  simp only [operandWidth, List.forall_mem_cons, hkind, and_self_left]

/-- A copy to a register of the same type. -/
theorem exec_mov_self (assigned : ℕ → ℕ) {d r n i : ℕ} {s : State}
    (hn : operandWidth [⟨r, type⟩] = .ok n) (hi : i ≤ n) (hs : HasLow ⟨r, type⟩ immediate i s) :
    ∃ s', exec assigned (.mov ⟨d, type⟩ (.reg ⟨r, type⟩)) s = .ok s' ∧
      HasLow ⟨d, type⟩ immediate i s' := by
  rw [exec, movReg]
  by_cases hsame : assigned d = assigned r
  · rw [if_pos hsame]
    refine ⟨s.set ⟨d, type⟩ (s.regs r), congrArg Except.ok (if_pos rfl), fun b hb => ?_⟩
    rw [State.regs_set_self, BitVec.setWidth_eq]
    exact hs b hb
  · rw [if_neg hsame, operandWidth_pair_self, hn]
    refine ⟨s.set ⟨d, type⟩ (s.get n ⟨r, type⟩), rfl, fun b hb => ?_⟩
    rw [State.regs_set_self, BitVec.getLsbD_setWidth, State.get, BitVec.getLsbD_setWidth, hs b hb]
    by_cases hbi : b < i
    · rw [decide_eq_true hb, decide_eq_true (hbi.trans_le hi), Bool.true_and, Bool.true_and]
    · rw [decide_eq_false hbi, Bool.false_and, Bool.and_false, Bool.and_false]

end Sequence

namespace Immediate

variable {assigned : ℕ → ℕ} {next : ℕ} {a : Immediate}

theorem elementWidth_pos (a : Immediate) : 0 < a.type.elementWidth :=
  Nat.pos_of_ne_zero fun h => a.pos.ne' (by rw [ValueType.width, h, Nat.zero_mul])

theorem elementWidth_eq (h : a.type.nrElements ≤ 1) :
    a.type.nrElements = 1 ∧ a.type.elementWidth = a.type.width := by
  have hne : a.type.nrElements ≠ 0 := fun h => a.pos.ne' (by rw [ValueType.width, h, Nat.mul_zero])
  have hone : a.type.nrElements = 1 := by omega
  exact ⟨hone, by rw [ValueType.width, hone, Nat.mul_one]⟩

/-- Registers of the type of a value that fits have a name. -/
theorem operandWidth_of_fits (h : a.Fits) (index : ℕ) :
    ∃ n, operandWidth [⟨index, a.type⟩] = .ok n :=
  ⟨_, operandWidth_single.2 ⟨h.1, h.2.1.le, rfl⟩⟩

/-- The code as a whole, for a destination that is a single register of the type. -/
theorem right_iff_of_code (index : ℕ) {use : ImmediateUse} {d : ℕ} {c : Context}
    (hlower : a.lower next use = .ok ([⟨d, a.type⟩], c))
    (hok : ∀ s n, operandWidth [⟨index, a.type⟩] = .ok n → ∃ s', run assigned c.code s = .ok s' ∧
      HasLow ⟨d, a.type⟩ a.value.toNat (movedBits a.value.toNat a.type) s')
    (hinv : ∀ s s', run assigned c.code s = .ok s' → ∃ n, operandWidth [⟨index, a.type⟩] = .ok n) :
    a.Right assigned next use ↔ a.Fits := by
  constructor
  · rintro ⟨dest, c', hlower', hrun⟩
    obtain ⟨rfl, rfl⟩ := Prod.mk.inj (Except.ok.inj (hlower.symm.trans hlower'))
    obtain ⟨s', hs', hbits⟩ := hrun (contents fun _ => 0)
    obtain ⟨n, hn⟩ := hinv _ _ hs'
    obtain ⟨hint, hone, -⟩ := operandWidth_single.1 hn
    obtain ⟨hone, hwidth⟩ := elementWidth_eq hone
    obtain ⟨t, ht, hlow⟩ := hok (contents fun _ => 0) n hn
    obtain rfl := Except.ok.inj (hs'.symm.trans ht)
    rw [← hwidth, holdsBits_iff hlow] at hbits
    refine ⟨hint, hone, ?_⟩
    rw [← hwidth]
    exact hbits
  · intro hfits
    obtain ⟨n, hn⟩ := operandWidth_of_fits hfits index
    obtain ⟨-, hwidth⟩ := elementWidth_eq hfits.2.1.le
    refine ⟨_, _, hlower, fun s => ?_⟩
    obtain ⟨s', hs', hlow⟩ := hok s n hn
    refine ⟨s', hs', ?_⟩
    rw [← hwidth, holdsBits_iff hlow, hwidth]
    exact hfits.2.2

/-- A constant with more than 64 bits has bits without a register. -/
theorem not_right_constant (hwide : 64 < a.type.width) : ¬a.Right assigned next .constant := by
  rintro ⟨dest, c, hlower, hrun⟩
  obtain ⟨⟨reg, c'⟩, -, h⟩ := bind_eq_ok.1 hlower
  obtain ⟨d, hd, h⟩ := bind_eq_ok.1 h
  obtain ⟨rfl, -⟩ := Prod.mk.inj (Except.ok.inj h)
  obtain ⟨s', -, hbits⟩ := hrun (contents fun _ => 0)
  have hlen : ¬(sequence next a.type).length > 1 := by
    intro hlen
    have hd' : singleRegister (sequence next a.type) = .ok d := hd
    rw [singleRegister, if_pos hlen] at hd'
    exact nomatch hd'
  rw [length_sequence_of_lt hwide] at hlen
  have hbit := hbits 64 (.inl hwide)
  rw [bitAt_sequence hwide, if_neg (by omega)] at hbit
  exact nomatch hbit

theorem right_register_iff : a.Right assigned next .register ↔ a.Fits := by
  obtain ⟨code, hmov, hok, hinv⟩ := @movImmediate_spec assigned _ next a.type a.value.isLt
    a.elementWidth_pos
  exact right_iff_of_code next (by rw [lower, hmov]; rfl) hok hinv

theorem right_constant_iff : a.Right assigned next .constant ↔ a.Fits := by
  rcases Nat.lt_or_ge 64 a.type.width with hwide | hle
  · exact iff_of_false (not_right_constant hwide) fun h => hwide.not_ge h.2.2.1
  obtain ⟨code, hmov, hok, hinv⟩ := @movImmediate_spec assigned _ (next + 1) a.type a.value.isLt
    a.elementWidth_pos
  have hlower : a.lower next .constant = .ok ([⟨next, a.type⟩], ⟨next + 1 + 1,
      code ++ [.mov ⟨next, a.type⟩ (.reg ⟨next + 1, a.type⟩)]⟩) := by
    have hseq : sequence next a.type = [⟨next, a.type⟩] := sequence_of_le hle
    rw [lower, materialiseConstant, Context.allocate, hseq]
    dsimp only [List.length_singleton]
    rw [hmov]
    rfl
  refine right_iff_of_code (next + 1) hlower (fun s n hn => ?_) fun s s' hs => ?_
  · obtain ⟨t, ht, hlow⟩ := hok s n hn
    obtain ⟨s', hs', hlow'⟩ := exec_mov_self assigned (d := next) hn
      (movedBits_le a.value.isLt hn) hlow
    refine ⟨s', ?_, hlow'⟩
    rw [run_append, ht, ok_bind, run, hs']
    rfl
  · rw [run_append] at hs
    obtain ⟨t, ht, -⟩ := bind_eq_ok.1 hs
    exact hinv s t ht

/-- The immediate is in its destination exactly where it fits. -/
theorem immediate_right_iff (assigned : ℕ → ℕ) (next : ℕ) (use : ImmediateUse) (a : Immediate) :
    a.Right assigned next use ↔ a.Fits := by
  cases use with
  | register => exact right_register_iff
  | constant => exact right_constant_iff

/-- The number `-1` as a signed constant of 8 bits. -/
def minusOne : Immediate :=
  ⟨-1, .s 8, by decide⟩

theorem not_minusOne_right : ¬minusOne.Right id 33 .constant := by
  rw [right_constant_iff]
  decide

end Immediate

end Arancini.Arm64
