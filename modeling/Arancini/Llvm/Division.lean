import Arancini.Llvm.Instr
import Arancini.Riscv.Mul

/-!
# Signedness in LLVM

A division, a remainder, a comparison and a conversion to floating point depend on the sign of the
type of their operands. `materialise_port` divides unsigned. For the others it asks the type of LLVM
for its sign bit, which is a number that is never zero, and so takes the signed instruction.

`signedness_right_iff` says for which operands that is the operation of the type of the IR all the
same.
-/

namespace Arancini.Llvm

variable {w : ℕ}

/-! ## The lowering -/

section Lowering

/- What `IntegerType::getSignBit` gives for a width. -/
variable (getSignBit : ℕ → BitVec 64) (lhs rhs : BitVec w)

def materialiseDiv : Option (BitVec w) :=
  udiv lhs rhs

def materialiseCmpgt : Bool :=
  if getSignBit w ≠ 0 then icmp .sgt lhs rhs else icmp .ugt lhs rhs

/-- The type of the left operand is asked twice. -/
def materialiseMod : Option (BitVec w) :=
  if getSignBit w ≠ 0 ∧ getSignBit w ≠ 0 then srem lhs rhs else urem lhs rhs

/-- The number that is rounded by a conversion to floating point. -/
def materialiseConvert (val : BitVec w) : ℤ :=
  if getSignBit w ≠ 0 then sitofp val else uitofp val

end Lowering

/-! ## The operations of the IR -/

/-- The quotient is rounded towards zero. The most negative number divided by `-1` wraps. -/
def quotient (cls : Riscv.Class) (lhs rhs : BitVec w) : BitVec w :=
  match cls with
  | .signed => lhs.sdiv rhs
  | .unsigned => lhs / rhs

/-- The remainder has the sign of the dividend. -/
def remainder (cls : Riscv.Class) (lhs rhs : BitVec w) : BitVec w :=
  match cls with
  | .signed => lhs.srem rhs
  | .unsigned => lhs % rhs

def greater (cls : Riscv.Class) (lhs rhs : BitVec w) : Bool :=
  cls.toInt rhs < cls.toInt lhs

/-! ## When they are right -/

/-- No operand is negative, or the quotients are the same all the same. -/
def divFits (cls : Riscv.Class) (lhs rhs : BitVec w) : Prop :=
  cls = .signed → (lhs.msb = false ∧ rhs.msb = false) ∨ rhs = 1 ∨ lhs = rhs ∨
    (lhs.msb = false ∧ rhs.msb = true ∧ lhs.toNat < (-rhs).toNat)

/-- The same for the remainders. That of the most negative number and `-1` is undefined. -/
def modFits (cls : Riscv.Class) (lhs rhs : BitVec w) : Prop :=
  ¬(lhs = BitVec.intMin w ∧ rhs = BitVec.allOnes w) ∧
    (cls = .unsigned → (lhs.msb = false ∧ rhs.msb = false) ∨ lhs = rhs ∨
      (lhs.msb = false ∧ rhs.msb = true ∧ lhs.toNat < (-rhs).toNat) ∨
      (lhs.msb = true ∧ rhs.msb = false ∧ rhs.toNat ∣ lhs.toNat ∧ rhs.toNat ∣ (-lhs).toNat))

section Cases

variable {a b : BitVec w}

theorem toNat_neg_of_pos (hb : 0 < b.toNat) : (-b).toNat = 2 ^ w - b.toNat :=
  BitVec.toNat_neg_of_pos (by rwa [BitVec.lt_def])

/-- A number of which at least half of the range is above is no quotient of another. -/
theorem quotient_signed_iff (hw : 0 < w) (hb : b ≠ 0#w) :
    a / b = a.sdiv b ↔ (a.msb = false ∧ b.msb = false) ∨ b = 1 ∨ a = b ∨
      (a.msb = false ∧ b.msb = true ∧ a.toNat < (-b).toNat) := by
  have hb0 : 0 < b.toNat := Nat.pos_of_ne_zero fun h => hb (BitVec.eq_of_toNat_eq h)
  have hneg := toNat_neg_of_pos hb0
  have hab : a = b ↔ a.toNat = b.toNat := BitVec.toNat_eq
  have hb1 : b = 1 ↔ b.toNat = 1 := by
    rw [BitVec.toNat_eq]
    simp [Nat.one_mod_two_pow hw]
  have hA := a.isLt
  have hB := b.isLt
  rw [BitVec.sdiv_eq]
  cases ha : a.msb with
  | false =>
    have hmsb := BitVec.msb_eq_false_iff_two_mul_lt.1 ha
    cases hbm : b.msb with
    | false => exact iff_of_true rfl (.inl ⟨rfl, rfl⟩)
    | true =>
      have hmsb' := BitVec.msb_eq_true_iff_two_mul_ge.1 hbm
      have hzero : a / b = 0#w := BitVec.eq_of_toNat_eq (by
        rw [BitVec.toNat_udiv, Nat.div_eq_of_lt (by omega)]
        rfl)
      have hcond : a / b = -(a.udiv (-b)) ↔ a.toNat < (-b).toNat := by
        rw [hzero, eq_comm, BitVec.neg_eq_zero_iff, BitVec.toNat_eq]
        change a.toNat / (-b).toNat = 0 ↔ _
        rw [Nat.div_eq_zero_iff]
        omega
      simp only [hcond, hab, hb1, reduceCtorEq, and_false, false_or, true_and]
      omega
  | true =>
    have hmsb := BitVec.msb_eq_true_iff_two_mul_ge.1 ha
    have hnega := toNat_neg_of_pos (b := a) (by have := Nat.two_pow_pos w; omega)
    cases hbm : b.msb with
    | false =>
      have hmsb' := BitVec.msb_eq_false_iff_two_mul_lt.1 hbm
      have hcond : a / b = -((-a).udiv b) ↔ b.toNat = 1 := by
        rw [BitVec.toNat_eq, BitVec.toNat_udiv, BitVec.toNat_neg]
        change a.toNat / b.toNat = (2 ^ w - (-a).toNat / b.toNat) % 2 ^ w ↔ _
        rw [hnega]
        constructor
        · intro h
          by_contra hne
          have hhalf : ∀ n, n / b.toNat ≤ n / 2 := fun n =>
            Nat.div_le_div_left (by omega) (by decide)
          have hquot := hhalf a.toNat
          have hquot' := hhalf (2 ^ w - a.toNat)
          rcases Nat.eq_zero_or_pos ((2 ^ w - a.toNat) / b.toNat) with h0 | hpos
          · rw [h0, Nat.sub_zero, Nat.mod_self, Nat.div_eq_zero_iff] at h
            omega
          · rw [Nat.mod_eq_of_lt (by omega)] at h
            omega
        · intro h
          rw [h, Nat.div_one, Nat.div_one, Nat.mod_eq_of_lt (by omega)]
          omega
      simp only [hcond, hab, hb1, reduceCtorEq, false_and, false_or, or_false]
      omega
    | true =>
      have hmsb' := BitVec.msb_eq_true_iff_two_mul_ge.1 hbm
      have hcond : a / b = (-a).udiv (-b) ↔ a.toNat = b.toNat := by
        rw [BitVec.toNat_eq, BitVec.toNat_udiv]
        change a.toNat / b.toNat = (-a).toNat / (-b).toNat ↔ _
        rw [hnega, hneg]
        -- The larger of two negative numbers is the smaller one without its sign.
        rcases Nat.lt_trichotomy a.toNat b.toNat with hlt | heq | hgt
        · rw [Nat.div_eq_of_lt hlt]
          have hpos := Nat.div_pos (show 2 ^ w - b.toNat ≤ 2 ^ w - a.toNat by omega) (by omega)
          omega
        · rw [heq, Nat.div_self hb0, Nat.div_self (by omega)]
          exact iff_of_true rfl rfl
        · rw [Nat.div_eq_of_lt (show 2 ^ w - a.toNat < 2 ^ w - b.toNat by omega)]
          have hpos := Nat.div_pos hgt.le hb0
          omega
      simp only [hcond, hab, hb1, reduceCtorEq, false_and, false_or, or_false]
      omega

theorem mod_eq_self_iff {m n : ℕ} (hn : 0 < n) : m % n = m ↔ m < n :=
  ⟨fun h => h ▸ Nat.mod_lt m hn, Nat.mod_eq_of_lt⟩

theorem remainder_unsigned_iff (hb : b ≠ 0#w) :
    a.srem b = a % b ↔ (a.msb = false ∧ b.msb = false) ∨ a = b ∨
      (a.msb = false ∧ b.msb = true ∧ a.toNat < (-b).toNat) ∨
      (a.msb = true ∧ b.msb = false ∧ b.toNat ∣ a.toNat ∧ b.toNat ∣ (-a).toNat) := by
  have hb0 : 0 < b.toNat := Nat.pos_of_ne_zero fun h => hb (BitVec.eq_of_toNat_eq h)
  have hneg := toNat_neg_of_pos hb0
  have hab : a = b ↔ a.toNat = b.toNat := BitVec.toNat_eq
  have hA := a.isLt
  have hB := b.isLt
  rw [BitVec.srem_eq]
  cases ha : a.msb with
  | false =>
    have hmsb := BitVec.msb_eq_false_iff_two_mul_lt.1 ha
    cases hbm : b.msb with
    | false => exact iff_of_true rfl (.inl ⟨rfl, rfl⟩)
    | true =>
      have hmsb' := BitVec.msb_eq_true_iff_two_mul_ge.1 hbm
      have hcond : a % (-b) = a % b ↔ a.toNat < (-b).toNat := by
        rw [BitVec.toNat_eq, BitVec.toNat_umod, BitVec.toNat_umod,
          Nat.mod_eq_of_lt (show a.toNat < b.toNat by omega), mod_eq_self_iff (by omega)]
      simp only [hcond, hab, reduceCtorEq, and_false, false_and, false_or, or_false, true_and]
      omega
  | true =>
    have hmsb := BitVec.msb_eq_true_iff_two_mul_ge.1 ha
    have hnega := toNat_neg_of_pos (b := a) (by have := Nat.two_pow_pos w; omega)
    cases hbm : b.msb with
    | false =>
      have hmsb' := BitVec.msb_eq_false_iff_two_mul_lt.1 hbm
      have hcond : -((-a) % b) = a % b ↔ b.toNat ∣ a.toNat ∧ b.toNat ∣ (-a).toNat := by
        rw [BitVec.toNat_eq, BitVec.toNat_neg, BitVec.toNat_umod, BitVec.toNat_umod,
          Nat.dvd_iff_mod_eq_zero, Nat.dvd_iff_mod_eq_zero]
        have hrem := Nat.mod_lt a.toNat hb0
        have hrem' := Nat.mod_lt (-a).toNat hb0
        rcases Nat.eq_zero_or_pos ((-a).toNat % b.toNat) with h0 | hpos
        · rw [h0, Nat.sub_zero, Nat.mod_self]
          omega
        · rw [Nat.mod_eq_of_lt (by omega)]
          omega
      simp only [hcond, hab, reduceCtorEq, false_and, false_or, true_and]
      omega
    | true =>
      have hmsb' := BitVec.msb_eq_true_iff_two_mul_ge.1 hbm
      have hcond : -((-a) % (-b)) = a % b ↔ a.toNat = b.toNat := by
        rw [BitVec.toNat_eq, BitVec.toNat_neg, BitVec.toNat_umod, BitVec.toNat_umod, hnega, hneg]
        rcases Nat.lt_trichotomy a.toNat b.toNat with hlt | heq | hgt
        · rw [Nat.mod_eq_of_lt hlt]
          have hrem := Nat.mod_lt (2 ^ w - a.toNat) (show 0 < 2 ^ w - b.toNat by omega)
          rcases Nat.eq_zero_or_pos ((2 ^ w - a.toNat) % (2 ^ w - b.toNat)) with h0 | hpos
          · rw [h0, Nat.sub_zero, Nat.mod_self]
            omega
          · rw [Nat.mod_eq_of_lt (show 2 ^ w - _ < 2 ^ w by omega)]
            omega
        · rw [heq, Nat.mod_self, Nat.mod_self, Nat.sub_zero, Nat.mod_self]
          exact iff_of_true rfl rfl
        · rw [Nat.mod_eq_of_lt (show 2 ^ w - a.toNat < 2 ^ w - b.toNat by omega),
            Nat.mod_eq_of_lt (show 2 ^ w - (2 ^ w - a.toNat) < 2 ^ w by omega),
            Nat.mod_eq_sub_mod hgt.le, Nat.mod_eq_of_lt (by omega)]
          omega
      simp only [hcond, hab, reduceCtorEq, false_and, and_false, false_or, or_false]

/-- Numbers compare the same way with and without their signs exactly if they have the same sign. -/
theorem slt_eq_ult_iff : b.slt a = b.ult a ↔ a.msb = b.msb := by
  by_cases hmsb : b.msb = a.msb
  · exact iff_of_true (BitVec.slt_eq_ult_of_msb_eq hmsb) hmsb.symm
  · rw [BitVec.slt_eq_not_ult_of_msb_neq hmsb]
    exact iff_of_false (Bool.not_ne_self _) fun h => hmsb h.symm

theorem toInt_eq_toNat_iff : a.toInt = a.toNat ↔ a.msb = false := by
  constructor
  · intro h
    by_contra hmsb
    have hneg := BitVec.toInt_neg_of_msb_true (Bool.eq_true_of_not_eq_false hmsb)
    omega
  · exact BitVec.toInt_eq_toNat_of_msb

end Cases

theorem udiv_mul_add_umod (a b : BitVec w) : a / b * b + a % b = a := by
  refine BitVec.eq_of_toNat_eq ?_
  rw [BitVec.toNat_add, BitVec.toNat_mul, Nat.mod_add_mod, BitVec.toNat_udiv, BitVec.toNat_umod,
    Nat.div_add_mod', Nat.mod_eq_of_lt a.isLt]

/-- Quotient and remainder of one class give the dividend back. -/
theorem quotient_mul_add_remainder (cls : Riscv.Class) (a b : BitVec w) :
    quotient cls a b * b + remainder cls a b = a := by
  cases cls with
  | unsigned => exact udiv_mul_add_umod a b
  | signed =>
    have hneg : ∀ x y : BitVec w, -(x / y) * y + -(x % y) = -x := by
      intro x y
      rw [BitVec.neg_mul, ← BitVec.sub_eq_add_neg, ← BitVec.neg_add, udiv_mul_add_umod]
    have hswap : ∀ x y : BitVec w, x / -y * y = -(x / -y) * -y := by
      intro x y
      rw [BitVec.neg_mul_neg]
    rw [quotient, remainder, BitVec.sdiv_eq, BitVec.srem_eq]
    cases a.msb <;> cases b.msb
    · exact udiv_mul_add_umod a b
    · change -(a / -b) * b + a % -b = a
      rw [BitVec.neg_mul_comm, udiv_mul_add_umod]
    · change -(-a / b) * b + -(-a % b) = a
      rw [hneg, BitVec.neg_neg]
    · change -a / -b * b + -(-a % -b) = a
      rw [hswap, hneg, BitVec.neg_neg]

/-- The operations of the type of the IR are done exactly if the operands of a signed division and
of an unsigned remainder are as they have to be, those of an unsigned comparison have one sign, and
an unsigned number that is converted is not large. -/
theorem signedness_right_iff {getSignBit : ℕ → BitVec 64} (hsign : ∀ n, 0 < n → getSignBit n ≠ 0)
    (hw : 0 < w) (cls : Riscv.Class) (lhs : BitVec w) {rhs : BitVec w} (hrhs : rhs ≠ 0#w) :
    (materialiseDiv lhs rhs = some (quotient cls lhs rhs) ↔ divFits cls lhs rhs) ∧
      (materialiseMod getSignBit lhs rhs = some (remainder cls lhs rhs) ↔ modFits cls lhs rhs) ∧
      (materialiseCmpgt getSignBit lhs rhs = greater cls lhs rhs ↔
        (cls = .unsigned → lhs.msb = rhs.msb)) ∧
      (materialiseConvert getSignBit lhs = cls.toInt lhs ↔
        (cls = .unsigned → lhs.msb = false)) := by
  have hbit := hsign w hw
  refine ⟨?_, ?_, ?_, ?_⟩
  · rw [materialiseDiv, udiv, if_neg hrhs, Option.some.injEq, divFits]
    cases cls with
    | signed => exact (quotient_signed_iff hw hrhs).trans (imp_iff_right rfl).symm
    | unsigned => exact iff_of_true rfl nofun
  · rw [materialiseMod, if_pos ⟨hbit, hbit⟩, srem, modFits]
    by_cases hmin : lhs = BitVec.intMin w ∧ rhs = BitVec.allOnes w
    · rw [if_pos (.inr hmin)]
      exact iff_of_false nofun fun h => h.1 hmin
    · rw [if_neg (not_or.2 ⟨hrhs, hmin⟩), Option.some.injEq, and_iff_right hmin]
      cases cls with
      | signed => exact iff_of_true rfl nofun
      | unsigned => exact (remainder_unsigned_iff hrhs).trans (imp_iff_right rfl).symm
  · rw [materialiseCmpgt, if_pos hbit, icmp]
    cases cls with
    | signed => exact iff_of_true BitVec.slt_eq_decide nofun
    | unsigned =>
      have hgreater : greater .unsigned lhs rhs = rhs.ult lhs := by
        rw [greater, BitVec.ult]
        exact decide_eq_decide.2 Nat.cast_lt
      rw [hgreater]
      exact slt_eq_ult_iff.trans (imp_iff_right rfl).symm
  · rw [materialiseConvert, if_pos hbit, sitofp]
    cases cls with
    | signed => exact iff_of_true rfl nofun
    | unsigned => exact toInt_eq_toNat_iff.trans (imp_iff_right rfl).symm

/-- The sign bit of a width up to 64. -/
def signBit (n : ℕ) : BitVec 64 :=
  BitVec.twoPow 64 ((n - 1) % 64)

/-- Unsigned operands of which one has its top bit set, and its remainder by the other is zero both
ways. -/
theorem signedness_right_sixteen :
    materialiseDiv 0xF0#8 16#8 = some (quotient .unsigned 0xF0 16) ∧
      materialiseMod signBit 0xF0#8 16#8 = some (remainder .unsigned 0xF0 16) := by
  have hsign : ∀ n, 0 < n → signBit n ≠ 0 := by
    intro n _ h
    have hbit := congrArg (BitVec.getLsbD · ((n - 1) % 64)) h
    have hlt := Nat.mod_lt (n - 1) (show 0 < 64 by decide)
    simp [signBit, hlt] at hbit
  have h := @signedness_right_iff 8 signBit hsign (by decide) .unsigned 0xF0 16 (by decide)
  refine ⟨h.1.2 nofun, h.2.1.2 ⟨by decide, fun _ => ?_⟩⟩
  refine .inr (.inr (.inr ⟨by decide, by decide, ?_, ?_⟩))
  · exact ⟨15, by decide⟩
  · exact ⟨1, by decide⟩

/-- `-128` divided by `2`. -/
theorem not_signedness_right : materialiseDiv 0x80#8 2#8 ≠ some (quotient .signed 0x80 2) := by
  decide

end Arancini.Llvm
