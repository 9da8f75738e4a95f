import Arancini.Riscv.Typed

/-!
# Addition and subtraction on RISC-V

`materialiseBinaryArith` lowers an addition or a subtraction of the IR, with the flags that
are used. The code of the flags compares the result with the operands in 64 bits, which is
the comparison of the IR as long as each register holds a signed number of the width. A
constant need not be one : the number in its node may be an unsigned number of the width, and
is then larger than the signed ones (`Operand.range`). `materialiseBinaryArith_right_iff` says
which flags are right then.
-/

namespace Arancini.Riscv

/-! ## The lowering -/

/-- The flags that are used. The others get `none_reg`. -/
structure Wanted where
  zf : Bool
  of : Bool
  cf : Bool
  sf : Bool

def Wanted.any (want : Wanted) : Bool :=
  want.zf || want.of || want.cf || want.sf

/-- The registers of the flags. -/
structure Flags where
  zf : Option (BitVec 64)
  of : Option (BitVec 64)
  cf : Option (BitVec 64)
  sf : Option (BitVec 64)

def Flags.none : Flags :=
  ⟨.none, .none, .none, .none⟩

/-- The operations of `binary_arith` that are lowered here. -/
inductive AddSub
  | add
  | sub
  deriving DecidableEq

/-- `add` of a scalar of width `w`. -/
def add (w : ℕ) (lhs rhs : TypedRegister) : Except String TypedRegister :=
  match w with
  | 8 | 16 | 64 => .ok { TypedRegister.fresh w with val := lhs.val + rhs.val }
  | 32 => .ok ((TypedRegister.fresh 32).widen (addw lhs.val rhs.val))
  | _ => .error "not implemented"

/-- `addi`. -/
def addi (w : ℕ) (lhs : TypedRegister) (imm : BitVec 64) : Except String TypedRegister :=
  match w with
  | 8 | 16 | 64 => .ok { TypedRegister.fresh w with val := lhs.val + imm }
  | 32 => .ok ((TypedRegister.fresh 32).widen (addw lhs.val imm))
  | _ => .error "not implemented"

/-- `sub` of a scalar of width `w`. -/
def sub (w : ℕ) (lhs rhs : TypedRegister) : Except String TypedRegister :=
  match w with
  | 8 | 16 | 64 => .ok { TypedRegister.fresh w with val := lhs.val - rhs.val }
  | 32 => .ok ((TypedRegister.fresh 32).widen (subw lhs.val rhs.val))
  | _ => .error "not implemented"

/-- `zero_sign_flag`. -/
def zeroSignFlag (out : TypedRegister) (zf sf : Bool) (f : Flags) :
    Except String (TypedRegister × Flags) :=
  if zf || sf then do
    let out ← extendTo64 out
    return (out, { f with
      zf := if zf then some (seqz out.val) else f.zf
      sf := if sf then some (sltz out.val) else f.sf })
  else return (out, f)

/-- `add_flags`. -/
def addFlags (out lhs rhs : TypedRegister) (want : Wanted) :
    Except String (TypedRegister × Flags) :=
  if want.any then do
    let out ← extendTo64 out
    let (rhs, of) ← if want.of then do
        let lhs ← extendTo64 lhs
        let rhs ← extendTo64 rhs
        pure (rhs, some (slt out.val rhs.val ^^^ sltz lhs.val))
      else pure (rhs, none)
    let cf ← if want.cf then do
        let rhs ← extendTo64 rhs
        pure (some (sltu out.val rhs.val))
      else pure none
    zeroSignFlag out want.zf want.sf ⟨none, of, cf, none⟩
  else return (out, .none)

/-- `addi_flags`. -/
def addiFlags (out lhs : TypedRegister) (imm : BitVec 64) (want : Wanted) :
    Except String (TypedRegister × Flags) :=
  if want.any then do
    let out ← extendTo64 out
    let (lhs, of) ← if want.of then do
        let lhs ← extendTo64 lhs
        let of := slt out.val lhs.val
        pure (lhs, some (if imm.toInt < 0 then of ^^^ 1 else of))
      else pure (lhs, none)
    let cf ← if want.cf then do
        let lhs ← extendTo64 lhs
        pure (some (sltu out.val lhs.val))
      else pure none
    zeroSignFlag out want.zf want.sf ⟨none, of, cf, none⟩
  else return (out, .none)

/-- `sub_flags`. -/
def subFlags (out lhs rhs : TypedRegister) (want : Wanted) :
    Except String (TypedRegister × Flags) :=
  if want.any then do
    let out ← extendTo64 out
    let (lhs, of) ← if want.of then do
        let lhs ← extendTo64 lhs
        let rhs ← extendTo64 rhs
        pure (lhs, some (slt out.val lhs.val ^^^ sgtz rhs.val))
      else pure (lhs, none)
    let cf ← if want.cf then do
        let lhs ← extendTo64 lhs
        pure (some (sltu lhs.val out.val))
      else pure none
    zeroSignFlag out want.zf want.sf ⟨none, of, cf, none⟩
  else return (out, .none)

/-- `subi_flags`. -/
def subiFlags (out lhs : TypedRegister) (imm : BitVec 64) (want : Wanted) :
    Except String (TypedRegister × Flags) :=
  if want.any then do
    let out ← extendTo64 out
    let (lhs, of) ← if want.of then do
        let lhs ← extendTo64 lhs
        let of := slt out.val lhs.val
        pure (lhs, some (if 0 < imm.toInt then of ^^^ 1 else of))
      else pure (lhs, none)
    let cf ← if want.cf then do
        let lhs ← extendTo64 lhs
        pure (some (sltu lhs.val out.val))
      else pure none
    zeroSignFlag out want.zf want.sf ⟨none, of, cf, none⟩
  else return (out, .none)

/-- The right operand goes into the instruction. -/
def immediate (op : AddSub) : Operand → Bool
  | .reg _ => false
  | .const imm => imm != 0 && isITypeImm imm.toInt && !(op == .sub && imm.toInt == -2048)

/-- The standard path of `materialise_binary_arith`. -/
def standardPath (op : AddSub) (w : ℕ) (lhs rhs : TypedRegister) (want : Wanted) :
    Except String (TypedRegister × Flags) :=
  match op with
  | .add => do
    let out ← add w lhs rhs
    addFlags out lhs rhs want
  | .sub => do
    let out ← sub w lhs rhs
    subFlags out lhs rhs want

/-- The path of `materialise_binary_arith` with an immediate. -/
def immediatePath (op : AddSub) (w : ℕ) (lhs : TypedRegister) (imm : BitVec 64) (want : Wanted) :
    Except String (TypedRegister × Flags) :=
  match op with
  | .add => do
    let out ← addi w lhs imm
    addiFlags out lhs imm want
  | .sub => do
    let out ← addi w lhs (-imm)
    subiFlags out lhs imm want

/-- What `get_as_int` folds two numbers to. -/
def fold : AddSub → BitVec 64 → BitVec 64 → BitVec 64
  | .add, x, y => x + y
  | .sub, x, y => x - y

/-- `materialise` of an addition or a subtraction : `get_as_int` folds one of two constants
of which no flag is used, and `materialise_binary_arith` lowers the others. -/
def materialiseBinaryArith (op : AddSub) (w : ℕ) (lhs rhs : Operand) (want : Wanted) :
    Except String (TypedRegister × Flags) :=
  match lhs, rhs with
  | .const x, .const y =>
    if want.any then
      if immediate op rhs then immediatePath op w lhs.materialise y want
      else standardPath op w lhs.materialise rhs.materialise want
    else .ok ((Operand.const (fold op x y)).materialise, .none)
  | _, .const y =>
    if immediate op rhs then immediatePath op w lhs.materialise y want
    else standardPath op w lhs.materialise rhs.materialise want
  | _, .reg _ => standardPath op w lhs.materialise rhs.materialise want

/-! ## What the code of the flags computes -/

/-- The flags that are used of four. -/
def Wanted.pick (want : Wanted) (zf of cf sf : BitVec 64) : Flags :=
  ⟨if want.zf then some zf else none, if want.of then some of else none,
    if want.cf then some cf else none, if want.sf then some sf else none⟩

theorem extendTo64_ok {r : TypedRegister} (hr : r.width ∈ widths) :
    ∃ r', extendTo64 r = .ok r' ∧ r'.width = 64 ∧ r'.val = r.full ∧ extendTo64 r' = .ok r' := by
  obtain ⟨r', hr', hwidth, hval⟩ := extendTo64_eq hr
  exact ⟨r', hr', hwidth, hval, extendTo64_of_width hwidth⟩

theorem zeroSignFlag_eq {out : TypedRegister} (hext : extendTo64 out = .ok out) (zf sf : Bool)
    (of cf : Option (BitVec 64)) :
    zeroSignFlag out zf sf ⟨none, of, cf, none⟩ =
      .ok (out, ⟨if zf then some (seqz out.val) else none, of, cf,
        if sf then some (sltz out.val) else none⟩) := by
  unfold zeroSignFlag
  rw [hext]
  cases zf <;> cases sf <;> rfl

/-- Without a flag that is used, the code of the flags is empty. -/
theorem Wanted.pick_of_not_any {want : Wanted} (h : want.any = false) (zf of cf sf : BitVec 64) :
    want.pick zf of cf sf = .none := by
  obtain ⟨z, o, c, s⟩ := want
  simp only [Wanted.any, Bool.or_eq_false_iff] at h
  obtain ⟨⟨⟨rfl, rfl⟩, rfl⟩, rfl⟩ := h
  rfl

/-- The flag is inverted under a condition of the translation. -/
theorem xor_bit (p : Prop) [Decidable p] (x : BitVec 64) :
    x ^^^ bit p = if p then x ^^^ 1 else x := by
  by_cases hp : p <;> simp [hp, bit]

section Flags

variable {out lhs rhs : TypedRegister} (hout : out.width ∈ widths) (hlhs : lhs.width ∈ widths)
  (hrhs : rhs.width ∈ widths) (imm : BitVec 64) (want : Wanted)

include hout hlhs hrhs in
theorem addFlags_eq : ∃ out', addFlags out lhs rhs want = .ok (out',
      want.pick (seqz out.full) (slt out.full rhs.full ^^^ sltz lhs.full)
        (sltu out.full rhs.full) (sltz out.full)) ∧ out.Extends out' := by
  obtain ⟨o, ho, howidth, hoval, hoo⟩ := extendTo64_ok hout
  obtain ⟨l, hl, -, hlval, hll⟩ := extendTo64_ok hlhs
  obtain ⟨r, hr, -, hrval, hrr⟩ := extendTo64_ok hrhs
  rw [← hoval, ← hlval, ← hrval]
  cases hany : want.any with
  | true =>
    refine ⟨o, ?_, .inr ⟨howidth, hoval⟩⟩
    obtain ⟨zf, of, cf, sf⟩ := want
    cases of <;> cases cf <;>
      simp [addFlags, hany, ho, hl, hr, hrr, zeroSignFlag_eq hoo, Wanted.pick, pure, Except.pure]
  | false => exact ⟨out, by rw [Wanted.pick_of_not_any hany]; simp [addFlags, hany], .inl rfl⟩

include hout hlhs in
theorem addiFlags_eq : ∃ out', addiFlags out lhs imm want = .ok (out',
      want.pick (seqz out.full)
        (slt out.full lhs.full ^^^ bit (imm.toInt < 0))
        (sltu out.full lhs.full) (sltz out.full)) ∧ out.Extends out' := by
  obtain ⟨o, ho, howidth, hoval, hoo⟩ := extendTo64_ok hout
  obtain ⟨l, hl, -, hlval, hll⟩ := extendTo64_ok hlhs
  rw [← hoval, ← hlval]
  cases hany : want.any with
  | true =>
    refine ⟨o, ?_, .inr ⟨howidth, hoval⟩⟩
    obtain ⟨zf, of, cf, sf⟩ := want
    cases of <;> cases cf <;>
      simp [addiFlags, hany, ho, hl, hll, zeroSignFlag_eq hoo, Wanted.pick, pure, Except.pure,
        xor_bit]
  | false => exact ⟨out, by rw [Wanted.pick_of_not_any hany]; simp [addiFlags, hany], .inl rfl⟩

include hout hlhs hrhs in
theorem subFlags_eq : ∃ out', subFlags out lhs rhs want = .ok (out',
      want.pick (seqz out.full) (slt out.full lhs.full ^^^ sgtz rhs.full)
        (sltu lhs.full out.full) (sltz out.full)) ∧ out.Extends out' := by
  obtain ⟨o, ho, howidth, hoval, hoo⟩ := extendTo64_ok hout
  obtain ⟨l, hl, -, hlval, hll⟩ := extendTo64_ok hlhs
  obtain ⟨r, hr, -, hrval, hrr⟩ := extendTo64_ok hrhs
  rw [← hoval, ← hlval, ← hrval]
  cases hany : want.any with
  | true =>
    refine ⟨o, ?_, .inr ⟨howidth, hoval⟩⟩
    obtain ⟨zf, of, cf, sf⟩ := want
    cases of <;> cases cf <;>
      simp [subFlags, hany, ho, hl, hr, hll, zeroSignFlag_eq hoo, Wanted.pick, pure, Except.pure]
  | false => exact ⟨out, by rw [Wanted.pick_of_not_any hany]; simp [subFlags, hany], .inl rfl⟩

include hout hlhs in
theorem subiFlags_eq : ∃ out', subiFlags out lhs imm want = .ok (out',
      want.pick (seqz out.full)
        (slt out.full lhs.full ^^^ bit (0 < imm.toInt))
        (sltu lhs.full out.full) (sltz out.full)) ∧ out.Extends out' := by
  obtain ⟨o, ho, howidth, hoval, hoo⟩ := extendTo64_ok hout
  obtain ⟨l, hl, -, hlval, hll⟩ := extendTo64_ok hlhs
  rw [← hoval, ← hlval]
  cases hany : want.any with
  | true =>
    refine ⟨o, ?_, .inr ⟨howidth, hoval⟩⟩
    obtain ⟨zf, of, cf, sf⟩ := want
    cases of <;> cases cf <;>
      simp [subiFlags, hany, ho, hl, hll, zeroSignFlag_eq hoo, Wanted.pick, pure, Except.pure,
        xor_bit]
  | false => exact ⟨out, by rw [Wanted.pick_of_not_any hany]; simp [subiFlags, hany], .inl rfl⟩

end Flags

/-! ## The operation itself -/

/-- An instruction that computes `x` in 64 bits, or its low half extended. -/
theorem carries_of_low {w : ℕ} (hw : w ∈ widths) {x : BitVec 64} {v : BitVec w}
    (hx : x.setWidth w = v) :
    ∃ out, (match w with
      | 8 | 16 | 64 => .ok { TypedRegister.fresh w with val := x }
      | 32 => .ok ((TypedRegister.fresh 32).widen (sext 32 x))
      | _ => .error "not implemented" : Except String TypedRegister) = .ok out ∧ out.Carries v := by
  have hcases := hw
  simp only [widths, List.mem_cons, List.not_mem_nil, or_false] at hcases
  rcases hcases with rfl | rfl | rfl | rfl
  · exact ⟨_, rfl, carries_of_setWidth hw rfl hx⟩
  · exact ⟨_, rfl, carries_of_setWidth hw rfl hx⟩
  · exact ⟨_, rfl, carries_of_eq_signExtend (by decide) rfl (congrArg (BitVec.signExtend 64) hx)⟩
  · exact ⟨_, rfl, carries_of_setWidth hw rfl hx⟩

section Operation

variable {w : ℕ} (hw : w ∈ widths) {lhs rhs : TypedRegister} {a b : BitVec w}
  (ha : lhs.val.setWidth w = a)

include hw ha in
theorem add_carries (hb : rhs.val.setWidth w = b) :
    ∃ out, add w lhs rhs = .ok out ∧ out.Carries (a + b) :=
  carries_of_low hw (by rw [BitVec.setWidth_add _ _ (le_of_mem_widths hw).2, ha, hb])

include hw ha in
theorem addi_carries {imm : BitVec 64} (hb : imm.setWidth w = b) :
    ∃ out, addi w lhs imm = .ok out ∧ out.Carries (a + b) :=
  carries_of_low hw (by rw [BitVec.setWidth_add _ _ (le_of_mem_widths hw).2, ha, hb])

include hw ha in
theorem sub_carries (hb : rhs.val.setWidth w = b) :
    ∃ out, sub w lhs rhs = .ok out ∧ out.Carries (a - b) :=
  carries_of_low hw (by rw [setWidth_sub (le_of_mem_widths hw).2, ha, hb])

include hw ha in
theorem addi_neg_carries {imm : BitVec 64} (hb : imm.setWidth w = b) :
    ∃ out, addi w lhs (-imm) = .ok out ∧ out.Carries (a - b) :=
  carries_of_low hw (by
    rw [← BitVec.sub_eq_add_neg, setWidth_sub (le_of_mem_widths hw).2, ha, hb])

end Operation

/-! ## The flags -/

/-- The value of the operation. -/
def AddSub.value {w : ℕ} : AddSub → BitVec w → BitVec w → BitVec w
  | add, a, b => a + b
  | sub, a, b => a - b

/-- The reference flags of the operation. -/
def AddSub.overflow {w : ℕ} : AddSub → BitVec w → BitVec w → Bool
  | add, a, b => a.saddOverflow b
  | sub, a, b => a.ssubOverflow b

def AddSub.carry {w : ℕ} : AddSub → BitVec w → BitVec w → Bool
  | add, a, b => a.uaddOverflow b
  | sub, a, b => a.usubOverflow b

/-- A comparison of an operand that may be out of range is misread. `below` says whether the
value is below the number of the width that it is compared with. -/
def misread (range : Ordering) (below : Bool) : Bool :=
  match range with
  | .lt => !below
  | .eq => false
  | .gt => below

/-- The overflow flag is right. If both operands are in range, it is. -/
def overflowRight {w : ℕ} (op : AddSub) (lhs rhs : Operand) (a b : BitVec w) : Bool :=
  match op, immediate op rhs with
  | .add, false =>
    misread (rhs.range w) ((0 ≤ a.toInt && a.toInt + b.toInt < 2 ^ (w - 1)) ||
        a.toInt + b.toInt < -2 ^ (w - 1)) ==
      misread (lhs.range w) (a.toInt < 0)
  | .add, true =>
    misread (lhs.range w) ((0 ≤ b.toInt && a.toInt + b.toInt < 2 ^ (w - 1)) ||
        a.toInt + b.toInt < -2 ^ (w - 1)) ==
      misread (rhs.range w) (b.toInt < 0)
  | .sub, _ =>
    misread (lhs.range w) ((b.toInt ≤ 0 && a.toInt - b.toInt < 2 ^ (w - 1)) ||
        a.toInt - b.toInt < -2 ^ (w - 1)) ==
      misread (rhs.range w) (b.toInt ≤ 0)

/-- The carry flag is right. If both operands are in range, it is. -/
def carryRight {w : ℕ} (op : AddSub) (lhs rhs : Operand) (a b : BitVec w) : Bool :=
  match op, immediate op rhs with
  | .add, false => rhs.range w == .eq ||
    (2 ^ (w - 1) ≤ a.toNat + b.toNat && a.toNat + b.toNat < 2 ^ w + 2 ^ (w - 1))
  | .add, true => lhs.range w == .eq ||
    (2 ^ (w - 1) ≤ a.toNat + b.toNat && a.toNat + b.toNat < 2 ^ w + 2 ^ (w - 1))
  | .sub, _ => lhs.range w == .eq ||
    (b.toNat ≤ a.toNat + 2 ^ (w - 1) && a.toNat < b.toNat + 2 ^ (w - 1))

section Compare

variable {w : ℕ} (hw : w ∈ widths) {lhs rhs : Operand} {a b : BitVec w}

theorem slt_eq (x y : BitVec 64) : x.slt y = decide (x.toInt < y.toInt) :=
  rfl

theorem ult_eq (x y : BitVec 64) : x.ult y = decide ((x.toNat : ℤ) < y.toNat) := by
  rw [BitVec.ult]
  exact decide_eq_decide.2 Int.ofNat_lt.symm

theorem toInt_zero64 : (0 : BitVec 64).toInt = 0 := by
  decide

theorem decide_bne_decide (p q : Prop) [Decidable p] [Decidable q] :
    (decide p != decide q) = decide (¬(p ↔ q)) := by
  by_cases hp : p <;> by_cases hq : q <;> simp [hp, hq]

theorem saddOverflow_eq (a b : BitVec w) : a.saddOverflow b =
    decide (2 ^ (w - 1) ≤ a.toInt + b.toInt ∨ a.toInt + b.toInt < -2 ^ (w - 1)) := by
  simp [BitVec.saddOverflow]

theorem ssubOverflow_eq (a b : BitVec w) : a.ssubOverflow b =
    decide (2 ^ (w - 1) ≤ a.toInt - b.toInt ∨ a.toInt - b.toInt < -2 ^ (w - 1)) := by
  simp [BitVec.ssubOverflow]

theorem uaddOverflow_eq (a b : BitVec w) :
    a.uaddOverflow b = decide ((2 : ℤ) ^ w ≤ a.toNat + b.toNat) := by
  rw [BitVec.uaddOverflow]
  exact decide_eq_decide.2 (by exact_mod_cast Iff.rfl)

theorem uaddOverflow_comm (a b : BitVec w) : a.uaddOverflow b = b.uaddOverflow a := by
  rw [uaddOverflow_eq, uaddOverflow_eq, add_comm]

theorem saddOverflow_comm (a b : BitVec w) : a.saddOverflow b = b.saddOverflow a := by
  rw [saddOverflow_eq, saddOverflow_eq, add_comm]

theorem usubOverflow_eq (a b : BitVec w) :
    a.usubOverflow b = decide ((a.toNat : ℤ) < b.toNat) := by
  rw [BitVec.usubOverflow]
  exact decide_eq_decide.2 Int.ofNat_lt.symm

include hw in
/-- Comparing an operand with a number of the width. -/
theorem Operand.Content.decide_lt {o : Operand} {v : BitVec w} (h : o.Content v) {n : ℤ}
    (hl : -2 ^ (w - 1) ≤ n) (hr : n ≤ 2 ^ (w - 1)) :
    decide (o.materialise.full.toInt < n) =
      (decide (v.toInt < n) != misread (o.range w) (v.toInt < n)) := by
  have hlt := h.lt
  have heq := h.eq
  have hgt := h.gt
  cases hrange : o.range w with
  | lt =>
    have hbelow : o.materialise.full.toInt < n := by
      have := hlt hrange
      omega
    simp [misread, hbelow]
  | eq => simp [misread, heq hrange]
  | gt =>
    have habove : ¬ o.materialise.full.toInt < n := by
      have := hgt hrange
      omega
    simp [misread, habove]

theorem not_bne (x y : Bool) : (!(x != y)) = ((!x) != y) := by
  revert x y
  decide

/-- Two comparisons, each of which may be misread. -/
theorem bne_misread_iff {p q m n : Bool} {flag : Bool} (h : (p != q) = flag) :
    ((p != m) != (q != n)) = flag ↔ m = n := by
  subst h
  revert p q m n
  decide

theorem not_lt_succ (x y : ℤ) : decide (x < y) = !decide (y < x + 1) := by
  rw [← decide_not]
  exact decide_eq_decide.2 (by omega)

include hw in
theorem addOverflow_iff (hlhs : lhs.Content a) (hrhs : rhs.Content b) {o : BitVec 64}
    (ho : o = (a + b).signExtend 64) :
    ((o.slt rhs.materialise.full != lhs.materialise.full.slt 0) = a.saddOverflow b) ↔
      misread (rhs.range w) ((0 ≤ a.toInt && a.toInt + b.toInt < 2 ^ (w - 1)) ||
          a.toInt + b.toInt < -2 ^ (w - 1)) =
        misread (lhs.range w) (a.toInt < 0) := by
  obtain ⟨hpos, hle⟩ := le_of_mem_widths hw
  have hsum := toInt_add_cases hpos a b
  have hS := (a + b).le_toInt
  have hS' := (a + b).toInt_lt
  have ha := a.le_toInt
  have hb := b.le_toInt
  have ha' := a.toInt_lt
  have hb' := b.toInt_lt
  rw [slt_eq, slt_eq, ho, toInt_signExtend hle, toInt_zero64, not_lt_succ,
    hrhs.decide_lt hw (by omega) (by omega), hlhs.decide_lt hw (by omega) (by omega)]
  generalize (a + b).toInt = S at *
  have hbelow : decide (b.toInt < S + 1) = ((0 ≤ a.toInt && a.toInt + b.toInt < 2 ^ (w - 1)) ||
      a.toInt + b.toInt < -2 ^ (w - 1)) := by
    simp only [← Bool.decide_and, ← Bool.decide_or]
    exact decide_eq_decide.2 (by omega)
  have hflag : ((!decide (b.toInt < S + 1)) != decide (a.toInt < 0)) = a.saddOverflow b := by
    rw [← decide_not, decide_bne_decide, saddOverflow_eq]
    exact decide_eq_decide.2 (by omega)
  rw [← hbelow, not_bne, bne_misread_iff hflag]

include hw in
theorem addiOverflow_iff {imm : BitVec 64} (hlhs : lhs.Content a)
    (hrhs : (Operand.const imm).Content b) {o : BitVec 64} (ho : o = (a + b).signExtend 64) :
    ((o.slt lhs.materialise.full != decide (imm.toInt < 0)) = a.saddOverflow b) ↔
      misread (lhs.range w) ((0 ≤ b.toInt && a.toInt + b.toInt < 2 ^ (w - 1)) ||
          a.toInt + b.toInt < -2 ^ (w - 1)) =
        misread ((Operand.const imm).range w) (b.toInt < 0) := by
  have h := addOverflow_iff hw hrhs hlhs (ho.trans (by rw [BitVec.add_comm]))
  rw [Operand.full_const, slt_eq imm, toInt_zero64] at h
  rw [saddOverflow_comm, h, add_comm b.toInt]

include hw in
theorem subOverflow_iff (hlhs : lhs.Content a) (hrhs : rhs.Content b) {o : BitVec 64}
    (ho : o = (a - b).signExtend 64) :
    ((o.slt lhs.materialise.full != decide (0 < rhs.materialise.full.toInt)) = a.ssubOverflow b) ↔
      misread (lhs.range w) ((b.toInt ≤ 0 && a.toInt - b.toInt < 2 ^ (w - 1)) ||
          a.toInt - b.toInt < -2 ^ (w - 1)) =
        misread (rhs.range w) (b.toInt ≤ 0) := by
  obtain ⟨hpos, hle⟩ := le_of_mem_widths hw
  have hdiff := toInt_sub_cases hpos a b
  have hS := (a - b).le_toInt
  have hS' := (a - b).toInt_lt
  have ha := a.le_toInt
  have hb := b.le_toInt
  have ha' := a.toInt_lt
  have hb' := b.toInt_lt
  rw [slt_eq, ho, toInt_signExtend hle, not_lt_succ, not_lt_succ 0,
    hlhs.decide_lt hw (by omega) (by omega), hrhs.decide_lt hw (by omega) (by omega)]
  generalize (a - b).toInt = S at *
  have hbelow : decide (a.toInt < S + 1) = ((b.toInt ≤ 0 && a.toInt - b.toInt < 2 ^ (w - 1)) ||
      a.toInt - b.toInt < -2 ^ (w - 1)) := by
    simp only [← Bool.decide_and, ← Bool.decide_or]
    exact decide_eq_decide.2 (by omega)
  have hflag : ((!decide (a.toInt < S + 1)) != (!decide (b.toInt < 0 + 1))) = a.ssubOverflow b := by
    rw [← decide_not, ← decide_not, decide_bne_decide, ssubOverflow_eq]
    exact decide_eq_decide.2 (by omega)
  have hneg : decide (b.toInt < 0 + 1) = decide (b.toInt ≤ 0) :=
    decide_eq_decide.2 (by omega)
  rw [← hbelow, ← hneg, not_bne, not_bne, bne_misread_iff hflag]

include hw in
/-- Comparing the sum with an addend, where `x` is the one that is compared with. An addend
out of range is larger than every sum that is not negative, as an unsigned number, and
smaller than the others. -/
theorem addCarry_iff {x y : BitVec w} {X : Operand} (hX : X.Content x) {o : BitVec 64}
    (ho : o = (x + y).signExtend 64) :
    (o.ult X.materialise.full = x.uaddOverflow y) ↔
      (X.range w == .eq ||
        (2 ^ (w - 1) ≤ x.toNat + y.toNat && x.toNat + y.toNat < 2 ^ w + 2 ^ (w - 1))) := by
  obtain ⟨hpos, hle⟩ := le_of_mem_widths hw
  have hlt := hX.lt
  have heq := hX.eq
  have hgt := hX.gt
  have hsum := toInt_add_cases hpos x y
  have hx := toNat_cases hpos x
  have hy := toNat_cases hpos y
  have hX := toNat_cases (by decide) X.materialise.full
  have hO := toNat_cases (by decide) o
  have hXl := X.materialise.full.le_toInt
  have hX' := X.materialise.full.toInt_lt
  have hxl := x.le_toInt
  have hyl := y.le_toInt
  have hx' := x.toInt_lt
  have hy' := y.toInt_lt
  have hH : (2 : ℤ) ^ (w - 1) ≤ 2 ^ (64 - 1) := pow_le_pow_right₀ (by decide) (by omega)
  have ho' : o.toInt = (x + y).toInt := by rw [ho, toInt_signExtend hle]
  rw [ult_eq, uaddOverflow_eq, decide_eq_decide, two_pow_eq hpos]
  have hnat : 2 ^ (w - 1) ≤ x.toNat + y.toNat ∧ x.toNat + y.toNat < 2 ^ w + 2 ^ (w - 1) ↔
      2 ^ (w - 1) ≤ (x.toNat : ℤ) + y.toNat ∧
        (x.toNat : ℤ) + y.toNat < 2 * 2 ^ (w - 1) + 2 ^ (w - 1) := by
    rw [← two_pow_eq hpos]
    exact_mod_cast Iff.rfl
  rw [Bool.or_eq_true, Bool.and_eq_true, decide_eq_true_iff, decide_eq_true_iff, hnat, beq_iff_eq]
  generalize X.materialise.full.toInt = L at *
  generalize (x + y).toInt = S at hsum ho'
  cases hrange : X.range w with
  | lt =>
    have := hlt hrange
    simp only [reduceCtorEq, false_or]
    omega
  | eq =>
    have := heq hrange
    simp only [true_or, iff_true]
    omega
  | gt =>
    have := hgt hrange
    simp only [reduceCtorEq, false_or]
    omega

include hw in
theorem subCarry_iff (hlhs : lhs.Content a) {o : BitVec 64} (ho : o = (a - b).signExtend 64) :
    (lhs.materialise.full.ult o = a.usubOverflow b) ↔
      (lhs.range w == .eq ||
        (b.toNat ≤ a.toNat + 2 ^ (w - 1) && a.toNat < b.toNat + 2 ^ (w - 1))) := by
  obtain ⟨hpos, hle⟩ := le_of_mem_widths hw
  have hlt := hlhs.lt
  have heq := hlhs.eq
  have hgt := hlhs.gt
  have hdiff := toInt_sub_cases hpos a b
  have hx := toNat_cases hpos a
  have hy := toNat_cases hpos b
  have hX := toNat_cases (by decide) lhs.materialise.full
  have hO := toNat_cases (by decide) o
  have hXl := lhs.materialise.full.le_toInt
  have hX' := lhs.materialise.full.toInt_lt
  have hxl := a.le_toInt
  have hyl := b.le_toInt
  have hx' := a.toInt_lt
  have hy' := b.toInt_lt
  have hH : (2 : ℤ) ^ (w - 1) ≤ 2 ^ (64 - 1) := pow_le_pow_right₀ (by decide) (by omega)
  have ho' : o.toInt = (a - b).toInt := by rw [ho, toInt_signExtend hle]
  rw [ult_eq, usubOverflow_eq, decide_eq_decide]
  have hnat : b.toNat ≤ a.toNat + 2 ^ (w - 1) ∧ a.toNat < b.toNat + 2 ^ (w - 1) ↔
      (b.toNat : ℤ) ≤ a.toNat + 2 ^ (w - 1) ∧ (a.toNat : ℤ) < b.toNat + 2 ^ (w - 1) := by
    exact_mod_cast Iff.rfl
  rw [Bool.or_eq_true, Bool.and_eq_true, decide_eq_true_iff, decide_eq_true_iff, hnat, beq_iff_eq]
  generalize lhs.materialise.full.toInt = L at *
  generalize (a - b).toInt = S at hdiff ho'
  cases hrange : lhs.range w with
  | lt =>
    have := hlt hrange
    simp only [reduceCtorEq, false_or]
    omega
  | eq =>
    have := heq hrange
    simp only [true_or, iff_true]
    omega
  | gt =>
    have := hgt hrange
    simp only [reduceCtorEq, false_or]
    omega

end Compare

/-! ## Results -/

/-- The lowering gives the value `v` in the low bits, and each flag that is used as it should
be. -/
def Yields {w : ℕ} (res : Except String (TypedRegister × Flags)) (want : Wanted) (v : BitVec w)
    (zf of cf sf : Bool) : Prop :=
  ∃ out f, res = .ok (out, f) ∧ out.val.setWidth w = v ∧
    (want.zf → f.zf = some (bit zf)) ∧ (want.of → f.of = some (bit of)) ∧
    (want.cf → f.cf = some (bit cf)) ∧ (want.sf → f.sf = some (bit sf))

section Right

variable {w : ℕ} (hw : w ∈ widths) {want : Wanted} {v : BitVec w}

include hw in
theorem seqz_signExtend (v : BitVec w) : seqz (v.signExtend 64) = bit (v == 0) := by
  rw [seqz, bit_inj, Bool.eq_iff_iff, beq_iff_eq, beq_iff_eq]
  constructor
  · intro h
    rw [← setWidth_signExtend (le_of_mem_widths hw).2 v, h]
    exact BitVec.setWidth_zero w 64
  · rintro rfl
    refine BitVec.eq_of_toInt_eq ((toInt_signExtend (le_of_mem_widths hw).2 0).trans ?_)
    exact BitVec.toInt_zero.trans BitVec.toInt_zero.symm

include hw in
theorem sltz_signExtend (v : BitVec w) : sltz (v.signExtend 64) = bit v.msb := by
  rw [sltz, slt, bit_inj, slt_eq, toInt_signExtend (le_of_mem_widths hw).2, toInt_zero64,
    BitVec.msb_eq_toInt]

include hw in
/-- A lowering that picks the flags of its extended result. -/
theorem yields_iff {res : Except String (TypedRegister × Flags)} {out out' : TypedRegister}
    (hout : out.Carries v) {of cf of' cf' : Bool}
    (hres : res = .ok (out', want.pick (seqz out.full) (bit of) (bit cf) (sltz out.full)))
    (hout' : out.Extends out') :
    Yields res want v (v == 0) of' cf' v.msb ↔
      (want.of → of = of') ∧ (want.cf → cf = cf') := by
  have hlow := hout.setWidth_of_extends hout'
  rw [hout.full_eq, seqz_signExtend hw, sltz_signExtend hw] at hres
  constructor
  · rintro ⟨o, f, hof, -, -, hofl, hcfl, -⟩
    cases hres.symm.trans hof
    refine ⟨fun h => ?_, fun h => ?_⟩
    · simpa [Wanted.pick, h] using hofl h
    · simpa [Wanted.pick, h] using hcfl h
  · rintro ⟨ho, hc⟩
    refine ⟨_, _, hres, hlow, fun h => ?_, fun h => ?_, fun h => ?_, fun h => ?_⟩
    · simp [Wanted.pick, h]
    · simp [Wanted.pick, h, ho h]
    · simp [Wanted.pick, h, hc h]
    · simp [Wanted.pick, h]

end Right

section Paths

variable {w : ℕ} (hw : w ∈ widths) {lhs rhs : Operand} {a b : BitVec w} (hlhs : lhs.Content a)
  (want : Wanted)

include hw hlhs in
/-- The sum of two registers. What the right one is in the IR does not matter here. -/
theorem standardAdd_right_iff (hrhs : rhs.Content b) :
    Yields (standardPath .add w lhs.materialise rhs.materialise want) want (a + b)
        (a + b == 0) (a.saddOverflow b) (a.uaddOverflow b) (a + b).msb ↔
      (want.of → misread (rhs.range w) ((0 ≤ a.toInt && a.toInt + b.toInt < 2 ^ (w - 1)) ||
          a.toInt + b.toInt < -2 ^ (w - 1)) = misread (lhs.range w) (a.toInt < 0)) ∧
        (want.cf → rhs.range w == .eq ||
          (2 ^ (w - 1) ≤ a.toNat + b.toNat && a.toNat + b.toNat < 2 ^ w + 2 ^ (w - 1))) := by
  obtain ⟨out, hadd, hout⟩ := add_carries hw hlhs.low hrhs.low
  obtain ⟨out', hflags, hout'⟩ :=
    addFlags_eq hout.mem hlhs.width hrhs.width want
  have hres : standardPath .add w lhs.materialise rhs.materialise want = .ok (out', want.pick
      (seqz out.full) (bit (out.full.slt rhs.materialise.full != lhs.materialise.full.slt 0))
      (bit (out.full.ult rhs.materialise.full)) (sltz out.full)) := by
    rw [standardPath, hadd, ok_bind, hflags, ← bit_xor]
    rfl
  have hfull := hout.full_eq
  have hcarry := addCarry_iff hw hrhs (y := a) (hfull.trans (by rw [BitVec.add_comm]))
  rw [yields_iff hw hout hres hout']
  refine and_congr (imp_congr_right fun _ => ?_) (imp_congr_right fun _ => ?_)
  · exact addOverflow_iff hw hlhs hrhs hfull
  · rw [uaddOverflow_comm, hcarry, Nat.add_comm a.toNat]

include hw hlhs in
/-- The difference of two registers. -/
theorem standardSub_right_iff (hrhs : rhs.Content b) :
    Yields (standardPath .sub w lhs.materialise rhs.materialise want) want (a - b)
        (a - b == 0) (a.ssubOverflow b) (a.usubOverflow b) (a - b).msb ↔
      (want.of → overflowRight .sub lhs rhs a b) ∧ (want.cf → carryRight .sub lhs rhs a b) := by
  obtain ⟨out, hsub, hout⟩ := sub_carries hw hlhs.low hrhs.low
  obtain ⟨out', hflags, hout'⟩ :=
    subFlags_eq hout.mem hlhs.width hrhs.width want
  have hres : standardPath .sub w lhs.materialise rhs.materialise want = .ok (out', want.pick
      (seqz out.full)
      (bit (out.full.slt lhs.materialise.full != decide (0 < rhs.materialise.full.toInt)))
      (bit (lhs.materialise.full.ult out.full)) (sltz out.full)) := by
    rw [standardPath, hsub, ok_bind, hflags, ← bit_xor]
    rfl
  have hfull := hout.full_eq
  rw [yields_iff hw hout hres hout']
  refine and_congr (imp_congr_right fun _ => ?_) (imp_congr_right fun _ => ?_)
  · simpa only [overflowRight, beq_iff_eq] using subOverflow_iff hw hlhs hrhs hfull
  · simpa only [carryRight] using subCarry_iff hw hlhs hfull

include hw hlhs in
theorem standardPath_right_iff (hrhs : rhs.Content b) {op : AddSub}
    (himm : immediate op rhs = false) :
    Yields (standardPath op w lhs.materialise rhs.materialise want) want (op.value a b)
        (op.value a b == 0) (op.overflow a b) (op.carry a b) (op.value a b).msb ↔
      (want.of → overflowRight op lhs rhs a b) ∧ (want.cf → carryRight op lhs rhs a b) := by
  cases op with
  | add =>
    refine (standardAdd_right_iff hw hlhs want hrhs).trans ?_
    simp only [overflowRight, carryRight, himm, beq_iff_eq]
  | sub => exact standardSub_right_iff hw hlhs want hrhs

include hw hlhs in
/-- The result is there, and right, whatever becomes of the flags. -/
theorem standardPath_value (hrhs : rhs.Content b) (op : AddSub) :
    ∃ out f, standardPath op w lhs.materialise rhs.materialise want = .ok (out, f) ∧
      out.val.setWidth w = op.value a b := by
  cases op with
  | add =>
    obtain ⟨out, hadd, hout⟩ := add_carries hw hlhs.low hrhs.low
    obtain ⟨out', hflags, hout'⟩ := addFlags_eq hout.mem hlhs.width hrhs.width want
    exact ⟨out', _, by rw [standardPath, hadd, ok_bind, hflags], hout.setWidth_of_extends hout'⟩
  | sub =>
    obtain ⟨out, hsub, hout⟩ := sub_carries hw hlhs.low hrhs.low
    obtain ⟨out', hflags, hout'⟩ := subFlags_eq hout.mem hlhs.width hrhs.width want
    exact ⟨out', _, by rw [standardPath, hsub, ok_bind, hflags], hout.setWidth_of_extends hout'⟩

include hw hlhs in
theorem immediatePath_right_iff {imm : BitVec 64} (hrhs : (Operand.const imm).Content b)
    {op : AddSub} (himm : immediate op (.const imm)) :
    Yields (immediatePath op w lhs.materialise imm want) want (op.value a b)
        (op.value a b == 0) (op.overflow a b) (op.carry a b) (op.value a b).msb ↔
      (want.of → overflowRight op lhs (.const imm) a b) ∧
        (want.cf → carryRight op lhs (.const imm) a b) := by
  cases op with
  | add =>
    obtain ⟨out, hadd : addi w lhs.materialise imm = _, hout⟩ := addi_carries hw hlhs.low hrhs.low
    obtain ⟨out', hflags, hout'⟩ := addiFlags_eq hout.mem hlhs.width imm want
    have hres : immediatePath .add w lhs.materialise imm want = .ok (out', want.pick
        (seqz out.full) (bit (out.full.slt lhs.materialise.full != decide (imm.toInt < 0)))
        (bit (out.full.ult lhs.materialise.full)) (sltz out.full)) := by
      rw [immediatePath, hadd, ok_bind, hflags, ← bit_xor]
      rfl
    have hfull := hout.full_eq
    change Yields _ want (a + b) (a + b == 0) _ _ (a + b).msb ↔ _
    rw [yields_iff hw hout hres hout']
    refine and_congr (imp_congr_right fun _ => ?_) (imp_congr_right fun _ => ?_)
    · simpa only [overflowRight, AddSub.overflow, himm, beq_iff_eq] using
        addiOverflow_iff hw hlhs hrhs hfull
    · simpa only [carryRight, AddSub.carry, himm] using addCarry_iff hw hlhs hfull
  | sub =>
    obtain ⟨out, hsub : addi w lhs.materialise (-imm) = _, hout⟩ :=
      addi_neg_carries hw hlhs.low hrhs.low
    obtain ⟨out', hflags, hout'⟩ := subiFlags_eq hout.mem hlhs.width imm want
    have hres : immediatePath .sub w lhs.materialise imm want = .ok (out', want.pick
        (seqz out.full) (bit (out.full.slt lhs.materialise.full != decide (0 < imm.toInt)))
        (bit (lhs.materialise.full.ult out.full)) (sltz out.full)) := by
      rw [immediatePath, hsub, ok_bind, hflags, ← bit_xor]
      rfl
    have hfull := hout.full_eq
    change Yields _ want (a - b) (a - b == 0) _ _ (a - b).msb ↔ _
    rw [yields_iff hw hout hres hout']
    refine and_congr (imp_congr_right fun _ => ?_) (imp_congr_right fun _ => ?_)
    · have := subOverflow_iff hw hlhs hrhs hfull
      simpa only [overflowRight, AddSub.overflow, Operand.full_const, beq_iff_eq] using this
    · simpa only [carryRight, AddSub.carry] using subCarry_iff hw hlhs hfull

end Paths

/-- Two constants of which no flag is used. -/
theorem fold_right {w : ℕ} (hw : w ∈ widths) {x y : BitVec 64} {a b : BitVec w} (op : AddSub)
    (hx : (Operand.const x).Content a) (hy : (Operand.const y).Content b) :
    (fold op x y).setWidth w = op.value a b := by
  have hx : x.setWidth w = a := hx.low
  have hy : y.setWidth w = b := hy.low
  obtain ⟨-, hle⟩ := le_of_mem_widths hw
  cases op with
  | add => exact (BitVec.setWidth_add _ _ hle).trans (by rw [hx, hy]; rfl)
  | sub => exact (setWidth_sub hle x y).trans (by rw [hx, hy]; rfl)

/-- The sum or the difference, and the zero and the sign flag, are always right. The overflow
and the carry flag are right as `overflowRight` and `carryRight` say. -/
theorem materialiseBinaryArith_right_iff {w : ℕ} (hw : w ∈ widths) (op : AddSub)
    {lhs rhs : Operand} {a b : BitVec w} (hlhs : lhs.Carries a) (hrhs : rhs.Carries b)
    (want : Wanted) :
    Yields (materialiseBinaryArith op w lhs rhs want) want (op.value a b)
        (op.value a b == 0) (op.overflow a b) (op.carry a b) (op.value a b).msb ↔
      (want.of → overflowRight op lhs rhs a b) ∧ (want.cf → carryRight op lhs rhs a b) := by
  have hl := hlhs.content hw
  have hr := hrhs.content hw
  have hpaths : ∀ y, rhs = .const y →
      (Yields (if immediate op rhs then immediatePath op w lhs.materialise y want
          else standardPath op w lhs.materialise rhs.materialise want) want (op.value a b)
        (op.value a b == 0) (op.overflow a b) (op.carry a b) (op.value a b).msb ↔
      (want.of → overflowRight op lhs rhs a b) ∧ (want.cf → carryRight op lhs rhs a b)) := by
    rintro y rfl
    split
    · next himm => exact immediatePath_right_iff hw hl want hr himm
    · next himm => exact standardPath_right_iff hw hl want hr (Bool.eq_false_iff.2 himm)
  match lhs, rhs with
  | .const x, .const y =>
    cases hany : want.any with
    | true => simpa only [materialiseBinaryArith, hany, if_true] using hpaths y rfl
    | false =>
      simp only [materialiseBinaryArith, hany, Bool.false_eq_true, if_false]
      simp only [Wanted.any, Bool.or_eq_false_iff] at hany
      obtain ⟨⟨⟨hz, ho⟩, hc⟩, hs⟩ := hany
      simp only [ho, hc, Bool.false_eq_true, false_implies, and_self, iff_true]
      exact ⟨_, _, rfl, fold_right hw op hl hr, by simp [hz], by simp [ho], by simp [hc],
        by simp [hs]⟩
  | .reg r, .const y => exact hpaths y rfl
  | .reg r, .reg r' => exact standardPath_right_iff hw hl want hr rfl
  | .const x, .reg r' => exact standardPath_right_iff hw hl want hr rfl

/-- The flags of `add al, 0x7f`, from a register with garbage above the byte. -/
theorem right_addGarbage :
    Yields (materialiseBinaryArith .add 8 (.reg ⟨0x1280, 8, 0⟩) (.const 0x7f)
        ⟨true, true, true, true⟩) ⟨true, true, true, true⟩ (0xff : BitVec 8)
        false false false true :=
  have hal : (Operand.reg ⟨0x1280, 8, 0⟩).Carries (0x80 : BitVec 8) := ⟨by decide, le_rfl, rfl⟩
  have himm : (Operand.const 0x7f).Carries (0x7f : BitVec 8) := rfl
  (materialiseBinaryArith_right_iff (w := 8) (by decide) .add hal himm
    ⟨true, true, true, true⟩).2 ⟨by decide, by decide⟩

/-- The constant of an addition of `0xc8` to a byte is written as 200, and counts as positive.
Adding it to one then gives an overflow. -/
theorem not_right_unsignedConstant :
    ¬ ∀ (op : AddSub) (lhs rhs : Operand) (a b : BitVec 8), lhs.Carries a → rhs.Carries b →
      ∀ want, Yields (materialiseBinaryArith op 8 lhs rhs want) want (op.value a b)
        (op.value a b == 0) (op.overflow a b) (op.carry a b) (op.value a b).msb := by
  intro h
  have hreg : (Operand.reg ⟨1, 8, 0⟩).Carries (1 : BitVec 8) := ⟨by decide, le_rfl, rfl⟩
  obtain ⟨out, f, hres, -, -, hof, -, -⟩ :=
    h .add (.reg ⟨1, 8, 0⟩) (.const 0xc8) 1 0xc8 hreg rfl ⟨false, true, false, false⟩
  cases hres
  exact absurd (hof rfl) (by decide)

end Arancini.Riscv
