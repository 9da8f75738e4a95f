import Arancini.Riscv.Shift

/-!
# Atomic operations on RISC-V

A binary atomic node is an AMO instruction, which leaves the old content of the memory, extended
with its sign, and the flags are computed afterwards from that and the operand. A `cmpxchg` is a
loop around a load-reserved and a store-conditional. There are such instructions for words and
double words only.

Two of the sequences have a slip. `sub` negates the operand and then adds the operand itself when
it is a word, and the flags of the logical operations on words are those of a result that has been
shifted out. `cmpxchg` writes the accumulator extended with the sign, where the guest has zeros.
`atomic_right_iff` says for which operands that does not show.
-/

namespace Arancini.Riscv

/-! ## Binary operations -/

/-- The operations of `binary_atomic` that are lowered. -/
inductive BinaryAtomic
  | add
  | xadd
  | sub
  | band
  | bor
  | bxor
  | xchg
  deriving DecidableEq

/-- An AMO instruction : what it leaves in its register and in the memory. -/
def amo {w : ℕ} (f : BitVec w → BitVec w → BitVec w) (mem : BitVec w) (src : BitVec 64) :
    BitVec 64 × BitVec w :=
  (mem.signExtend 64, f mem (src.setWidth w))

/-- What an atomic operation leaves. -/
structure AtomicResult (w : ℕ) where
  mem : BitVec w
  out : TypedRegister
  flags : Flags

namespace BinaryAtomic

/-- The text for a width without an instruction. -/
def unsupported : BinaryAtomic → String
  | add | xadd => "unsupported xadd width"
  | sub => "unsupported lock sub width"
  | band => "unsupported lock and width"
  | bor => "unsupported lock or width"
  | bxor => "unsupported lock xor width"
  | xchg => "unsupported xchg width"

/-- The flags of a sum or a difference, of the old content and the operand. -/
def sumFlags (op : AddSub) (w : ℕ) (out src : TypedRegister) (want : Wanted) :
    Except String Flags :=
  if want.any then (standardPath op w out src want).map Prod.snd else .ok .none

/-- The flags of a logical operation. The result of a word is shifted to the upper half, to get
rid of the higher bits, but its type says that it is in the lower. -/
def logicFlags (w : ℕ) (val : BitVec 64) (want : Wanted) : Except String Flags :=
  if want.any then
    let val := if w = 32 then slli val 32 else val
    (zeroSignFlag { TypedRegister.fresh w with val := val } want.zf want.sf .none).map Prod.snd
  else .ok .none

/-- The instruction and the flags. -/
def lower (op : BinaryAtomic) (w : ℕ) (src : TypedRegister) (want : Wanted) (mem : BitVec w) :
    Except String (AtomicResult w) :=
  let reg (val : BitVec 64) : TypedRegister := { TypedRegister.fresh w with val := val }
  match op with
  | add | xadd => do
    let (out, mem) := amo (· + ·) mem src.val
    let flags ← sumFlags .add w (reg out) src want
    return ⟨mem, reg out, flags⟩
  | sub => do
    let out := -src.val
    let (out, mem) := if w = 64 then amo (· + ·) mem out else amo (· + ·) mem src.val
    let flags ← sumFlags .sub w (reg out) src want
    return ⟨mem, reg out, flags⟩
  | band => do
    let (out, mem) := amo (· &&& ·) mem src.val
    let flags ← logicFlags w (out &&& src.val) want
    return ⟨mem, reg out, flags⟩
  | bor => do
    let (out, mem) := amo (· ||| ·) mem src.val
    let flags ← logicFlags w (out ||| src.val) want
    return ⟨mem, reg out, flags⟩
  | bxor => do
    let (out, mem) := amo (· ^^^ ·) mem src.val
    let flags ← logicFlags w (out ^^^ src.val) want
    return ⟨mem, reg out, flags⟩
  | xchg =>
    let (out, mem) := amo (fun _ src => src) mem src.val
    .ok ⟨mem, reg out, .none⟩

end BinaryAtomic

/-- `materialise_binary_atomic`. -/
def materialiseBinaryAtomic (op : BinaryAtomic) (w : ℕ) (src : Operand) (want : Wanted)
    (mem : BitVec w) : Except String (AtomicResult w) :=
  if w ∉ widths then throw "Unsupported types for binary atomic"
  else if w = 64 ∨ w = 32 then op.lower w src.materialise want mem
  else throw op.unsupported

/-! ## Compare and exchange -/

/-- One way through the loop of `cmpxchg` : the content of the memory, and whether the reservation
is still there for the store. -/
structure Attempt (w : ℕ) where
  mem : BitVec w
  reserved : Bool

/-- What `cmpxchg` leaves, with the content it found and what it moves to the register of the
accumulator. -/
structure CmpxchgResult (w : ℕ) extends AtomicResult w where
  old : BitVec w
  acc : Option (BitVec 64)

/-- The flags of a comparison that matches, put there one by one. -/
def matchFlags (want : Wanted) : Flags :=
  want.pick 1 0 0 0

/-- One way through the loop. Nothing comes out of one that starts again. -/
def attempt {w : ℕ} (acc src : TypedRegister) (want : Wanted) (a : Attempt w) :
    Except String (Option (CmpxchgResult w)) :=
  let out : TypedRegister := { TypedRegister.fresh w with val := a.mem.signExtend 64 }
  if out.val ≠ acc.val then do
    let flags ← BinaryAtomic.sumFlags .sub w acc out want
    return some ⟨⟨a.mem, out, flags⟩, a.mem, some out.val⟩
  else if a.reserved then .ok (some ⟨⟨src.val.setWidth w, out, matchFlags want⟩, a.mem, none⟩)
  else .ok none

/-- The loop, until an attempt comes to an end. -/
def cmpxchgLoop {w : ℕ} (acc src : TypedRegister) (want : Wanted) :
    List (Attempt w) → Except String (Option (CmpxchgResult w))
  | [] => .ok none
  | a :: rest => do
    match ← attempt acc src want a with
    | some result => return some result
    | none => cmpxchgLoop acc src want rest

/-- `materialise_ternary_atomic` of `cmpxchg`. -/
def materialiseCmpxchg (w : ℕ) (acc : TypedRegister) (src : Operand) (want : Wanted)
    (attempts : List (Attempt w)) : Except String (Option (CmpxchgResult w)) :=
  if w ∉ widths then throw "Unsupported type for Ternary Atomic"
  else if w = 64 ∨ w = 32 then cmpxchgLoop acc src.materialise want attempts
  else throw "unsupported cmpxchg width"

/-! ## What they mean -/

/-- The flags that are used are these. -/
def Flags.Are (f : Flags) (want : Wanted) (zf of cf sf : Bool) : Prop :=
  (want.zf → f.zf = some (bit zf)) ∧ (want.of → f.of = some (bit of)) ∧
    (want.cf → f.cf = some (bit cf)) ∧ (want.sf → f.sf = some (bit sf))

namespace BinaryAtomic

variable {w : ℕ}

/-- The new content of the memory. -/
def value : BinaryAtomic → BitVec w → BitVec w → BitVec w
  | add, a, b | xadd, a, b => a + b
  | sub, a, b => a - b
  | band, a, b => a &&& b
  | bor, a, b => a ||| b
  | bxor, a, b => a ^^^ b
  | xchg, _, b => b

/-- The flags are as after the operation on values. A logical operation has only the zero and the
sign flag, and an exchange has none. -/
def FlagsRight (op : BinaryAtomic) (a b : BitVec w) (want : Wanted) (f : Flags) : Prop :=
  match op with
  | add | xadd => f.Are want (a + b == 0) (a.saddOverflow b) (a.uaddOverflow b) (a + b).msb
  | sub => f.Are want (a - b == 0) (a.ssubOverflow b) (a.usubOverflow b) (a - b).msb
  | band | bor | bxor =>
    (want.zf → f.zf = some (bit (op.value a b == 0))) ∧
      (want.sf → f.sf = some (bit (op.value a b).msb))
  | xchg => True

end BinaryAtomic

/-- An atomic operation leaves the result in memory, returns the old content and sets the flags. -/
def AtomicRight (op : BinaryAtomic) {w : ℕ} (src : Operand) (a b : BitVec w) (want : Wanted) :
    Prop :=
  ∃ r, materialiseBinaryAtomic op w src want a = .ok r ∧ r.mem = op.value a b ∧
    r.out.val.setWidth w = a ∧ op.FlagsRight a b want r.flags

/-- The operands for which it does : there is an instruction for the width, a difference of words is
a sum, a constant is not misread by the flags, and a logical result of a word that is used for flags
looks like zero. -/
def atomicFits (op : BinaryAtomic) {w : ℕ} (src : Operand) (a b : BitVec w) (want : Wanted) :
    Prop :=
  (w = 64 ∨ w = 32) ∧
    match op with
    | .add | .xadd =>
      (want.of → misread (src.range w) ((0 ≤ a.toInt && a.toInt + b.toInt < 2 ^ (w - 1)) ||
          a.toInt + b.toInt < -2 ^ (w - 1)) = false) ∧
        (want.cf → src.range w == .eq ||
          (2 ^ (w - 1) ≤ a.toNat + b.toNat && a.toNat + b.toNat < 2 ^ w + 2 ^ (w - 1)))
    | .sub =>
      (w = 32 → b + b = 0) ∧ (want.of → misread (src.range w) (b.toInt ≤ 0) = false)
    | .band | .bor | .bxor =>
      w = 32 → (want.zf → op.value a b = 0) ∧ (want.sf → (op.value a b).msb = false)
    | .xchg => True

/-! ## Flags -/

section Flags

variable {w : ℕ} (hw : w ∈ widths) {lhs rhs : Operand} {a b : BitVec w} (hlhs : lhs.Content a)
  (hrhs : rhs.Content b) (want : Wanted)

include hw hlhs hrhs in
/-- The flags of a sum or a difference are those of the standard path. -/
theorem sumFlags_iff (op : AddSub) (zf of cf sf : Bool) :
    (∃ f, BinaryAtomic.sumFlags op w lhs.materialise rhs.materialise want = .ok f ∧
        f.Are want zf of cf sf) ↔
      Yields (standardPath op w lhs.materialise rhs.materialise want) want (op.value a b) zf of cf
        sf := by
  obtain ⟨out, f, hpath, hval⟩ := standardPath_value hw hlhs want hrhs op
  cases hany : want.any with
  | true =>
    have hflags : BinaryAtomic.sumFlags op w lhs.materialise rhs.materialise want = .ok f := by
      rw [BinaryAtomic.sumFlags, if_pos hany, hpath]
      rfl
    rw [hflags]
    constructor
    · rintro ⟨f', hf, hare⟩
      obtain rfl : f = f' := Except.ok.inj hf
      exact ⟨out, f, hpath, hval, hare⟩
    · rintro ⟨out', f', hpath', -, hare⟩
      obtain ⟨rfl, rfl⟩ := Prod.mk.inj (Except.ok.inj (hpath.symm.trans hpath'))
      exact ⟨f, rfl, hare⟩
  | false =>
    simp only [BinaryAtomic.sumFlags, hany, Bool.false_eq_true, if_false]
    simp only [Wanted.any, Bool.or_eq_false_iff] at hany
    obtain ⟨⟨⟨hz, ho⟩, hc⟩, hs⟩ := hany
    have hnone : ∀ f : Flags, f.Are want zf of cf sf := by
      intro f
      simp [Flags.Are, hz, ho, hc, hs]
    exact iff_of_true ⟨_, rfl, hnone _⟩ ⟨out, f, hpath, hval, hnone f⟩

/-- The zero and the sign flag are those of the number that the register carries. -/
theorem zeroSignFlag_full {out : TypedRegister} (h : out.width ∈ widths) (zf sf : Bool) :
    ∃ out', zeroSignFlag out zf sf .none = .ok (out',
      ⟨if zf then some (seqz out.full) else none, none, none,
        if sf then some (sltz out.full) else none⟩) := by
  obtain ⟨r, hr, -, hval⟩ := extendTo64_eq h
  unfold zeroSignFlag
  rw [hr, ← hval]
  cases zf <;> cases sf <;> exact ⟨_, rfl⟩

/-- What the flags of a logical operation see : the result, or zero for a word. -/
theorem logicFlags_eq (hword : w = 64 ∨ w = 32) {val : BitVec 64} {v : BitVec w}
    (hval : val.setWidth w = v) :
    ∃ f, BinaryAtomic.logicFlags w val want = .ok f ∧
      (want.zf → f.zf = some (bit (w == 32 || v == 0))) ∧
      (want.sf → f.sf = some (bit (w != 32 && v.msb))) := by
  let reg : TypedRegister :=
    { TypedRegister.fresh w with val := if w = 32 then slli val 32 else val }
  have hreg : reg.width ∈ widths := by
    change w ∈ widths
    rcases hword with rfl | rfl <;> decide
  have hzero : seqz reg.full = bit (w == 32 || v == 0) ∧
      sltz reg.full = bit (w != 32 && v.msb) := by
    rcases hword with rfl | rfl
    · have hfull : reg.full = v.signExtend 64 := by
        rw [← hval]
        simp [reg, TypedRegister.full, TypedRegister.fresh, sext]
      rw [hfull, seqz_signExtend (by decide), sltz_signExtend (by decide)]
      exact ⟨rfl, rfl⟩
    · have hfull : reg.full = 0 := by
        have hlow : (slli val 32).setWidth 32 = (0 : BitVec 32) := by
          rw [slli, setWidth_shiftLeft (by decide)]
          exact BitVec.shiftLeft_eq_zero le_rfl
        change sext 32 (slli val 32) = 0
        rw [sext, hlow]
        decide
      rw [hfull]
      exact ⟨rfl, rfl⟩
  obtain ⟨out, hflag⟩ := zeroSignFlag_full hreg want.zf want.sf
  cases hany : want.any with
  | true =>
    refine ⟨⟨if want.zf then some (seqz reg.full) else none, none, none,
      if want.sf then some (sltz reg.full) else none⟩, ?_, fun h => ?_, fun h => ?_⟩
    · rw [BinaryAtomic.logicFlags, if_pos hany]
      change (zeroSignFlag reg want.zf want.sf .none).map Prod.snd = _
      rw [hflag]
      rfl
    · rw [if_pos h, hzero.1]
    · rw [if_pos h, hzero.2]
  | false =>
    refine ⟨.none, by rw [BinaryAtomic.logicFlags, hany]; rfl, fun h => ?_, fun h => ?_⟩
    · simp [Wanted.any, h] at hany
    · simp [Wanted.any, h] at hany

end Flags

/-! ## When a binary operation is right -/

section Binary

variable {w : ℕ} {src : Operand} {a b : BitVec w} (want : Wanted)

/-- The parts of a result that the flags come last in. -/
theorem exists_result_iff {flags : Except String Flags} {mem v old : BitVec w}
    {out : TypedRegister} {p : Flags → Prop} :
    (∃ r : AtomicResult w, (do
        let f ← flags
        return (⟨mem, out, f⟩ : AtomicResult w)) = .ok r ∧ r.mem = v ∧
          r.out.val.setWidth w = old ∧ p r.flags) ↔
      mem = v ∧ out.val.setWidth w = old ∧ ∃ f, flags = .ok f ∧ p f := by
  constructor
  · rintro ⟨r, hres, hmem, hold, hp⟩
    obtain ⟨f, hflags, hr⟩ := bind_eq_ok.1 hres
    obtain rfl := pure_eq_ok.1 hr
    exact ⟨hmem, hold, f, hflags, hp⟩
  · rintro ⟨hmem, hold, f, rfl, hp⟩
    exact ⟨⟨mem, out, f⟩, rfl, hmem, hold, hp⟩

theorem exists_result_of_eq {flags : Except String Flags} {mem v old : BitVec w}
    {out : TypedRegister} {p : Flags → Prop} (hmem : mem = v) (hold : out.val.setWidth w = old) :
    (∃ r : AtomicResult w, (do
        let f ← flags
        return (⟨mem, out, f⟩ : AtomicResult w)) = .ok r ∧ r.mem = v ∧
          r.out.val.setWidth w = old ∧ p r.flags) ↔ ∃ f, flags = .ok f ∧ p f :=
  exists_result_iff.trans ((and_iff_right hmem).trans (and_iff_right hold))

/-- The register of an AMO instruction carries the old content. -/
theorem amo_carries (hw : w ∈ widths) (a : BitVec w) :
    TypedRegister.Carries { TypedRegister.fresh w with val := a.signExtend 64 } a :=
  carries_of_setWidth hw rfl (setWidth_signExtend (le_of_mem_widths hw).2 a)

theorem sumRight_iff (hw : w ∈ widths) (hsrc : src.Content b) :
    (∃ f, BinaryAtomic.sumFlags .add w { TypedRegister.fresh w with val := a.signExtend 64 }
        src.materialise want = .ok f ∧
        f.Are want (a + b == 0) (a.saddOverflow b) (a.uaddOverflow b) (a + b).msb) ↔
      (want.of → misread (src.range w) ((0 ≤ a.toInt && a.toInt + b.toInt < 2 ^ (w - 1)) ||
          a.toInt + b.toInt < -2 ^ (w - 1)) = false) ∧
        (want.cf → src.range w == .eq ||
          (2 ^ (w - 1) ≤ a.toNat + b.toNat && a.toNat + b.toNat < 2 ^ w + 2 ^ (w - 1))) := by
  have hout : (Operand.reg { TypedRegister.fresh w with val := a.signExtend 64 }).Carries a :=
    amo_carries hw a
  exact (sumFlags_iff hw (hout.content hw) hsrc want .add _ _ _ _).trans
    (standardAdd_right_iff hw (hout.content hw) want hsrc)

theorem differenceRight_iff (hw : w ∈ widths) (hsrc : src.Content b) :
    (∃ f, BinaryAtomic.sumFlags .sub w { TypedRegister.fresh w with val := a.signExtend 64 }
        src.materialise want = .ok f ∧
        f.Are want (a - b == 0) (a.ssubOverflow b) (a.usubOverflow b) (a - b).msb) ↔
      (want.of → misread (src.range w) (b.toInt ≤ 0) = false) := by
  have hout : (Operand.reg { TypedRegister.fresh w with val := a.signExtend 64 }).Carries a :=
    amo_carries hw a
  have hof : overflowRight .sub (.reg { TypedRegister.fresh w with val := a.signExtend 64 }) src a
      b = true ↔ misread (src.range w) (b.toInt ≤ 0) = false :=
    beq_iff_eq.trans eq_comm
  have hcf : carryRight .sub (.reg { TypedRegister.fresh w with val := a.signExtend 64 }) src a
      b = true :=
    rfl
  refine (sumFlags_iff hw (hout.content hw) hsrc want .sub _ _ _ _).trans
    ((standardSub_right_iff hw (hout.content hw) want hsrc).trans ?_)
  rw [hof, hcf]
  simp

/-- The flags of a logical operation are right where they are those of zero. -/
theorem logicRight_iff (hword : w = 64 ∨ w = 32) {val : BitVec 64} {v : BitVec w}
    (hval : val.setWidth w = v) :
    (∃ f, BinaryAtomic.logicFlags w val want = .ok f ∧ (want.zf → f.zf = some (bit (v == 0))) ∧
        (want.sf → f.sf = some (bit v.msb))) ↔
      (w = 32 → (want.zf → v = 0) ∧ (want.sf → v.msb = false)) := by
  obtain ⟨f, hflags, hzf, hsf⟩ := logicFlags_eq want hword hval
  have hiff : (∃ f', BinaryAtomic.logicFlags w val want = .ok f' ∧
      (want.zf → f'.zf = some (bit (v == 0))) ∧ (want.sf → f'.sf = some (bit v.msb))) ↔
      (want.zf → f.zf = some (bit (v == 0))) ∧ (want.sf → f.sf = some (bit v.msb)) := by
    rw [hflags]
    simp
  rw [hiff]
  rcases hword with rfl | rfl
  · exact iff_of_true ⟨hzf, hsf⟩ nofun
  · have hzf : want.zf → f.zf = some (bit true) := hzf
    have hsf : want.sf → f.sf = some (bit false) := hsf
    have hz : want.zf → (f.zf = some (bit (v == 0)) ↔ v = 0) := by
      intro h
      rw [hzf h, Option.some_inj, bit_inj, eq_comm, beq_iff_eq]
    have hs : want.sf → (f.sf = some (bit v.msb) ↔ v.msb = false) := by
      intro h
      rw [hsf h, Option.some_inj, bit_inj, eq_comm]
    simp only [forall_const]
    exact and_congr (forall_congr' hz) (forall_congr' hs)

/-- The difference of words is computed as a sum. -/
theorem add_eq_sub_iff {a b : BitVec w} : a + b = a - b ↔ b + b = 0 := by
  rw [BitVec.eq_sub_iff_add_eq, BitVec.add_assoc]
  constructor
  · intro h
    exact (BitVec.add_right_inj a).1 (h.trans (BitVec.add_zero a).symm)
  · intro h
    rw [h]
    exact BitVec.add_zero a

theorem atomicRight_iff (hsrc : src.Carries b) (op : BinaryAtomic) :
    AtomicRight op src a b want ↔ atomicFits op src a b want := by
  by_cases hword : w = 64 ∨ w = 32
  · have hw : w ∈ widths := by
      rcases hword with rfl | rfl <;> decide
    have hsrc := hsrc.content hw
    have hcode : materialiseBinaryAtomic op w src want a = op.lower w src.materialise want a := by
      rw [materialiseBinaryAtomic, if_neg (not_not.2 hw), if_pos hword]
    have hold := (amo_carries hw a).setWidth_eq
    have hle := (le_of_mem_widths hw).2
    unfold AtomicRight atomicFits
    rw [hcode, and_iff_right hword]
    cases op with
    | add =>
      exact (exists_result_of_eq (congrArg (a + ·) hsrc.low) hold).trans
        (sumRight_iff want hw hsrc)
    | xadd =>
      exact (exists_result_of_eq (congrArg (a + ·) hsrc.low) hold).trans
        (sumRight_iff want hw hsrc)
    | sub =>
      rcases hword with rfl | rfl
      · have hmem : a + (-src.materialise.val).setWidth 64 = a - b := by
          rw [BitVec.setWidth_eq, ← hsrc.low, BitVec.setWidth_eq, BitVec.sub_eq_add_neg]
        refine (exists_result_of_eq hmem hold).trans
          ((differenceRight_iff want hw hsrc).trans ?_)
        exact (and_iff_right fun h => absurd h (by decide)).symm
      · refine exists_result_iff.trans ?_
        refine and_congr ?_ ((and_iff_right hold).trans (differenceRight_iff want hw hsrc))
        rw [forall_prop_of_true rfl, ← add_eq_sub_iff (a := a), ← hsrc.low]
        rfl
    | band =>
      refine (exists_result_of_eq (congrArg (a &&& ·) hsrc.low) hold).trans
        (logicRight_iff want hword ?_)
      rw [BitVec.setWidth_and, setWidth_signExtend hle, hsrc.low]
      rfl
    | bor =>
      refine (exists_result_of_eq (congrArg (a ||| ·) hsrc.low) hold).trans
        (logicRight_iff want hword ?_)
      rw [BitVec.setWidth_or, setWidth_signExtend hle, hsrc.low]
      rfl
    | bxor =>
      refine (exists_result_of_eq (congrArg (a ^^^ ·) hsrc.low) hold).trans
        (logicRight_iff want hword ?_)
      rw [BitVec.setWidth_xor, setWidth_signExtend hle, hsrc.low]
      rfl
    | xchg => exact iff_of_true ⟨_, rfl, hsrc.low, hold, trivial⟩ trivial
  · refine iff_of_false ?_ fun h => hword h.1
    rintro ⟨r, hres, -⟩
    unfold materialiseBinaryAtomic at hres
    split at hres
    · cases hres
    · cases hres

end Binary

/-! ## When a compare and exchange is right -/

/-- An attempt starts the loop again : the registers match, and the reservation is gone. -/
def Attempt.Restarts {w : ℕ} (acc : TypedRegister) (a : Attempt w) : Prop :=
  a.mem.signExtend 64 = acc.val ∧ a.reserved = false

/-- A compare and exchange of `a` with `b` : memory gets the new value if it held the accumulator,
the flags are those of the comparison, and the accumulator gets what memory held if that was
something else, extended with zeros. -/
def CmpxchgRight {w : ℕ} (a b : BitVec w) (want : Wanted) (r : CmpxchgResult w) : Prop :=
  r.mem = (if r.old = a then b else r.old) ∧ r.out.val.setWidth w = r.old ∧
    r.flags.Are want (a - r.old == 0) (a.ssubOverflow r.old) (a.usubOverflow r.old)
      (a - r.old).msb ∧
    r.acc = if r.old = a then none else some (r.old.setWidth 64)

/-- The contents for which it is : the register of the accumulator is extended with its sign where
that matches, and the extension of another content does not show. -/
def cmpxchgFits {w : ℕ} (acc : TypedRegister) (a old : BitVec w) : Prop :=
  (w = 64 ∨ w = 32) ∧ (old = a → acc.val = a.signExtend 64) ∧
    (old ≠ a → w = 64 ∨ old.msb = false)

section Cmpxchg

variable {w : ℕ} {acc src : TypedRegister} {a b : BitVec w} (want : Wanted)

/-- The flags of the comparison of two registers are right. -/
theorem compareFlags (hw : w ∈ widths) (hacc : acc.Carries a) (old : BitVec w) :
    ∃ f, BinaryAtomic.sumFlags .sub w acc { TypedRegister.fresh w with val := old.signExtend 64 }
        want = .ok f ∧
      f.Are want (a - old == 0) (a.ssubOverflow old) (a.usubOverflow old) (a - old).msb := by
  have hl : (Operand.reg acc).Carries a := hacc
  have hr : (Operand.reg { TypedRegister.fresh w with val := old.signExtend 64 }).Carries old :=
    amo_carries hw old
  refine (sumFlags_iff hw (hl.content hw) (hr.content hw) want .sub _ _ _ _).2 ?_
  exact (standardSub_right_iff hw (hl.content hw) want (hr.content hw)).2
    ⟨fun _ => rfl, fun _ => rfl⟩

/-- The flags of a match are those of the difference of equal values. -/
theorem matchFlags_are (a : BitVec w) : (matchFlags want).Are want (a - a == 0)
    (a.ssubOverflow a) (a.usubOverflow a) (a - a).msb := by
  have hof : a.ssubOverflow a = false := by
    have hpos : (0 : ℤ) < 2 ^ (w - 1) := by positivity
    rw [ssubOverflow_eq, Int.sub_self, decide_eq_false_iff_not]
    omega
  have hcf : a.usubOverflow a = false := by
    rw [usubOverflow_eq]
    simp
  have hmsb : (a - a).msb = false := by simp
  have hzf : (a - a == 0) = true := by simp
  rw [hof, hcf, hmsb, hzf]
  refine ⟨fun h => ?_, fun h => ?_, fun h => ?_, fun h => ?_⟩
  all_goals
    simp only [matchFlags, Wanted.pick, h, if_true]
    rfl

/-- The extension with zeros is the one with the sign for a double word and a number that is not
negative. -/
theorem signExtend_eq_setWidth_iff (hword : w = 64 ∨ w = 32) (v : BitVec w) :
    v.signExtend 64 = v.setWidth 64 ↔ w = 64 ∨ v.msb = false := by
  rcases hword with rfl | rfl
  · simp
  · constructor
    · intro h
      have hbit : (v.signExtend 64).getLsbD 63 = (v.setWidth 64).getLsbD 63 := by rw [h]
      rw [BitVec.getLsbD_signExtend, BitVec.getLsbD_setWidth] at hbit
      simpa using hbit
    · rintro (h | h)
      · exact absurd h (by decide)
      · exact BitVec.signExtend_eq_setWidth_of_msb_false h

/-- An attempt that comes to an end. -/
theorem attempt_right_iff (hword : w = 64 ∨ w = 32) (hacc : acc.Carries a)
    (hsrc : src.val.setWidth w = b) {last : Attempt w} (hlast : ¬last.Restarts acc) :
    (∃ r, attempt acc src want last = .ok (some r) ∧ r.old = last.mem ∧
        CmpxchgRight a b want r) ↔ cmpxchgFits acc a last.mem := by
  have hw : w ∈ widths := by
    rcases hword with rfl | rfl <;> decide
  have hle := (le_of_mem_widths hw).2
  obtain ⟨flags, hflags, hare⟩ := compareFlags want hw hacc last.mem
  have hout : (last.mem.signExtend 64).setWidth w = last.mem := setWidth_signExtend hle _
  by_cases hmatch : last.mem.signExtend 64 = acc.val
  · have hold : last.mem = a := by
      rw [← hacc.setWidth_eq, ← hmatch, hout]
    have hreserved : last.reserved = true := by
      by_contra h
      exact hlast ⟨hmatch, Bool.eq_false_iff.2 h⟩
    have hres : attempt acc src want last = .ok (some ⟨⟨src.val.setWidth w,
        { TypedRegister.fresh w with val := last.mem.signExtend 64 }, matchFlags want⟩, last.mem,
        none⟩) := by
      unfold attempt
      rw [if_neg (not_not.2 hmatch), if_pos hreserved]
    refine iff_of_true ⟨_, hres, rfl, ?_, hout, ?_, (if_pos hold).symm⟩
      ⟨hword, fun _ => by rw [← hmatch, hold], fun h => absurd hold h⟩
    · exact hsrc.trans (if_pos hold).symm
    · dsimp only
      rw [hold]
      exact matchFlags_are want a
  · have hres : attempt acc src want last = .ok (some ⟨⟨last.mem,
        { TypedRegister.fresh w with val := last.mem.signExtend 64 }, flags⟩, last.mem,
        some (last.mem.signExtend 64)⟩) := by
      unfold attempt
      rw [if_pos hmatch, hflags]
      rfl
    rw [hres]
    by_cases hold : last.mem = a
    · refine iff_of_false ?_ fun h => hmatch ?_
      · rintro ⟨r, hr, -, -, -, -, hacc'⟩
        obtain rfl := Option.some.inj (Except.ok.inj hr)
        rw [if_pos hold] at hacc'
        cases hacc'
      · rw [h.2.1 hold, hold]
    · have hzero := signExtend_eq_setWidth_iff hword last.mem
      constructor
      · rintro ⟨r, hr, -, -, -, -, hacc'⟩
        obtain rfl := Option.some.inj (Except.ok.inj hr)
        rw [if_neg hold] at hacc'
        exact ⟨hword, fun h => absurd h hold, fun _ => hzero.1 (Option.some.inj hacc')⟩
      · rintro ⟨-, -, hfits⟩
        refine ⟨_, rfl, rfl, (if_neg hold).symm, hout, hare, ?_⟩
        rw [if_neg hold]
        exact congrArg some (hzero.2 (hfits hold))

theorem cmpxchgLoop_restart {first : Attempt w} (h : first.Restarts acc)
    (rest : List (Attempt w)) :
    cmpxchgLoop acc src want (first :: rest) = cmpxchgLoop acc src want rest := by
  have hnone : attempt acc src want first = .ok none := by
    unfold attempt
    rw [if_neg (not_not.2 h.1), h.2]
    rfl
  rw [cmpxchgLoop, hnone]
  rfl

/-- A run of the loop that starts again until the last attempt comes to an end. -/
theorem cmpxchgLoop_run {pre : List (Attempt w)} (hpre : ∀ p ∈ pre, p.Restarts acc)
    (last : Attempt w) :
    cmpxchgLoop acc src want (pre ++ [last]) = cmpxchgLoop acc src want [last] := by
  induction pre with
  | nil => rfl
  | cons first rest ih =>
    rw [List.cons_append, cmpxchgLoop_restart want (hpre first (List.mem_cons_self ..))]
    exact ih fun p hp => hpre p (List.mem_cons_of_mem first hp)

/-- The last attempt decides. -/
theorem cmpxchgLoop_last {last : Attempt w} {r : CmpxchgResult w} :
    cmpxchgLoop acc src want [last] = .ok (some r) ↔ attempt acc src want last = .ok (some r) := by
  rw [cmpxchgLoop]
  constructor
  · intro h
    obtain ⟨res, hres, hrest⟩ := bind_eq_ok.1 h
    cases res with
    | none => cases hrest
    | some res => rw [hres, ← pure_eq_ok.1 hrest]
  · intro h
    rw [h]
    rfl

end Cmpxchg

end Arancini.Riscv
