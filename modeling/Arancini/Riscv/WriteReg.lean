import Arancini.X86.Reg
import Arancini.Riscv.Mul

/-!
# Register writes in the two back-ends

A `write_reg` may write a value that is narrower than the register. The static back-end
extends it with zeros to the type of the register. The dynamic back-end moves the host
register that carries the value, as it is, and what that holds above the width of the value
depends on how the value was computed (`writeReg_agree_iff`). The two narrow writes of the
translators are at the end : `MUL` and `IMUL` of bytes, and `CWD`.
-/

namespace Arancini.Riscv

/-! ## The two lowerings -/

/-- Width of a register of the guest. -/
def bits (r : Reg) : ℕ :=
  8 * r.bytes

/-- `write_reg` of the static back-end : `CreateZExtOrBitCast` to the type of the register, which
is not defined on a wider value. -/
def llvmWriteReg (r : Reg) {n : ℕ} (v : BitVec n) : Option (BitVec (bits r)) :=
  if n ≤ bits r then some (v.setWidth (bits r)) else none

/-- A mapped register of the guest in the dynamic back-end : its slot in the CPU state, and its
host register once it has been loaded or written. -/
structure Held where
  cpu : BitVec 64
  host : Option (BitVec 64)

/-- What a later read of the register finds. -/
def Held.content (s : Held) (r : Reg) : BitVec (bits r) :=
  (s.host.getD s.cpu).setWidth (bits r)

/-- A store of the low bits. -/
def Held.store (s : Held) (n : ℕ) (val : BitVec 64) : Held :=
  { s with cpu := ((s.cpu >>> n) <<< n) ||| (val.setWidth n).setWidth 64 }

/-- `materialise_write_reg` of an integer of width `n` in the host register `val`. -/
def materialiseWriteReg (r : Reg) (n : ℕ) (val : BitVec 64) (s : Held) : Except String Held :=
  if n ∈ widths then
    -- not a general register
    if r.idx > Reg.R15.idx ∨ r.idx < Reg.RAX.idx then .ok (s.store n val)
    else .ok { s with host := some val }
  else if n = 1 then .ok { s with host := some val }
  else .error "Unsupported width on register write"

/-- An operand carries an integer. Flags are always zero extended. -/
def Operand.Holds {n : ℕ} (v : BitVec n) (o : Operand) : Prop :=
  if n = 1 then o.materialise.val = v.setWidth 64 else o.Carries v

/-- After the write the register has the same content in both back-ends. -/
def Agree (r : Reg) {n : ℕ} (v : BitVec n) (o : Operand) (s : Held) : Prop :=
  ∃ c s', llvmWriteReg r v = some c ∧
    materialiseWriteReg r n o.materialise.val s = .ok s' ∧ s'.content r = c

/-! ## When they agree -/

/-- The general registers. -/
def IsGpr (r : Reg) : Prop :=
  Reg.RAX.idx ≤ r.idx ∧ r.idx ≤ Reg.R15.idx

/-- The flags. -/
def IsFlag (r : Reg) : Prop :=
  Reg.ZF.idx ≤ r.idx ∧ r.idx ≤ Reg.unused3.idx

instance (r : Reg) : Decidable (IsGpr r) :=
  inferInstanceAs (Decidable (_ ∧ _))

theorem bits_of_isGpr {r : Reg} (hr : IsGpr r) : bits r = 64 := by
  cases r <;> first | rfl | (simp only [IsGpr, Reg.idx] at hr; omega)

theorem bits_of_isFlag {r : Reg} (hr : IsFlag r) : bits r = 8 := by
  cases r <;> first | rfl | (simp only [IsFlag, Reg.idx] at hr; omega)

section Agree

variable {r : Reg} {n : ℕ} {v : BitVec n} {o : Operand} {s : Held}

/-- Once the dynamic back-end has lowered the write. -/
theorem agree_iff {s' : Held} (hw : materialiseWriteReg r n o.materialise.val s = .ok s') :
    Agree r v o s ↔ n ≤ bits r ∧ s'.content r = v.setWidth (bits r) := by
  unfold Agree llvmWriteReg
  constructor
  · rintro ⟨c, t, hc, ht, hcontent⟩
    cases hw.symm.trans ht
    split at hc
    · next hle =>
      cases hc
      exact ⟨hle, hcontent⟩
    · cases hc
  · rintro ⟨hle, hcontent⟩
    exact ⟨_, s', if_pos hle, hw, hcontent⟩

/-- A host register is the zero extension of its low bits if those above are zero. -/
theorem eq_setWidth_iff {x : BitVec 64} (hn : n ≤ 64) (hx : x.setWidth n = v) :
    x = v.setWidth 64 ↔ x >>> n = 0 := by
  have hlow : x.toNat % 2 ^ n = v.toNat := by
    rw [← hx, BitVec.toNat_setWidth]
  rw [ushiftRight_eq_zero_iff, ← BitVec.toNat_inj, toNat_setWidth_of_le hn, ← hlow, eq_comm,
    Nat.mod_eq_iff_lt (by simp)]

/-- A flag, or a value of one bit in a general register. -/
theorem agree_of_bit (hr : IsGpr r ∨ IsFlag r) {v : BitVec 1} (ho : o.Holds v) :
    Agree r v o s := by
  have hval : o.materialise.val = v.setWidth 64 := ho
  have hle : 1 ≤ bits r ∧ bits r ≤ 64 := by
    rcases hr with hr | hr
    · simp [bits_of_isGpr hr]
    · simp [bits_of_isFlag hr]
  have hwrite : materialiseWriteReg r 1 o.materialise.val s =
      .ok { s with host := some o.materialise.val } := rfl
  refine (agree_iff hwrite).2 ⟨hle.1, ?_⟩
  rw [Held.content, hval]
  exact BitVec.setWidth_setWidth_of_le v hle.2

/-- A wider value in a general register. -/
theorem agree_gpr_iff (hr : IsGpr r) (hn : n ∈ widths) (ho : o.Carries v) :
    Agree r v o s ↔ o.materialise.val >>> n = 0 := by
  have hle := (le_of_mem_widths hn).2
  have hbits := bits_of_isGpr hr
  have hw : materialiseWriteReg r n o.materialise.val s =
      .ok { s with host := some o.materialise.val } := by
    have hidx : ¬ (r.idx > Reg.R15.idx ∨ r.idx < Reg.RAX.idx) := by
      unfold IsGpr at hr
      omega
    rw [materialiseWriteReg, if_pos hn, if_neg hidx]
  rw [agree_iff hw, ← eq_setWidth_iff hle (ho.content hn).low]
  simp only [Held.content, Option.getD_some]
  generalize bits r = w at hbits ⊢
  subst hbits
  simp [hle]

/-- A wider value in a flag goes to the CPU state, past the mapped register. -/
theorem agree_flag_iff (hr : IsFlag r) (hn : n ∈ widths) (ho : o.Carries v) :
    Agree r v o s ↔ n = 8 ∧ ∀ h, s.host = some h → h.setWidth n = v := by
  have hle := (le_of_mem_widths hn).2
  have hlow := (ho.content hn).low
  have hbits := bits_of_isFlag hr
  have hw : materialiseWriteReg r n o.materialise.val s = .ok (s.store n o.materialise.val) := by
    have hidx : r.idx > Reg.R15.idx ∨ r.idx < Reg.RAX.idx := by
      simp only [IsFlag, Reg.idx] at hr ⊢
      omega
    rw [materialiseWriteReg, if_pos hn, if_pos hidx]
  rw [agree_iff hw]
  simp only [Held.content, Held.store]
  generalize bits r = w at hbits ⊢
  subst hbits
  by_cases h8 : n = 8
  · subst h8
    cases s.host with
    | none => simpa using hlow
    | some h => simp
  · have hgt : ¬ n ≤ 8 := by
      simp only [widths, List.mem_cons, List.not_mem_nil, or_false] at hn
      omega
    simp [h8, hgt]

end Agree

/-- `bit_extract` of a general register into a register of width `n`. -/
def bitExtract (n fromBit length : ℕ) (src : TypedRegister) : TypedRegister :=
  if fromBit = 0 ∧ length = 32 then (TypedRegister.fresh n).widen (sextw src.val)
  else
    let temp := if length + fromBit < 64 then slli src.val (64 - (fromBit + length)) else src.val
    (TypedRegister.fresh n).widen (srai temp (64 - length))

/-- The value `CWD` writes to `RDX` : the upper half of `AX`, sign-extended to 32 bits. -/
def cwdValue (rax : BitVec 64) : Except String TypedRegister := do
  let ax := { TypedRegister.fresh 16 with val := rax }
  let sx ← castTo .signed 16 32 ax
  return bitExtract 16 16 16 sx

theorem cwdValue_eq (rax : BitVec 64) :
    ∃ r, cwdValue rax = .ok r ∧ r.width = 64 ∧
      r.val = if (rax.setWidth 16).toInt < 0 then -1 else 0 := by
  obtain ⟨r, hcast, hval⟩ := castTo_signed (h := 16) (w := 32) (by decide) (by decide)
    (r := { TypedRegister.fresh 16 with val := rax }) (.inl rfl)
  refine ⟨bitExtract 16 16 16 r, by simp only [cwdValue, hcast, ok_bind]; rfl, rfl, ?_⟩
  have hval : r.val = sext 16 rax := hval
  have hint : r.val.toInt = (rax.setWidth 16).toInt := by
    rw [hval, sext, toInt_signExtend (by decide)]
  have hl := (rax.setWidth 16).le_toInt
  have hu := (rax.setWidth 16).toInt_lt
  have hsext : sext 32 r.val = r.val :=
    (sext_eq_self_iff (by decide) (by decide)).2 ⟨by omega, by omega⟩
  -- shifting by 32 and back does nothing, and by 16 more leaves the sign
  have hext : (bitExtract 16 16 16 r).val = r.val.sshiftRight 16 := by
    change (r.val <<< (64 - 32)).sshiftRight ((64 - 32) + 16) = _
    rw [BitVec.sshiftRight_add, sshiftRight_shiftLeft (by decide) (by decide), hsext]
  rw [hext]
  refine BitVec.eq_of_toInt_eq ?_
  rw [BitVec.toInt_sshiftRight, Int.shiftRight_eq_div_pow, hint]
  split
  · change _ = -1
    omega
  · change _ = 0
    omega

/-- `CWD` : the back-ends agree if `AX` is not negative. -/
theorem agree_cwd_iff (rax : BitVec 64) (s : Held) :
    (∃ r, cwdValue rax = .ok r ∧ Agree .RDX (r.val.setWidth 16) (.reg r) s) ↔
      0 ≤ (rax.setWidth 16).toInt := by
  obtain ⟨r, hr, hwidth, hval⟩ := cwdValue_eq rax
  have hcarries : (Operand.reg r).Carries (r.val.setWidth 16) := by
    refine carries_of_eq_signExtend (by decide) hwidth ?_
    rw [hval]
    split <;> decide
  have hagree := agree_gpr_iff (r := .RDX) (s := s) (by decide) (by decide) hcarries
  have hiff : r.val >>> 16 = 0 ↔ 0 ≤ (rax.setWidth 16).toInt := by
    rw [hval]
    split
    · next hneg => exact iff_of_false (by decide) (by omega)
    · next hneg => exact iff_of_true (by decide) (by omega)
  constructor
  · rintro ⟨r', hr', h⟩
    cases hr.symm.trans hr'
    exact hiff.1 (hagree.1 h)
  · intro h
    exact ⟨r, hr, hagree.2 (hiff.2 h)⟩

/-- `MUL` and `IMUL` of bytes : the back-ends agree if the product is not negative. -/
theorem agree_mul_iff {cls : Class} {lhs rhs : TypedRegister} {a b : BitVec 8}
    (hlhs : (Operand.reg lhs).Factor cls a) (hrhs : (Operand.reg rhs).Factor cls b)
    (of cf : Bool) (s : Held) :
    (∃ out ofReg cfReg, materialiseMul cls 8 8 16 lhs (.reg rhs) of cf =
        .ok (out, ofReg, cfReg) ∧
      Agree .RAX (out.value 16) (.reg { TypedRegister.fresh 16 with val := out.reg1 }) s) ↔
      0 ≤ cls.toInt a * cls.toInt b := by
  obtain ⟨x, y, out, hx, hy, hmul, hval, hres⟩ := materialiseMul_eq (w := 16) (by decide)
    (by decide) (by decide) (by decide) (by decide) hlhs hrhs of cf
  cases hmul
  have hcarries : (Operand.reg { TypedRegister.fresh 16 with val := x * y }).Carries
      ((Product.mk (x * y) 0).value 16) := by
    refine carries_of_setWidth (by simp [TypedRegister.fresh, widths]) rfl ?_
    rw [Product.value_of_le (by decide)]
  have hagree := agree_gpr_iff (r := .RAX) (s := s) (by decide) (by decide) hcarries
  have ha := cls.fits_toInt (k := 8) le_rfl a
  have hb := cls.fits_toInt (k := 8) le_rfl b
  have hfits := ha.mul (by decide) hb
  have hprod := toInt_mul_of_fits (hx ▸ ha.mono (by decide)) (hy ▸ hb.mono (by decide))
  have hiff : (x * y) >>> 16 = 0 ↔ 0 ≤ cls.toInt a * cls.toInt b := by
    rw [ushiftRight_eq_zero_iff, ← hx, ← hy, ← hprod]
    rw [← hx, ← hy, ← hprod] at hfits
    cases cls with
    | signed =>
      have hsign := toNat_cases (by decide) (x * y)
      simp only [Class.toInt, Class.Fits] at hfits ⊢
      omega
    | unsigned =>
      simp only [Class.toInt, Class.Fits] at hfits ⊢
      omega
  constructor
  · rintro ⟨out', ofReg, cfReg, hres', h⟩
    cases hres.symm.trans hres'
    exact hiff.1 (hagree.1 h)
  · intro h
    exact ⟨_, _, _, hres, hagree.2 (hiff.2 h)⟩

end Arancini.Riscv
