import Arancini.Ir.Eval
import Arancini.X86.Operand

/-!
# Registers of the guest

A guest has a number at each offset. `get` and `set` are its registers as bit vectors of a width,
and guests with the same registers and the same memory are the `SameGuest`, whatever is left of the
numbers above the width of a register.
-/

namespace Arancini.Ir

namespace Guest

variable {w : ℕ}

/-- The low bits of a register. -/
def get (g : Guest) (w : ℕ) (r : Reg) : BitVec w :=
  BitVec.ofNat w (g.regs r.offset)

def set (g : Guest) (r : Reg) (v : BitVec w) : Guest :=
  g.setReg r.offset v.toNat

@[simp]
theorem get_set_self (g : Guest) (r : Reg) (v : BitVec w) : (g.set r v).get w r = v := by
  simp [get, set, setReg]

@[simp]
theorem get_set_of_ne {r r' : Reg} (h : r' ≠ r) (g : Guest) (v : BitVec w) (k : ℕ) :
    (g.set r v).get k r' = g.get k r' := by
  have hne : r'.offset ≠ r.offset := fun heq => h (Reg.offset_injective heq)
  simp [get, set, setReg, hne]

@[simp]
theorem get_setMem (g : Guest) (addr v len k : ℕ) (r : Reg) :
    (g.setMem addr v len).get k r = g.get k r :=
  rfl

@[simp]
theorem mem_set (g : Guest) (r : Reg) (v : BitVec w) : (g.set r v).mem = g.mem :=
  rfl

@[simp]
theorem get_setReg_self (g : Guest) (r : Reg) (v k : ℕ) :
    (g.setReg r.offset v).get k r = BitVec.ofNat k v := by
  simp [get, setReg]

@[simp]
theorem get_setReg_of_ne {r r' : Reg} (h : r' ≠ r) (g : Guest) (v k : ℕ) :
    (g.setReg r.offset v).get k r' = g.get k r' := by
  have hne : r'.offset ≠ r.offset := fun heq => h (Reg.offset_injective heq)
  simp [get, setReg, hne]

@[simp]
theorem mem_setReg (g : Guest) (off v : ℕ) : (g.setReg off v).mem = g.mem :=
  rfl

end Guest

end Arancini.Ir

namespace Arancini.X86

open Ir

/-- A register of fewer bits is the low part of it. -/
theorem get_of_le {w k : ℕ} (h : w ≤ k) (g : Guest) (r : Reg) :
    g.get w r = (g.get k r).setWidth w := by
  apply BitVec.eq_of_toNat_eq
  rw [Guest.get, Guest.get, BitVec.toNat_setWidth, BitVec.toNat_ofNat, BitVec.toNat_ofNat,
    Nat.mod_mod_of_dvd _ (pow_dvd_pow 2 h)]

/-- The width of what a register holds. -/
def holdWidth : Reg → ℕ
  | .ZF | .CF | .OF | .SF | .PF | .DF => 1
  | r => 8 * r.bytes

/-- The guests have the same registers and the same memory. -/
structure SameGuest (g g' : Guest) : Prop where
  regs : ∀ r, g.get (holdWidth r) r = g'.get (holdWidth r) r
  mem : g.mem = g'.mem

section SameGuest

variable {g g' g'' : Guest} {r r' : Reg} {m n : ℕ}

theorem SameGuest.refl (g : Guest) : SameGuest g g :=
  ⟨fun _ => rfl, rfl⟩

theorem SameGuest.setReg (h : SameGuest g g')
    (heq : BitVec.ofNat (holdWidth r) m = BitVec.ofNat (holdWidth r) n) :
    SameGuest (g.setReg r.offset m) (g'.setReg r.offset n) := by
  refine ⟨fun r' => ?_, h.mem⟩
  by_cases hr : r' = r
  · subst hr
    rw [Guest.get_setReg_self, Guest.get_setReg_self, heq]
  · rw [Guest.get_setReg_of_ne hr, Guest.get_setReg_of_ne hr, h.regs]

theorem sameGuest_setReg_iff : SameGuest (g.setReg r.offset m) (g.setReg r.offset n) ↔
    BitVec.ofNat (holdWidth r) m = BitVec.ofNat (holdWidth r) n := by
  refine ⟨fun h => ?_, (SameGuest.refl g).setReg⟩
  have hr := h.regs r
  rwa [Guest.get_setReg_self, Guest.get_setReg_self] at hr

theorem setReg_comm (h : r ≠ r') (g : Guest) (m n : ℕ) :
    (g.setReg r.offset m).setReg r'.offset n = (g.setReg r'.offset n).setReg r.offset m := by
  have hne : r.offset ≠ r'.offset := fun heq => h (Reg.offset_injective heq)
  rw [Guest.setReg, Guest.setReg, Guest.setReg, Guest.setReg, Function.update_comm hne]

theorem setReg_setReg (r : Reg) (g : Guest) (m n : ℕ) :
    (g.setReg r.offset m).setReg r.offset n = g.setReg r.offset n := by
  rw [Guest.setReg, Guest.setReg, Guest.setReg, Function.update_idem]

end SameGuest

end Arancini.X86
