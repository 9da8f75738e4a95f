import Mathlib.Data.BitVec
import Arancini.X86.Rep
import Arancini.X86.Straight

/-!
# Operands as nodes

`compute_address` and `read_operand` insert the nodes of an operand. The address has up to four
parts, and a part that is not there has no nodes. `Block` says of each that values are inserted, and
what they come to.
-/

namespace Arancini.X86

open Ir

/-! ## Memory operands -/

inductive BaseReg
  | rip
  | gpr (num : Fin 16)

inductive Scale
  | one
  | two
  | four
  | eight

/-- `xed_decoded_inst_get_scale`. -/
def Scale.val : Scale → ℕ
  | one => 1
  | two => 2
  | four => 4
  | eight => 8

/-- The segments whose base is in a register. -/
inductive SegReg
  | FS
  | GS

def SegReg.reg : SegReg → Reg
  | FS => .FS
  | GS => .GS

/-- A memory operand with an address of 64 bits. -/
structure MemOperand where
  base : Option BaseReg
  index : Option (Fin 16)
  scale : Scale
  displ : BitVec 64
  seg : Option SegReg

namespace Builder

def readPc : Builder Port :=
  insert (.u 64) .readPc

/-- `read_reg` of 64 bits. -/
def readReg64 (r : Reg) : Builder Port :=
  readReg (.u 64) r r.name

/-- `insert_add`, if there is something to add to. -/
def addTo (addressBase : Option Port) (v : Port) : Builder Port :=
  match addressBase with
  | some addressBase => binop .add addressBase v
  | none => pure v

/-- Zero, if there is nothing. -/
def orZero (addressBase : Option Port) : Builder Port :=
  match addressBase with
  | some addressBase => pure addressBase
  | none => const (.u 64) 0

end Builder

namespace MemOperand

/-- The shift for the scale. -/
def shift (m : MemOperand) : ℕ :=
  if m.scale.val = 1 then 0
  else if m.scale.val = 2 then 1
  else if m.scale.val = 4 then 2
  else if m.scale.val = 8 then 3
  else 0

/-- The base in `compute_address`. -/
def addressBase (length : ℕ) (m : MemOperand) : Builder (Option Port) :=
  match m.base with
  | some .rip => do
    let pc ← Builder.readPc
    let base ← Builder.binop .add pc (← Builder.const (.u 64) length)
    return some base
  | some (.gpr num) => do
    let base ← Builder.readReg64 (gprReg num)
    return some base
  | none => pure none

def scaledIndex (m : MemOperand) (index : Fin 16) : Builder Port := do
  if m.shift ≠ 0 then
    let index ← Builder.readReg64 (gprReg index)
    Builder.lsl index (← Builder.const (.u 64) m.shift)
  else Builder.readReg64 (gprReg index)

def addIndex (m : MemOperand) (addressBase : Option Port) : Builder (Option Port) :=
  match m.index with
  | some index => do
    let address ← Builder.addTo addressBase (← m.scaledIndex index)
    return some address
  | none => pure addressBase

def addDispl (m : MemOperand) (addressBase : Option Port) : Builder (Option Port) :=
  if m.displ ≠ 0 then do
    let address ← Builder.addTo addressBase (← Builder.const (.u 64) m.displ.toNat)
    return some address
  else pure addressBase

def addSeg (m : MemOperand) (address : Port) : Builder Port :=
  match m.seg with
  | some seg => do
    let base ← Builder.readReg64 seg.reg
    Builder.binop .add address base
  | none => pure address

/-- `compute_address`, in an instruction of this length. -/
def computeAddress (length : ℕ) (m : MemOperand) : Builder Port := do
  let address ← m.addDispl (← m.addIndex (← m.addressBase length))
  m.addSeg (← Builder.orZero address)

end MemOperand

/-! ## Reading an operand -/

/-- An operand that is read. -/
inductive SourceOperand
  | reg (ow : OpWidth) (num : Fin 16)
  | seg (seg : SegReg)
  | imm (signed : Bool) (w : ℕ) (value : BitVec w)
  | mem (m : MemOperand) (length : ℕ)
  | relbr (displ : BitVec 32)

/-- The type of a memory operand of this length. -/
def memType (length : ℕ) : Except String ValueType :=
  match length with
  | 1 => .ok (.u 8)
  | 2 => .ok (.u 16)
  | 4 => .ok (.u 32)
  | 8 => .ok (.u 64)
  | 10 => .ok (.f 80)
  | 16 => .ok (.u 128)
  | _ => .error "invalid memory width in read"

/-- `read_operand`, in an instruction of this length. -/
def readOperand (length : ℕ) : SourceOperand → Except String (Builder Port)
  | .reg ow num => .ok (Builder.readReg ow.type (gprReg num) (gprReg num).name)
  | .seg _ => .error "unsupported register class"
  | .imm signed w value =>
    if w ∈ [8, 16, 32, 64] then
      .ok (if signed then Builder.const (.s w) (value.signExtend 64).toNat
        else Builder.const (.u w) value.toNat)
    else .error "unsupported immediate width"
  | .mem m len => do
    let vt ← memType len
    return do
      let addr ← m.computeAddress length
      Builder.readMem vt addr
  | .relbr displ => .ok (Builder.const (.u 64) (displ.signExtend 64).toNat)

/-! ## What they come to -/

theorem Block.readPc {address : ℕ} {known : Port → ℕ → Prop} {g : Guest} {nodes mid : List Node}
    (h : Grown nodes mid) :
    Block address known g nodes (.u 64) address (Builder.readPc mid) :=
  .leaf h rfl rfl fun hle hnode => .readPc hle hnode

/-- Where an instruction is and how long it is. -/
structure Site where
  address : ℕ
  length : ℕ

/-- The address of the next instruction. -/
def Site.next (site : Site) : BitVec 64 :=
  BitVec.ofNat 64 site.address + BitVec.ofNat 64 site.length

namespace MemOperand

def baseValue (m : MemOperand) (site : Site) (g : Guest) : BitVec 64 :=
  match m.base with
  | some .rip => site.next
  | some (.gpr num) => g.get 64 (gprReg num)
  | none => 0

def indexValue (m : MemOperand) (g : Guest) : BitVec 64 :=
  match m.index with
  | some index => g.get 64 (gprReg index) * BitVec.ofNat 64 m.scale.val
  | none => 0

def segValue (m : MemOperand) (g : Guest) : BitVec 64 :=
  match m.seg with
  | some seg => g.get 64 seg.reg
  | none => 0

/-- The address that the operand has. -/
def address (m : MemOperand) (site : Site) (g : Guest) : BitVec 64 :=
  m.baseValue site g + m.indexValue g + m.displ + m.segValue g

/-- The part of an address that has been inserted comes to `x`. -/
def Partial (address : ℕ) (g : Guest) (nodes : List Node) (x : BitVec 64)
    (r : Option Port × List Node) : Prop :=
  match r.1 with
  | some o => Block address (fun _ _ => False) g nodes (.u 64) x.toNat (o, r.2)
  | none => Grown nodes r.2 ∧ x = 0

section Address

variable {site : Site} {g : Guest} {nodes : List Node} {m : MemOperand} {x y : BitVec 64}
  {r : Option Port × List Node}

theorem partial_addressBase (site : Site) (g : Guest) (nodes : List Node) (m : MemOperand) :
    Partial site.address g nodes (m.baseValue site g) (m.addressBase site.length nodes) := by
  unfold addressBase baseValue
  cases m.base with
  | none => exact ⟨.refl nodes, rfl⟩
  | some base =>
    cases base with
    | gpr num => exact .readReg (.refl nodes) 64 (gprReg num) _
    | rip =>
      have hpc : Block site.address (fun _ _ => False) g nodes (.u 64) site.address
          (Builder.readPc nodes) :=
        .readPc (.refl nodes)
      exact hpc.add (.const (.refl _) (.u 64) site.length) rfl rfl

/-- Add a part. -/
theorem partial_addTo (h : Partial site.address g nodes x r) {b : Port × List Node}
    (hb : Block site.address (fun _ _ => False) g r.2 (.u 64) y.toNat b) :
    Block site.address (fun _ _ => False) g nodes (.u 64) (x + y).toNat
      (Builder.addTo r.1 b.1 b.2) := by
  obtain ⟨o, mid⟩ := r
  cases o with
  | none =>
    obtain ⟨hgrown, rfl⟩ := h
    rw [zero_add]
    exact hb.since hgrown
  | some o =>
    have hsum : Block site.address (fun _ _ => False) g nodes (.u 64) (x + y).toNat
        (Builder.binop .add (o, mid).1 b.1 b.2) :=
      Block.add h hb (ofNat_toNat_self x) (ofNat_toNat_self y)
    exact hsum

theorem shiftLeft_shift (x : BitVec 64) (m : MemOperand) :
    x <<< m.shift = x * BitVec.ofNat 64 m.scale.val := by
  have hpow : BitVec.twoPow 64 m.shift = BitVec.ofNat 64 m.scale.val := by
    unfold shift
    cases m.scale <;> rfl
  rw [BitVec.shiftLeft_eq_mul_twoPow, hpow]

theorem block_scaledIndex (site : Site) (g : Guest) (nodes : List Node) (m : MemOperand)
    (index : Fin 16) :
    Block site.address (fun _ _ => False) g nodes (.u 64)
      (g.get 64 (gprReg index) * BitVec.ofNat 64 m.scale.val).toNat
      (m.scaledIndex index nodes) := by
  have hreg : Block site.address (fun _ _ => False) g nodes (.u 64)
      (g.get 64 (gprReg index)).toNat (Builder.readReg64 (gprReg index) nodes) :=
    .readReg (.refl nodes) 64 (gprReg index) _
  rw [← shiftLeft_shift]
  by_cases hshift : m.shift = 0
  · rw [scaledIndex, if_neg (not_not_intro hshift), hshift, BitVec.shiftLeft_zero]
    exact hreg
  · have hlsl := hreg.lsl (.const (.refl _) (.u 64) m.shift)
    rw [ofNat_toNat_self] at hlsl
    rw [scaledIndex, if_pos hshift]
    exact hlsl

theorem partial_addIndex (h : Partial site.address g nodes x r) :
    Partial site.address g nodes (x + m.indexValue g) (m.addIndex r.1 r.2) := by
  unfold addIndex indexValue
  cases m.index with
  | none =>
    rw [add_zero]
    exact h
  | some index => exact partial_addTo h (block_scaledIndex site g r.2 m index)

theorem partial_addDispl (h : Partial site.address g nodes x r) :
    Partial site.address g nodes (x + m.displ) (m.addDispl r.1 r.2) := by
  unfold addDispl
  by_cases hdispl : m.displ = 0
  · rw [hdispl, add_zero]
    exact h
  · rw [if_pos hdispl]
    exact partial_addTo h (.const (.refl _) (.u 64) m.displ.toNat)

theorem block_orZero (h : Partial site.address g nodes x r) :
    Block site.address (fun _ _ => False) g nodes (.u 64) x.toNat (Builder.orZero r.1 r.2) := by
  obtain ⟨o, mid⟩ := r
  cases o with
  | none =>
    obtain ⟨hgrown, rfl⟩ := h
    exact .const hgrown (.u 64) 0
  | some o => exact h

theorem block_addSeg {b : Port × List Node}
    (h : Block site.address (fun _ _ => False) g nodes (.u 64) x.toNat b) :
    Block site.address (fun _ _ => False) g nodes (.u 64) (x + m.segValue g).toNat
      (m.addSeg b.1 b.2) := by
  unfold addSeg segValue
  cases m.seg with
  | none =>
    simp only [add_zero]
    exact h
  | some seg =>
    have hreg : Block site.address (fun _ _ => False) g b.2 (.u 64) (g.get 64 seg.reg).toNat
        (Builder.readReg64 seg.reg b.2) :=
      .readReg (.refl b.2) 64 seg.reg _
    exact h.add hreg (ofNat_toNat_self x) (ofNat_toNat_self _)

/-- `compute_address` is right in the guest that it is evaluated in. -/
theorem block_computeAddress (site : Site) (g : Guest) (nodes : List Node) (m : MemOperand) :
    Block site.address (fun _ _ => False) g nodes (.u 64) (m.address site g).toNat
      (m.computeAddress site.length nodes) := by
  have hindex := partial_addIndex (m := m) (partial_addressBase site g nodes m)
  exact block_addSeg (block_orZero (partial_addDispl hindex))

end Address

end MemOperand

end Arancini.X86
