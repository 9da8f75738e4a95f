import Arancini.Ir.Memory
import Arancini.X86.Stack

/-!
# What stack instructions are to do

`Effect` is the instruction for its own size of operand, `Slot`, with addresses and targets in the
guest before it. `Fits` says when the packet does the same :

* an immediate is stored with its own width, so that the bytes above it have to be there already
  (`HighBytes`);
* a word moves `RSP` by eight, and there is no translation for segment registers;
* `POP RSP` has the new pointer written over what was popped;
* the operand of `CALL` is looked for with the lowered `RSP` (`lowered`);
* the immediate of `RET` is not added, and far calls and returns are near ones.

`PUSH` and `POP` after each other hide what is wrong with words, `CALL` and `RET` everything.
-/

namespace Arancini.X86

open Ir

/-! ## The reference -/

namespace Slot

/-- What is at an address. -/
def load (slot : Slot) (g : Guest) (x : BitVec 64) : BitVec slot.bits :=
  BitVec.ofNat _ (Guest.load g.mem x.toNat slot.bytes)

/-- What is at the top of the stack. -/
def top (slot : Slot) (g : Guest) : BitVec slot.bits :=
  slot.load g (g.get 64 .RSP)

/-- The register of this size is written. -/
def write (slot : Slot) (num : Fin 16) (v : BitVec slot.bits) (g : Guest) : Guest :=
  match slot, v with
  | word, v => g.set (gprReg num) (insertField (g.get 64 (gprReg num)) 0 16 v)
  | qword, v => g.set (gprReg num) v

/-- A value is pushed. -/
def pushed (slot : Slot) (v : BitVec slot.bits) (g : Guest) : Guest :=
  (g.setMem (g.get 64 .RSP - BitVec.ofNat 64 slot.bytes).toNat v.toNat slot.bytes).set .RSP
    (g.get 64 .RSP - BitVec.ofNat 64 slot.bytes)

/-- The pointer moves over a value. -/
def popped (slot : Slot) (g : Guest) : Guest :=
  g.set .RSP (g.get 64 .RSP + BitVec.ofNat 64 slot.bytes)

end Slot

/-- The operand has this value. A selector is no part of the guest. -/
def PushOperand.Pushes {slot : Slot} (site : Site) (g : Guest) (op : PushOperand slot)
    (v : BitVec slot.bits) : Prop :=
  match op with
  | reg num => v = g.get slot.bits (gprReg num)
  | seg _ => ∃ selector : BitVec 16, v = selector.setWidth slot.bits
  | imm8 value => v = value.signExtend slot.bits
  | immz value => v = value.signExtend slot.bits
  | mem m => v = slot.load g (m.address site g)

/-- The address that the target has in the guest `g`. -/
def CallTarget.value (site : Site) (g : Guest) : CallTarget → BitVec 64
  | rel displ => site.next + displ.signExtend 64
  | reg num => g.get 64 (gprReg num)
  | mem m => Slot.qword.load g (m.address site g)

/-- A far call pushes the selector and the address of the next instruction, and goes to the address
in memory. -/
def farCall (site : Site) (size : FarSize) (m : MemOperand) (selector : BitVec 16) (g : Guest) :
    Guest :=
  let rsp := g.get 64 .RSP - BitVec.ofNat 64 (2 * size.bytes)
  (((g.setMem (rsp.toNat + size.bytes) selector.toNat size.bytes).setMem rsp.toNat site.next.toNat
    size.bytes).set .RSP rsp).set .PC
      (BitVec.ofNat 64 (Guest.load g.mem (m.address site g).toNat size.bytes))

/-- The selector that a far return finds. -/
def farSelector (size : FarSize) (g : Guest) : BitVec 16 :=
  BitVec.ofNat 16 (Guest.load g.mem ((g.get 64 .RSP).toNat + size.bytes) 2)

/-- How many bytes a return releases, besides what it reads. -/
def released (imm : Option (BitVec 16)) : BitVec 64 :=
  (imm.getD 0).setWidth 64

namespace StackInst

/-- The instruction may take the guest `g` to `want`. The addresses of operands and targets are
those of the guest `g`. A far return to a null selector is a fault. -/
def Effect (site : Site) (inst : StackInst) (g want : Guest) : Prop :=
  match inst with
  | push slot op => ∃ v, op.Pushes site g v ∧ want = slot.pushed v g
  | pop slot (.reg num) => want = slot.write num (slot.top g) (slot.popped g)
  | pop slot (.seg r) => ∃ base : BitVec 64, want = (slot.popped g).set r.reg base
  | pop slot (.mem m) =>
    want = slot.popped (g.setMem (m.address site g).toNat (slot.top g).toNat slot.bytes)
  | leave slot =>
    let g := g.set .RSP (g.get 64 .RBP)
    want = slot.write 5 (slot.top g) (slot.popped g)
  | callNear target => want = (Slot.qword.pushed site.next g).set .PC (target.value site g)
  | callFar size m => ∃ selector, want = farCall site size m selector g
  | retNear imm =>
    want = (g.set .RSP (g.get 64 .RSP + 8 + released imm)).set .PC (Slot.qword.top g)
  | retFar size imm => farSelector size g >>> 2 ≠ 0 ∧
    want = (g.set .RSP (g.get 64 .RSP + BitVec.ofNat 64 (2 * size.bytes) + released imm)).set .PC
      (BitVec.ofNat 64 (Guest.load g.mem (g.get 64 .RSP).toNat size.bytes))

/-- The packet does what the instruction is to do. -/
def Right (site : Site) (inst : StackInst) (g : Guest) : Prop :=
  ∃ g' want, inst.Does site g g' ∧ inst.Effect site g want ∧ SameGuest g' want

end StackInst

/-! ## When they are right -/

/-- The bytes above the first `n` at the new top of the stack are those of `x`. -/
def HighBytes (n : ℕ) (x : BitVec 64) (g : Guest) : Prop :=
  ∀ i, n ≤ i → i < 8 →
    g.mem (((g.get 64 .RSP - 8).toNat + i) % 2 ^ 64) = x.toNat / 256 ^ i % 256

/-- `PUSH` is right. An immediate is stored without its sign extension. -/
def PushOperand.Fits (g : Guest) : {slot : Slot} → PushOperand slot → Prop
  | .word, _ => False
  | .qword, seg _ => False
  | .qword, imm8 value => HighBytes 1 (value.signExtend 64) g
  | .qword, immz value => HighBytes 4 (value.signExtend 64) g
  | .qword, reg _ => True
  | .qword, mem _ => True

/-- `POP` is right. The pointer is written after the operand and always moves by eight. -/
def PopOperand.Fits (g : Guest) : Slot → PopOperand → Prop
  | .word, reg num => gprReg num = .RSP ∧
    insertField (g.get 64 .RSP + 2) 0 16 (Slot.word.top g) = g.get 64 .RSP + 8
  | .word, _ => False
  | .qword, reg num => gprReg num = .RSP → Slot.qword.top g = (g.get 64 .RSP + 8 : BitVec 64)
  | .qword, seg _ => False
  | .qword, mem _ => True

namespace MemOperand

def baseLowered (m : MemOperand) : BitVec 64 :=
  match m.base with
  | some (.gpr num) => if gprReg num = .RSP then 8 else 0
  | some .rip | none => 0

def indexLowered (m : MemOperand) : BitVec 64 :=
  match m.index with
  | some index => (if gprReg index = .RSP then 8 else 0) * BitVec.ofNat 64 m.scale.val
  | none => 0

/-- How far an address goes down when `RSP` goes down by eight. -/
def lowered (m : MemOperand) : BitVec 64 :=
  m.baseLowered + m.indexLowered

end MemOperand

/-- `CALL` is right. An operand in memory is looked for at the lowered address, and the return
address is already in memory. -/
def CallTarget.Fits (site : Site) (g : Guest) : CallTarget → Prop
  | rel _ => True
  | reg num => gprReg num ≠ .RSP
  | mem m =>
    Slot.qword.load (Slot.qword.pushed site.next g) (m.address site g - m.lowered) =
      Slot.qword.load g (m.address site g)

namespace StackInst

def Fits (site : Site) (inst : StackInst) (g : Guest) : Prop :=
  match inst with
  | push _ op => op.Fits g
  | pop slot op => op.Fits g slot
  | leave slot => slot = .qword
  | callNear target => target.Fits site g
  | callFar .. | retFar .. => False
  | retNear imm => imm.getD 0 = 0

end StackInst

/-! ## One instruction -/

section Guests

variable {g g' : Guest}

theorem setMem_mod {len : ℕ} (hlen : len ≤ 2 ^ 64) (g : Guest) (a v : ℕ) :
    g.setMem a (v % 256 ^ len) len = g.setMem a v len := by
  rw [Guest.setMem, Guest.store_mod hlen, Guest.setMem]

theorem rsp_eq_of_sameGuest (h : SameGuest g g') : g.get 64 .RSP = g'.get 64 .RSP :=
  h.regs .RSP

theorem pc_eq_of_sameGuest (h : SameGuest g g') : g.get 64 .PC = g'.get 64 .PC :=
  h.regs .PC

end Guests

namespace StackInst

variable {site : Site} {g g' : Guest}

theorem right_iff_sameGuest {inst : StackInst} {g₁ g₂ : Guest}
    (hdoes : ∀ g', inst.Does site g g' ↔ g' = g₁)
    (heffect : ∀ want, inst.Effect site g want ↔ want = g₂) :
    inst.Right site g ↔ SameGuest g₁ g₂ := by
  constructor
  · rintro ⟨g', want, hd, he, hsame⟩
    obtain rfl := (hdoes g').1 hd
    obtain rfl := (heffect want).1 he
    exact hsame
  · intro hsame
    exact ⟨g₁, g₂, (hdoes g₁).2 rfl, (heffect g₂).2 rfl, hsame⟩

theorem rsp_pushed (slot : Slot) (v : BitVec slot.bits) (g : Guest) :
    (slot.pushed v g).get 64 .RSP = g.get 64 .RSP - BitVec.ofNat 64 slot.bytes :=
  Guest.get_set_self _ _ _

theorem rsp_of_does_push {slot : Slot} {op : PushOperand slot}
    (h : (push slot op).Does site g g') : g'.get 64 .RSP = g.get 64 .RSP - 8 := by
  obtain ⟨b, hb, hr⟩ := h
  obtain ⟨operand, hread, -⟩ := bind_eq_ok.1 hb
  obtain ⟨vt, v, hop⟩ := exists_evaluates site hread
  rw [(does_push_iff hread hop).1 ⟨b, hb, hr⟩, Guest.get_set_self]

theorem not_does_push_seg {slot : Slot} (r : SegReg) : ¬(push slot (.seg r)).Does site g g' :=
  not_does_of_error rfl

theorem not_does_pop_seg {slot : Slot} (r : SegReg) : ¬(pop slot (.seg r)).Does site g g' :=
  not_does_of_error rfl

theorem does_push_reg_iff (slot : Slot) (num : Fin 16) :
    (push slot (.reg num)).Does site g g' ↔
      g' = (g.setMem (g.get 64 .RSP - 8).toNat (g.get slot.bits (gprReg num)).toNat slot.bytes).set
        .RSP (g.get 64 .RSP - 8) := by
  have h : (push slot (.reg num)).Does site g g' ↔ _ :=
    does_push_iff rfl (evaluates_reg site.address slot.opWidth (gprReg num) _)
  cases slot <;> exact h

theorem setMem_load (slot : Slot) (g g' : Guest) (a : ℕ) (x : BitVec 64) :
    g'.setMem a (slot.load g x).toNat slot.bytes =
      g'.setMem a (Guest.load g.mem x.toNat slot.bytes) slot.bytes := by
  have hpow : 2 ^ slot.bits = 256 ^ slot.bytes := by cases slot <;> rfl
  have hlen : slot.bytes ≤ 2 ^ 64 := by cases slot <;> decide
  rw [Slot.load, BitVec.toNat_ofNat, hpow, setMem_mod hlen]

theorem does_push_mem_iff (slot : Slot) (m : MemOperand) :
    (push slot (.mem m)).Does site g g' ↔ g' = (g.setMem (g.get 64 .RSP - 8).toNat
      (slot.load g (m.address site g)).toNat slot.bytes).set .RSP (g.get 64 .RSP - 8) := by
  have hread : readOperand site.length (PushOperand.mem m : PushOperand slot).operand =
      .ok (do
        let addr ← m.computeAddress site.length
        Builder.readMem (.u slot.bits) addr) := by
    cases slot <;> rfl
  have hbytes : (ValueType.u slot.bits).width / 8 = slot.bytes := by cases slot <;> rfl
  rw [does_push_iff hread (evaluates_mem site m _), hbytes, setMem_load]

theorem does_push_imm_iff (slot : Slot) {op : PushOperand slot} {w : ℕ} {value : BitVec w}
    (hop : op.operand = .imm true w value) (hw : w ∈ [8, 16, 32, 64]) :
    (push slot op).Does site g g' ↔ g' = (g.setMem (g.get 64 .RSP - 8).toNat
      (value.signExtend 64).toNat (w / 8)).set .RSP (g.get 64 .RSP - 8) := by
  have hread : readOperand site.length op.operand =
      .ok (Builder.const (.s w) (value.signExtend 64).toNat) := by
    rw [hop, readOperand, if_pos hw]
    rfl
  have hbytes : (ValueType.s w).width / 8 = w / 8 := congrArg (· / 8) (Nat.mul_one w)
  rw [does_push_iff hread (evaluates_const site.address _ _), hbytes]

/-- The pointer moves by eight when a word is pushed. -/
theorem not_right_push_word (op : PushOperand .word) : ¬(push .word op).Right site g := by
  rintro ⟨g', want, hdoes, ⟨v, hv, rfl⟩, hsame⟩
  have hrsp := rsp_eq_of_sameGuest hsame
  rw [rsp_of_does_push hdoes, rsp_pushed] at hrsp
  exact absurd (sub_right_inj.1 hrsp) (by decide)

/-- The bytes of the sign extension are not written. -/
theorem push_imm_right_iff {op : PushOperand .qword} {w : ℕ} {value : BitVec w}
    (hop : op.operand = .imm true w value) (hw : w ∈ [8, 16, 32, 64])
    (hpushes : ∀ v, op.Pushes site g v ↔ v = value.signExtend 64) :
    (push .qword op).Right site g ↔ HighBytes (w / 8) (value.signExtend 64) g := by
  have hle : w / 8 ≤ 8 := by
    revert hw
    simp only [List.mem_cons, List.not_mem_nil, or_false]
    omega
  have hstore : HighBytes (w / 8) (value.signExtend 64) g ↔ _ :=
    (Guest.store_eq_iff hle (by decide) fun _ _ => rfl).symm
  rw [hstore]
  constructor
  · rintro ⟨g', want, hdoes, ⟨v, hv, rfl⟩, hsame⟩
    obtain rfl := (hpushes v).1 hv
    obtain rfl := (does_push_imm_iff .qword hop hw).1 hdoes
    exact hsame.mem
  · intro hmem
    refine ⟨_, _, (does_push_imm_iff .qword hop hw).2 rfl, ⟨_, (hpushes _).2 rfl, rfl⟩, ?_⟩
    exact ⟨fun _ => rfl, hmem⟩

theorem push_right_iff {slot : Slot} (op : PushOperand slot) :
    (push slot op).Right site g ↔ op.Fits g := by
  cases slot with
  | word => exact iff_of_false (not_right_push_word op) nofun
  | qword =>
    cases op with
    | reg num =>
      exact iff_of_true ⟨_, _, (does_push_reg_iff _ num).2 rfl, ⟨_, rfl, rfl⟩, .refl _⟩ trivial
    | seg r => exact iff_of_false (fun ⟨_, _, hdoes, _⟩ => not_does_push_seg r hdoes) id
    | imm8 value =>
      have hop : (PushOperand.imm8 value : PushOperand .qword).operand = .imm true 8 value := rfl
      exact push_imm_right_iff hop (by decide) fun _ => .rfl
    | immz value =>
      have hop : (PushOperand.immz value : PushOperand .qword).operand = .imm true 32 value := rfl
      exact push_imm_right_iff hop (by decide) fun _ => .rfl
    | mem m =>
      exact iff_of_true ⟨_, _, (does_push_mem_iff _ m).2 rfl, ⟨_, rfl, rfl⟩, .refl _⟩ trivial

theorem rsp_of_does_pop {slot : Slot} {op : PopOperand} (h : (pop slot op).Does site g g') :
    g'.get 64 .RSP = g.get 64 .RSP + 8 := by
  cases op with
  | reg num => rw [(does_pop_reg_iff slot num).1 h, Guest.get_set_self]
  | seg r => exact absurd h (not_does_pop_seg r)
  | mem m => rw [(does_pop_mem_iff slot m).1 h, Guest.get_set_self]

theorem holdWidth_gprReg (num : Fin 16) : holdWidth (gprReg num) = 64 := by
  revert num
  decide

theorem sameGuest_set_iff {r : Reg} (hr : holdWidth r = 64) {x y : BitVec 64} :
    SameGuest (g.set r x) (g.set r y) ↔ x = y := by
  refine sameGuest_setReg_iff.trans ?_
  rw [hr, ofNat_toNat_self, ofNat_toNat_self]

/-- `POP RSP` has the pointer written twice. -/
theorem does_pop_rsp_iff (slot : Slot) {num : Fin 16} (hnum : gprReg num = .RSP) :
    (pop slot (.reg num)).Does site g g' ↔ g' = g.set .RSP (g.get 64 .RSP + 8) := by
  rw [does_pop_reg_iff, hnum, Guest.set, Guest.set, setReg_setReg]

theorem pop_word_reg_right_iff (num : Fin 16) :
    (pop .word (.reg num)).Right site g ↔ gprReg num = .RSP ∧
      insertField (g.get 64 .RSP + 2) 0 16 (Slot.word.top g) = g.get 64 .RSP + 8 := by
  by_cases hnum : gprReg num = .RSP
  · have heffect : ∀ want, (pop .word (.reg num)).Effect site g want ↔ want =
        g.set .RSP (insertField (g.get 64 .RSP + 2) 0 16 (Slot.word.top g)) := by
      intro want
      rw [Effect, Slot.write, hnum, Slot.popped, Guest.get_set_self, Guest.set, Guest.set,
        setReg_setReg]
      rfl
    rw [right_iff_sameGuest (fun _ => does_pop_rsp_iff .word hnum) heffect,
      sameGuest_set_iff rfl, and_iff_right hnum, eq_comm]
  · refine iff_of_false ?_ fun h => hnum h.1
    rintro ⟨g', want, hdoes, rfl, hsame⟩
    have hrsp := rsp_eq_of_sameGuest hsame
    rw [rsp_of_does_pop hdoes, Slot.write, Guest.get_set_of_ne (Ne.symm hnum), Slot.popped,
      Guest.get_set_self] at hrsp
    exact absurd (add_right_inj _ |>.1 hrsp) (by decide)

theorem pop_qword_reg_right_iff (num : Fin 16) :
    (pop .qword (.reg num)).Right site g ↔
      (gprReg num = .RSP → Slot.qword.top g = (g.get 64 .RSP + 8 : BitVec 64)) := by
  by_cases hnum : gprReg num = .RSP
  · have heffect : ∀ want, (pop .qword (.reg num)).Effect site g want ↔ want =
        g.set .RSP (Slot.qword.top g) := by
      intro want
      rw [Effect, Slot.write, hnum, Slot.popped, Guest.set, Guest.set, setReg_setReg]
      rfl
    rw [right_iff_sameGuest (fun _ => does_pop_rsp_iff .qword hnum) heffect,
      forall_prop_of_true hnum]
    exact (sameGuest_set_iff rfl).trans eq_comm
  · refine iff_of_true ⟨_, _, (does_pop_reg_iff .qword num).2 rfl, rfl, ?_⟩ fun h => absurd h hnum
    rw [Slot.write, Slot.popped, Guest.set, Guest.set, Guest.set, setReg_comm hnum]
    refine (SameGuest.refl _).setReg ?_
    rw [holdWidth_gprReg]
    exact (ofNat_toNat_self (Slot.qword.top g)).symm

theorem pop_right_iff (slot : Slot) (op : PopOperand) :
    (pop slot op).Right site g ↔ op.Fits g slot := by
  cases op with
  | reg num =>
    cases slot with
    | word => exact pop_word_reg_right_iff num
    | qword => exact pop_qword_reg_right_iff num
  | seg r =>
    have hfits : ¬PopOperand.Fits g slot (.seg r) := by cases slot <;> exact id
    exact iff_of_false (fun ⟨_, _, hdoes, _⟩ => not_does_pop_seg r hdoes) hfits
  | mem m =>
    cases slot with
    | word =>
      refine iff_of_false ?_ id
      rintro ⟨g', want, hdoes, rfl, hsame⟩
      have hrsp := rsp_eq_of_sameGuest hsame
      rw [rsp_of_does_pop hdoes, Slot.popped, Guest.get_set_self, Guest.get_setMem] at hrsp
      exact absurd (add_right_inj _ |>.1 hrsp) (by decide)
    | qword =>
      refine iff_of_true ⟨_, _, (does_pop_mem_iff .qword m).2 rfl, rfl, ?_⟩ trivial
      rw [Slot.popped, Slot.top, setMem_load]
      exact .refl _

theorem leave_right_iff (slot : Slot) : (leave slot).Right site g ↔ slot = .qword := by
  cases slot with
  | word =>
    refine iff_of_false ?_ nofun
    rintro ⟨g', want, hdoes, rfl, hsame⟩
    have hrsp := rsp_eq_of_sameGuest hsame
    rw [(does_leave_iff .word).1 hdoes, Guest.get_set_self, Slot.write,
      Guest.get_set_of_ne (show Reg.RSP ≠ gprReg 5 by decide), Slot.popped, Guest.get_set_self,
      Guest.get_set_self] at hrsp
    exact absurd (add_right_inj _ |>.1 hrsp) (by decide)
  | qword =>
    refine iff_of_true ⟨_, _, (does_leave_iff .qword).2 rfl, rfl, ?_⟩ rfl
    have hne : Reg.RBP ≠ Reg.RSP := by decide
    rw [Slot.write, Slot.popped, Guest.get_set_self, Guest.set, Guest.set, Guest.set,
      setReg_comm hne]
    refine (SameGuest.refl _).setReg ?_
    have htop : Slot.qword.top (g.setReg Reg.RSP.offset (g.get 64 .RBP).toNat) =
        BitVec.ofNat 64 (Guest.load g.mem (g.get 64 .RBP).toNat 8) := by
      rw [Slot.top, Guest.get_setReg_self, ofNat_toNat_self]
      rfl
    exact htop.symm.trans (ofNat_toNat_self (Slot.qword.top _)).symm

/-- The PC is the only thing that can be wrong. -/
theorem call_right_iff {target : CallTarget} {operand : Builder Port} {constTarget : ℕ}
    (h : (callNear target).doTranslate site.length =
      .ok (Builder.call site.length operand constTarget)) {vt : ValueType} {v : Guest → ℕ}
    (hop : Evaluates site.address operand vt v) :
    (callNear target).Right site g ↔
      BitVec.ofNat 64 (v (pushNext site g)) = target.value site g := by
  have hset : SameGuest ((pushNext site g).setReg Reg.PC.offset (v (pushNext site g)))
      ((pushNext site g).setReg Reg.PC.offset (target.value site g).toNat) ↔
        BitVec.ofNat 64 (v (pushNext site g)) = BitVec.ofNat 64 (target.value site g).toNat :=
    sameGuest_setReg_iff
  rw [ofNat_toNat_self] at hset
  exact (right_iff_sameGuest (fun _ => does_call_iff h hop) fun _ => .rfl).trans hset

theorem get_pushNext (site : Site) (g : Guest) (r : Reg) :
    (pushNext site g).get 64 r = g.get 64 r - if r = .RSP then 8 else 0 := by
  rw [pushNext, Guest.get_setMem]
  split
  · next hr => rw [hr, Guest.get_set_self]
  · next hr => rw [Guest.get_set_of_ne hr, sub_zero]

theorem baseValue_pushNext (site : Site) (g : Guest) (m : MemOperand) :
    m.baseValue site (pushNext site g) = m.baseValue site g - m.baseLowered := by
  unfold MemOperand.baseValue MemOperand.baseLowered
  rcases m.base with _ | _ | num
  · exact (sub_zero _).symm
  · exact (sub_zero _).symm
  · exact get_pushNext site g (gprReg num)

theorem indexValue_pushNext (site : Site) (g : Guest) (m : MemOperand) :
    m.indexValue (pushNext site g) = m.indexValue g - m.indexLowered := by
  unfold MemOperand.indexValue MemOperand.indexLowered
  cases m.index with
  | none => exact (sub_zero _).symm
  | some index => simp only [get_pushNext, sub_mul]

theorem segValue_pushNext (site : Site) (g : Guest) (m : MemOperand) :
    m.segValue (pushNext site g) = m.segValue g := by
  unfold MemOperand.segValue
  cases m.seg with
  | none => rfl
  | some seg =>
    have hne : seg.reg ≠ .RSP := by cases seg <;> decide
    have hget := get_pushNext site g seg.reg
    rwa [if_neg hne, sub_zero] at hget

theorem address_pushNext (site : Site) (g : Guest) (m : MemOperand) :
    m.address site (pushNext site g) = m.address site g - m.lowered := by
  rw [MemOperand.address, MemOperand.address, baseValue_pushNext, indexValue_pushNext,
    segValue_pushNext, MemOperand.lowered]
  ring

theorem callNear_right_iff (target : CallTarget) :
    (callNear target).Right site g ↔ target.Fits site g := by
  cases target with
  | rel displ =>
    refine (call_right_iff rfl (evaluates_relTarget site (displ.signExtend 64))).trans ?_
    exact iff_of_true (ofNat_toNat_self _) trivial
  | reg num =>
    have hright : (callNear (.reg num)).Right site g ↔
        (pushNext site g).get 64 (gprReg num) = g.get 64 (gprReg num) :=
      (call_right_iff rfl (evaluates_reg site.address .qword (gprReg num) _)).trans
        (Eq.congr (ofNat_toNat_self _) rfl)
    rw [hright, get_pushNext, sub_eq_self, CallTarget.Fits]
    split
    · next hnum => exact iff_of_false (by decide) (absurd hnum)
    · next hnum => exact iff_of_true rfl hnum
  | mem m =>
    have h : (callNear (.mem m)).doTranslate site.length = .ok (Builder.call site.length (do
        let addr ← m.computeAddress site.length
        Builder.readMem (.u 64) addr) 0) :=
      rfl
    have hbytes : (ValueType.u 64).width / 8 = 8 := rfl
    have hright := call_right_iff (g := g) h (evaluates_mem site m (.u 64))
    rw [hbytes, address_pushNext] at hright
    exact hright

theorem rsp_of_does_callFar {size : FarSize} {m : MemOperand}
    (h : (callFar size m).Does site g g') :
    g'.get 64 .RSP = g.get 64 .RSP - 8 ∧ size ≠ .dword := by
  have hsize : ∀ vt, memType (size.bytes + 2) = .ok vt → size ≠ .dword := by
    rintro vt hvt rfl
    exact nomatch hvt
  cases hvt : memType (size.bytes + 2) with
  | error e =>
    have herror : (callFar size m).doTranslate site.length = .error e := by
      rw [doTranslate, readOperand, hvt]
      rfl
    exact absurd h (not_does_of_error herror)
  | ok vt =>
    refine ⟨?_, hsize vt hvt⟩
    rw [(does_callFar_iff hvt).1 h, Guest.get_setReg_of_ne (by decide), pushNext, Guest.get_setMem,
      Guest.get_set_self]

/-- A far call pushes a selector too. -/
theorem not_right_callFar (size : FarSize) (m : MemOperand) : ¬(callFar size m).Right site g := by
  rintro ⟨g', want, hdoes, ⟨selector, rfl⟩, hsame⟩
  obtain ⟨hcode, hsize⟩ := rsp_of_does_callFar hdoes
  have hrsp := rsp_eq_of_sameGuest hsame
  rw [hcode, farCall, Guest.get_set_of_ne (by decide), Guest.get_set_self] at hrsp
  have hbytes := sub_right_inj.1 hrsp
  cases size with
  | word | qword => exact absurd hbytes (by decide)
  | dword => exact hsize rfl

theorem retNear_right_iff (imm : Option (BitVec 16)) :
    (retNear imm).Right site g ↔ imm.getD 0 = 0 := by
  have hzero : released imm = 0 ↔ imm.getD 0 = 0 := by
    rw [released]
    generalize imm.getD 0 = x
    refine ⟨fun h => BitVec.eq_of_toNat_eq ?_, fun h => by rw [h]; rfl⟩
    have hnat := congrArg BitVec.toNat h
    rwa [BitVec.toNat_setWidth_of_le (by decide)] at hnat
  have hne : Reg.RSP ≠ Reg.PC := by decide
  rw [right_iff_sameGuest (fun _ => does_ret_iff rfl) fun _ => .rfl, ← hzero]
  constructor
  · intro h
    have hrsp := rsp_eq_of_sameGuest h
    rw [Guest.get_setReg_of_ne hne, Guest.get_set_self, Guest.get_set_of_ne hne,
      Guest.get_set_self] at hrsp
    exact left_eq_add.1 hrsp
  · intro h
    rw [h, add_zero]
    exact (SameGuest.refl _).setReg (ofNat_toNat_self (Slot.qword.top g)).symm

/-- What is loaded beyond an address of fewer bits has the selector in it. -/
theorem load_ne_of_selector {n k : ℕ} (hn : n + (2 + k) = 8) {a : ℕ}
    (hselector : BitVec.ofNat 16 (Guest.load g.mem (a + n) 2) >>> 2 ≠ 0) :
    BitVec.ofNat 64 (Guest.load g.mem a 8) ≠ BitVec.ofNat 64 (Guest.load g.mem a n) := by
  intro h
  have hnat := congrArg BitVec.toNat h
  rw [← hn, Guest.load_add, Guest.load_add, BitVec.toNat_ofNat, BitVec.toNat_ofNat] at hnat
  have hmod : 256 ^ n * (Guest.load g.mem (a + n) 2 + 256 ^ 2 * Guest.load g.mem (a + n + 2) k) ≡ 0
      [MOD 2 ^ 64] :=
    Nat.ModEq.add_left_cancel' _ hnat
  have hdvd : 256 ^ n * 256 ^ (2 + k) ∣
      256 ^ n * (Guest.load g.mem (a + n) 2 + 256 ^ 2 * Guest.load g.mem (a + n + 2) k) := by
    rw [← pow_add, hn]
    exact (Nat.modEq_zero_iff_dvd).1 hmod
  have hlow := (pow_dvd_pow 256 (Nat.le_add_right 2 k)).trans
    (Nat.dvd_of_mul_dvd_mul_left (Nat.pow_pos (by decide)) hdvd)
  have hzero : BitVec.ofNat 16 (Guest.load g.mem (a + n) 2) = 0 := by
    apply BitVec.eq_of_toNat_eq
    rw [BitVec.toNat_ofNat]
    exact Nat.mod_eq_zero_of_dvd ((Nat.dvd_add_left (Nat.dvd_mul_right _ _)).1 hlow)
  refine hselector ?_
  rw [hzero]
  rfl

/-- A far return pops a selector too, which the code takes for a part of the address. -/
theorem not_right_retFar (size : FarSize) (imm : Option (BitVec 16)) :
    ¬(retFar size imm).Right site g := by
  rintro ⟨g', want, hdoes, ⟨hselector, rfl⟩, hsame⟩
  obtain rfl := (does_ret_iff rfl).1 hdoes
  have hne : Reg.RSP ≠ Reg.PC := by decide
  have hrsp := rsp_eq_of_sameGuest hsame
  have hpc := pc_eq_of_sameGuest hsame
  rw [Guest.get_setReg_of_ne hne, Guest.get_set_self, Guest.get_set_of_ne hne,
    Guest.get_set_self, add_assoc] at hrsp
  rw [Guest.get_setReg_self, Guest.get_set_self] at hpc
  cases size with
  | word => exact load_ne_of_selector (k := 4) rfl hselector hpc
  | dword => exact load_ne_of_selector (k := 2) rfl hselector hpc
  | qword =>
    have hlt : (released imm).toNat < 2 ^ 16 := by
      rw [released, BitVec.toNat_setWidth_of_le (by decide)]
      exact BitVec.isLt _
    have hnat := congrArg BitVec.toNat (add_right_inj _ |>.1 hrsp)
    have hsum : 8 = (16 + (released imm).toNat) % 2 ^ 64 := hnat
    omega

theorem right_iff_fits (inst : StackInst) : inst.Right site g ↔ inst.Fits site g := by
  cases inst with
  | push slot op => exact push_right_iff op
  | pop slot op => exact pop_right_iff slot op
  | leave slot => exact leave_right_iff slot
  | callNear target => exact callNear_right_iff target
  | callFar size m => exact iff_of_false (not_right_callFar size m) id
  | retNear imm => exact retNear_right_iff imm
  | retFar size imm => exact iff_of_false (not_right_retFar size imm) id

end StackInst

/-! ## Two instructions -/

/-- The operand is no segment register, for which there is no translation. -/
def PushOperand.IsRead {slot : Slot} : PushOperand slot → Prop
  | seg _ => False
  | _ => True

def PopOperand.IsWritten : PopOperand → Prop
  | seg _ => False
  | _ => True

def PopOperand.IsRsp : PopOperand → Prop
  | reg num => gprReg num = .RSP
  | _ => False

/-- The operand has this value after `POP` took `g` to `g'`. -/
def PopOperand.Has (slot : Slot) (site : Site) (g g' : Guest) (v : BitVec slot.bits) :
    PopOperand → Prop
  | reg num => g'.get slot.bits (gprReg num) = v
  | seg _ => False
  | mem m => slot.load g' (m.address site g) = v

/-- `PUSH` and `POP` after each other leave what was pushed in the operand of `POP`, and the pointer
where it was. -/
def PushPop (site site' : Site) {slot : Slot} (x : PushOperand slot) (y : PopOperand)
    (g : Guest) : Prop :=
  ∃ g₁ g₂ v, (StackInst.push slot x).Does site g g₁ ∧ (StackInst.pop slot y).Does site' g₁ g₂ ∧
    x.Pushes site g v ∧ y.Has slot site' g₁ g₂ v ∧ g₂.get 64 .RSP = g.get 64 .RSP

/-- `CALL` and `RET` after each other go on after the `CALL`. -/
def CallRet (site site' : Site) (call ret : StackInst) (g : Guest) : Prop :=
  ∃ g₁ g₂, call.Does site g g₁ ∧ ret.Does site' g₁ g₂ ∧ g₂.get 64 .PC = site.next

/-- What is loaded at the new top of the stack above the first `n` bytes is as in `x`. -/
def HighLoad (slot : Slot) (n : ℕ) (x : BitVec slot.bits) (g : Guest) : Prop :=
  BitVec.ofNat (8 * (slot.bytes - n))
    (Guest.load g.mem ((g.get 64 .RSP - 8).toNat + n) (slot.bytes - n)) =
      x.extractLsb' (8 * n) (8 * (slot.bytes - n))

/-- What is above the bytes that are written is the sign extension. -/
def PushOperand.Widened {slot : Slot} (g : Guest) : PushOperand slot → Prop
  | reg _ => True
  | seg _ => False
  | imm8 value => HighLoad slot 1 (value.signExtend slot.bits) g
  | immz value => HighLoad slot (slot.immBits / 8) (value.signExtend slot.bits) g
  | mem _ => True

/-- `PUSH` and `POP` after each other are right. `POP RSP` leaves the pointer where it was before
the `PUSH`, whatever was pushed. -/
structure PushPopFits (site : Site) {slot : Slot} (x : PushOperand slot) (y : PopOperand)
    (g : Guest) : Prop where
  isRead : x.IsRead
  isWritten : y.IsWritten
  pointer : y.IsRsp → x.Pushes site g (g.get slot.bits .RSP)
  widened : ¬y.IsRsp → x.Widened g

namespace StackInst

variable {site site' : Site} {g g' g'' : Guest} {slot : Slot}

theorem Does.unique {inst : StackInst} (h : inst.Does site g g') (h' : inst.Does site g g'') :
    g' = g'' := by
  obtain ⟨b, hb, hr⟩ := h
  obtain ⟨b', hb', hr'⟩ := h'
  obtain rfl := Except.ok.inj (hb.symm.trans hb')
  exact Option.some.inj (hr.unique hr')

/-- What `POP` finds, of which the operand may take less. -/
theorem ofNat_load (slot : Slot) (g : Guest) (x : BitVec 64) :
    BitVec.ofNat slot.bits (Guest.load g.mem x.toNat 8) = slot.load g x := by
  have hpow : 2 ^ slot.bits = 256 ^ slot.bytes := by cases slot <;> rfl
  have hle : slot.bytes ≤ 8 := by cases slot <;> decide
  apply BitVec.eq_of_toNat_eq
  rw [Slot.load, BitVec.toNat_ofNat, BitVec.toNat_ofNat, hpow, Guest.load_mod_of_le hle]

theorem exists_pop (slot : Slot) {y : PopOperand} (hy : y.IsWritten) (site : Site) (g : Guest) :
    ∃ g', (pop slot y).Does site g g' ∧
      (y.IsRsp → ∀ v, y.Has slot site g g' v ↔ g'.get slot.bits .RSP = v) ∧
      (¬y.IsRsp → ∀ v, y.Has slot site g g' v ↔ slot.top g = v) := by
  cases y with
  | reg num =>
    refine ⟨_, (does_pop_reg_iff slot num).2 rfl, fun hrsp v => ?_, fun hrsp v => ?_⟩
    · have hnum : gprReg num = .RSP := hrsp
      rw [PopOperand.Has, hnum]
    · rw [PopOperand.Has, Guest.get_set_of_ne hrsp, Guest.get_setReg_self, ofNat_load]
      rfl
  | seg r => exact absurd hy id
  | mem m =>
    refine ⟨_, (does_pop_mem_iff slot m).2 rfl, fun hrsp => absurd hrsp id, fun _ v => ?_⟩
    have hdvd : 2 ^ slot.bits ∣ 256 ^ 8 := by cases slot <;> decide
    have htop : slot.load ((g.setMem (m.address site g).toNat
        (Guest.load g.mem (g.get 64 .RSP).toNat 8) 8).set .RSP (g.get 64 .RSP + 8))
          (m.address site g) = slot.top g := by
      rw [← ofNat_load, Guest.mem_set, Guest.setMem, Guest.load_store_self (by decide), Slot.top,
        ← ofNat_load]
      apply BitVec.eq_of_toNat_eq
      rw [BitVec.toNat_ofNat, BitVec.toNat_ofNat, Nat.mod_mod_of_dvd _ hdvd]
    rw [PopOperand.Has, htop]

theorem rsp_of_push_pop {x : PushOperand slot} {y : PopOperand}
    (hpush : (push slot x).Does site g g') (hpop : (pop slot y).Does site' g' g'') :
    g''.get 64 .RSP = g.get 64 .RSP := by
  rw [rsp_of_does_pop hpop, rsp_of_does_push hpush]
  exact sub_add_cancel _ (8 : BitVec 64)

/-- What is at the top after an immediate of `n` bytes was written. -/
theorem top_imm_iff {n : ℕ} (hn : n ≤ slot.bytes) {v : ℕ} {x : BitVec slot.bits}
    (hv : v % 256 ^ n = x.toNat % 256 ^ n) :
    slot.top ((g.setMem (g.get 64 .RSP - 8).toNat v n).set .RSP (g.get 64 .RSP - 8)) = x ↔
      HighLoad slot n x g := by
  obtain ⟨k, hk⟩ := Nat.exists_eq_add_of_le hn
  have hpow : 2 ^ slot.bits = 256 ^ n * 256 ^ k := by
    rw [← pow_add, ← hk]
    cases slot <;> rfl
  have hhigh : 2 ^ (8 * (slot.bytes - n)) = 256 ^ k := by
    rw [pow_mul, hk, Nat.add_sub_cancel_left]
    rfl
  have hx : x.toNat / 256 ^ n < 256 ^ k :=
    Nat.div_lt_of_lt_mul (hpow ▸ x.isLt)
  rw [Slot.top, Guest.get_set_self, Slot.load, Guest.mem_set, Guest.setMem, hk,
    Guest.load_store_add (by rw [← hk]; cases slot <;> decide), HighLoad, ← BitVec.toNat_inj,
    ← BitVec.toNat_inj, BitVec.toNat_ofNat, hpow, BitVec.toNat_ofNat, BitVec.extractLsb'_toNat]
  have hsub : slot.bytes - n = k := by omega
  have hsplit := Nat.mod_add_div x.toNat (256 ^ n)
  have hshift : x.toNat >>> (8 * n) = x.toNat / 256 ^ n := by
    rw [Nat.shiftRight_eq_div_pow, pow_mul]
    rfl
  rw [hhigh, hsub, hshift, Nat.mod_eq_of_lt hx, Nat.mod_mul, Nat.add_mul_mod_self_left,
    Nat.mod_mod, Nat.add_mul_div_left _ _ (Nat.pow_pos (by decide)),
    Nat.div_eq_of_lt (Nat.mod_lt _ (Nat.pow_pos (by decide))), Nat.zero_add, hv]
  constructor
  · intro h
    exact Nat.eq_of_mul_eq_mul_left (Nat.pow_pos (by decide))
      (Nat.add_left_cancel (h.trans hsplit.symm))
  · intro h
    rw [h, hsplit]

theorem highLoad_bytes (slot : Slot) (x : BitVec slot.bits) (g : Guest) :
    HighLoad slot slot.bytes x g := by
  have hempty : Subsingleton (BitVec (8 * (slot.bytes - slot.bytes))) := by
    rw [Nat.sub_self]
    exact inferInstanceAs (Subsingleton (BitVec 0))
  exact Subsingleton.elim _ _

theorem mod_signExtend {w k : ℕ} (h : w ≤ k) (v : BitVec w) :
    (v.signExtend k).toNat % 2 ^ w = v.toNat := by
  rw [← BitVec.toNat_setWidth, setWidth_signExtend h]

theorem exists_push {x : PushOperand slot} (hx : x.IsRead) (site : Site) (g : Guest) :
    ∃ g' v, (push slot x).Does site g g' ∧ (∀ v', x.Pushes site g v' ↔ v' = v) ∧
      (slot.top g' = v ↔ x.Widened g) := by
  cases x with
  | reg num =>
    refine ⟨_, _, (does_push_reg_iff slot num).2 rfl, fun _ => .rfl, ?_⟩
    exact (top_imm_iff le_rfl rfl).trans (iff_of_true (highLoad_bytes slot _ g) trivial)
  | seg r => exact absurd hx id
  | imm8 value =>
    have hbits : 8 ≤ slot.bits := by cases slot <;> decide
    have hbytes : 1 ≤ slot.bytes := by cases slot <;> decide
    refine ⟨_, _, (does_push_imm_iff slot rfl (by decide)).2 rfl, fun _ => .rfl, ?_⟩
    refine top_imm_iff hbytes ?_
    exact (mod_signExtend (by decide) value).trans (mod_signExtend hbits value).symm
  | immz value =>
    have hbits : slot.immBits ≤ slot.bits := by cases slot <;> decide
    have hbits' : slot.immBits ≤ 64 := by cases slot <;> decide
    have hbytes : slot.immBits / 8 ≤ slot.bytes := by cases slot <;> decide
    have hpow : 256 ^ (slot.immBits / 8) = 2 ^ slot.immBits := by cases slot <;> rfl
    refine ⟨_, _, (does_push_imm_iff slot rfl ?_).2 rfl, fun _ => .rfl, ?_⟩
    · cases slot <;> decide
    · refine top_imm_iff hbytes ?_
      rw [hpow, mod_signExtend hbits', mod_signExtend hbits]
  | mem m =>
    refine ⟨_, _, (does_push_mem_iff slot m).2 rfl, fun _ => .rfl, ?_⟩
    exact (top_imm_iff le_rfl rfl).trans (iff_of_true (highLoad_bytes slot _ g) trivial)

theorem isRead_of_does {x : PushOperand slot} (h : (push slot x).Does site g g') : x.IsRead := by
  cases x with
  | seg r => exact not_does_push_seg r h
  | reg num | imm8 value | immz value | mem m => trivial

theorem isWritten_of_does {y : PopOperand} (h : (pop slot y).Does site g g') : y.IsWritten := by
  cases y with
  | seg r => exact not_does_pop_seg r h
  | reg num | mem m => trivial

theorem get_rsp_of_push_pop {x : PushOperand slot} {y : PopOperand}
    (hpush : (push slot x).Does site g g') (hpop : (pop slot y).Does site' g' g'') :
    g''.get slot.bits .RSP = g.get slot.bits .RSP := by
  have hle : slot.bits ≤ 64 := by cases slot <;> decide
  rw [get_of_le hle g'', get_of_le hle g, rsp_of_push_pop hpush hpop]

theorem pushPop_iff (x : PushOperand slot) (y : PopOperand) :
    PushPop site site' x y g ↔ PushPopFits site x y g := by
  constructor
  · rintro ⟨g₁, g₂, v, hpush, hpop, hpushes, hhas, hrsp⟩
    have hx := isRead_of_does hpush
    have hy := isWritten_of_does hpop
    obtain ⟨g₁', v', hpush', hv, htop⟩ := exists_push hx site g
    obtain rfl := hpush.unique hpush'
    obtain rfl := (hv v).1 hpushes
    obtain ⟨g₂', hpop', hisRsp, hother⟩ := exists_pop slot hy site' g₁
    obtain rfl := hpop.unique hpop'
    refine ⟨hx, hy, fun h => ?_, fun h => htop.1 ((hother h v).1 hhas)⟩
    rw [← get_rsp_of_push_pop hpush hpop, (hisRsp h v).1 hhas]
    exact hpushes
  · rintro ⟨hx, hy, hpointer, hwidened⟩
    obtain ⟨g₁, v, hpush, hv, htop⟩ := exists_push hx site g
    obtain ⟨g₂, hpop, hisRsp, hother⟩ := exists_pop slot hy site' g₁
    refine ⟨g₁, g₂, v, hpush, hpop, (hv v).2 rfl, ?_, rsp_of_push_pop hpush hpop⟩
    by_cases h : y.IsRsp
    · rw [hisRsp h, get_rsp_of_push_pop hpush hpop]
      exact (hv _).1 (hpointer h)
    · exact (hother h v).2 (htop.2 (hwidened h))

/-- Whatever the target was, the return address is what is popped. -/
theorem callRet_of_does {call inst : StackInst} {target : ℕ}
    (hcall : call.Does site g ((pushNext site g).setReg Reg.PC.offset target))
    (hret : inst.doTranslate site'.length = .ok (do let _ ← ret)) :
    CallRet site site' call inst g := by
  refine ⟨_, _, hcall, (does_ret_iff hret).2 rfl, ?_⟩
  rw [Guest.get_setReg_self, Guest.mem_setReg, Guest.get_setReg_of_ne (by decide), pushNext,
    Guest.get_setMem, Guest.get_set_self, Guest.setMem, Guest.load_store_self (by decide)]
  apply BitVec.eq_of_toNat_eq
  have hlt : site.next.toNat < 256 ^ 8 := site.next.isLt
  rw [BitVec.toNat_ofNat, Nat.mod_eq_of_lt hlt, Nat.mod_eq_of_lt site.next.isLt]

theorem callRet_near (target : CallTarget) (imm : Option (BitVec 16)) :
    CallRet site site' (callNear target) (retNear imm) g := by
  have hcall : ∃ v, (callNear target).Does site g ((pushNext site g).setReg Reg.PC.offset v) := by
    cases target with
    | rel displ =>
      exact ⟨_, (does_call_iff rfl (evaluates_relTarget site (displ.signExtend 64))).2 rfl⟩
    | reg num =>
      exact ⟨_, (does_call_iff rfl (evaluates_reg site.address .qword (gprReg num) _)).2 rfl⟩
    | mem m => exact ⟨_, (does_call_iff rfl (evaluates_mem site m (.u 64))).2 rfl⟩
  obtain ⟨v, hv⟩ := hcall
  exact callRet_of_does hv rfl

/-- There is no type for the six bytes of an address of 32 bits and a selector. -/
theorem callRet_far_iff (size size' : FarSize) (m : MemOperand) (imm : Option (BitVec 16)) :
    CallRet site site' (callFar size m) (retFar size' imm) g ↔ size ≠ .dword := by
  constructor
  · rintro ⟨g₁, g₂, hcall, -⟩
    exact (rsp_of_does_callFar hcall).2
  · intro hsize
    cases size with
    | word => exact callRet_of_does ((does_callFar_iff rfl).2 rfl) rfl
    | dword => exact absurd rfl hsize
    | qword => exact callRet_of_does ((does_callFar_iff rfl).2 rfl) rfl

end StackInst

/-! ## The translators are right -/

/-- When each instruction is right, and when two after each other are. -/
theorem stack_right_iff (site site' : Site) (g : Guest) :
    (∀ inst : StackInst, inst.Right site g ↔ inst.Fits site g) ∧
      (∀ (slot : Slot) (x : PushOperand slot) (y : PopOperand),
        PushPop site site' x y g ↔ PushPopFits site x y g) ∧
      (∀ (target : CallTarget) (imm : Option (BitVec 16)),
        CallRet site site' (.callNear target) (.retNear imm) g) ∧
      ∀ (size size' : FarSize) (m : MemOperand) (imm : Option (BitVec 16)),
        CallRet site site' (.callFar size m) (.retFar size' imm) g ↔ size ≠ .dword :=
  ⟨StackInst.right_iff_fits, fun _ => StackInst.pushPop_iff, StackInst.callRet_near,
    StackInst.callRet_far_iff⟩

/-- `PUSH -1` writes one byte. -/
theorem not_stack_right :
    ¬StackInst.Right ⟨0, 2⟩ (.push .qword (.imm8 (-1))) ⟨fun _ => 0, fun _ => 0⟩ := by
  rw [StackInst.right_iff_fits]
  intro h
  exact absurd (h 1 le_rfl (by decide)) (by decide)

end Arancini.X86
