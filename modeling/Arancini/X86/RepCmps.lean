import Mathlib.Data.BitVec
import Arancini.X86.Rep

/-!
# Repeated comparison

The loop for `REPE CMPSB` has its test at the end only, so that the first pair is compared whatever
`RCX` is. The comment on the pointers has no code below it, and what goes down, by eight, is the low
half of `RCX`.

`turns` is the loop turn by turn, which the packet refines (`cmpsb_refines`). It compares the same
pair again and again, and if the bytes are equal and it is entered with zero, it goes round through
all multiples of eight and comes out with zero again. `cmpsb_right_iff` says that this is the only
way to be right.
-/

namespace Arancini.X86

open Ir
open Llvm (FlagNode)

/-! ## The translator -/

namespace Builder

/-- `insert_trunc`. -/
def trunc (vt : ValueType) (v : Port) : Builder Port :=
  insert vt (.cast .trunc vt v .none)

/-- `write_flags` of an arithmetic node with every flag an update. -/
def writeArithFlags (op : Port) : Builder PUnit := do
  let _ ← writeReg .ZF "ZF" ⟨.zero, .u 1, op.owner⟩
  let _ ← writeReg .CF "CF" ⟨.carry, .u 1, op.owner⟩
  let _ ← writeReg .OF "OF" ⟨.overflow, .u 1, op.owner⟩
  let _ ← writeReg .SF "SF" ⟨.negative, .u 1, op.owner⟩

/-- The case of `REPE CMPSB`. -/
def repeCmpsb : Builder PUnit := do
  let loopStart ← label "rep_loop_start"
  let derefRsi ← readMem (.u 8) (← readReg (.u 64) .RSI "RSI")
  let derefRdi ← readMem (.u 8) (← readReg (.u 64) .RDI "RDI")
  let rslt ← binop .sub derefRsi derefRdi
  writeArithFlags rslt
  let newEcx ← binop .sub (← readReg (.u 32) .RCX "RCX") (← const (.u 32) 8)
  let _ ← writeReg .RCX "RCX" (← zx (.u 64) newEcx)
  let ecxEq0 ← binop .cmpeq newEcx (← const (.u 32) 0)
  let zf ← readReg (.u 1) .ZF "ZF"
  let termcond ← binop .bor (← trunc (.u 1) ecxEq0) (← Builder.not zf)
  let _ ← condBr (← Builder.not termcond) (some loopStart)

end Builder

/-- The packet. -/
def cmpsbPacket : Packet :=
  packetOf 0 (Builder.repeCmpsb []).2 (by decide)

/-! ## The instruction -/

/-- The byte a register points to. -/
def byteAt (g : Guest) (r : Reg) : BitVec 8 :=
  BitVec.ofNat 8 (Guest.load g.mem (g.get 64 r).toNat 1)

/-- The difference of the bytes. -/
def difference (g : Guest) : FlagNode 8 :=
  .addSub .sub (byteAt g .RSI) (byteAt g .RDI)

/-- The flags of a difference that `write_flags` writes. -/
def setFlags (g : Guest) (node : FlagNode 8) : Guest :=
  (((g.set .ZF (BitVec.ofBool (node.flag .zero))).set
    .CF (BitVec.ofBool (node.flag .carry))).set
    .OF (BitVec.ofBool (node.flag .overflow))).set
    .SF (BitVec.ofBool (node.flag .negative))

/-- One pair of bytes is compared, of those that `RCX` counts. `AF` is no part of the guest. -/
def comparePair (g : Guest) : Guest :=
  ((((setFlags g (difference g)).set .PF (BitVec.ofBool (OpNode.parity (difference g).value))).set
    .RSI (RepInst.advance .byte (g.get 1 .DF) (g.get 64 .RSI))).set .RDI
      (RepInst.advance .byte (g.get 1 .DF) (g.get 64 .RDI))).set .RCX (g.get 64 .RCX - 1)

/-- The instruction, with as many pairs left. -/
def repe : ℕ → Guest → Guest
  | 0, g => g
  | n + 1, g => if (comparePair g).get 1 .ZF = 1 then repe n (comparePair g) else comparePair g

/-- The packet does what the instruction does. -/
def CmpsbRight (g : Guest) : Prop :=
  ∃ g', (atFirstUse intOps cmpsbPacket).Returns (.enter intOps 0 g) (some g') ∧
    SameGuest g' (repe (g.get 64 .RCX).toNat g)

/-- There is nothing to compare, and the flags have what a comparison of equal bytes gives, which
the bytes are. -/
structure CmpsbFits (g : Guest) : Prop where
  rcx : g.get 64 .RCX = 0
  same : byteAt g .RSI = byteAt g .RDI
  zf : g.get 1 .ZF = 1
  cf : g.get 1 .CF = 0
  of : g.get 1 .OF = 0
  sf : g.get 1 .SF = 0

/-! ## A turn of the loop -/

/-- What a turn does. The pointers stay, and the low half of `RCX` goes down by eight. -/
def turn (g : Guest) : Guest :=
  (setFlags g (difference g)).set .RCX ((g.get 32 .RCX - 8).setWidth 64)

/-- There is another turn. -/
def again (g : Guest) : Bool :=
  (difference g).flag .zero && g.get 32 .RCX - 8 != 0

/-- The loop, turn by turn. -/
def turns : Machine Guest (Option Guest) where
  step g := if again g then .inl (turn g) else .inr (some (turn g))

theorem cmpsb_nodes : cmpsbPacket.nodes =
    [.label "rep_loop_start", .readReg (.u 64) Reg.RSI.offset Reg.RSI.idx "RSI",
      .readMem (.u 8) (val 64 1), .readReg (.u 64) Reg.RDI.offset Reg.RDI.idx "RDI",
      .readMem (.u 8) (val 64 3), .binaryArith .sub (val 8 2) (val 8 4),
      .writeReg Reg.ZF.offset Reg.ZF.idx "ZF" ⟨.zero, .u 1, 5⟩,
      .writeReg Reg.CF.offset Reg.CF.idx "CF" ⟨.carry, .u 1, 5⟩,
      .writeReg Reg.OF.offset Reg.OF.idx "OF" ⟨.overflow, .u 1, 5⟩,
      .writeReg Reg.SF.offset Reg.SF.idx "SF" ⟨.negative, .u 1, 5⟩,
      .readReg (.u 32) Reg.RCX.offset Reg.RCX.idx "RCX", .constant (.u 32) 8,
      .binaryArith .sub (val 32 10) (val 32 11), .cast .zx (.u 64) (val 32 12) .none,
      .writeReg Reg.RCX.offset Reg.RCX.idx "RCX" (val 64 13), .constant (.u 32) 0,
      .binaryArith .cmpeq (val 32 12) (val 32 15),
      .readReg (.u 1) Reg.ZF.offset Reg.ZF.idx "ZF", .cast .trunc (.u 1) (val 32 16) .none,
      .unaryArith .bnot (val 1 17), .binaryArith .bor (val 1 18) (val 1 19),
      .unaryArith .bnot (val 1 20), .condBr (val 1 21) (some 0)] := by
  decide

theorem cmpsb_next : ∀ n ∈ [(1, 6), (7, 7), (8, 8), (9, 9), (10, 14), (15, 22)],
    IsNext cmpsbPacket n.1 n.2 := by
  decide

theorem cmpsb_firstUses :
    firstUses cmpsbPacket.nodes cmpsbPacket.actions 6 = [1, 2, 3, 4, 5] ∧
      firstUses cmpsbPacket.nodes cmpsbPacket.actions 14 = [10, 12, 13] ∧
      firstUses cmpsbPacket.nodes cmpsbPacket.actions 22 = [16, 17, 18, 19, 20, 21] ∧
      ∀ n ∈ [7, 8, 9], firstUses cmpsbPacket.nodes cmpsbPacket.actions n = [] := by
  decide

section Turn

variable {g : Guest} {l : ℕ → ℕ} {env : Env}

theorem cmpsb_known (hk : KnowsAll intOps cmpsbPacket env) :
    env.port (val 32 11) = some (8#32).toNat ∧ env.port (val 32 15) = some (0#32).toNat := by
  have hknowns : ∀ m ∈ [11, 15], m ∈ knowns cmpsbPacket.nodes := by decide
  have hagrees := fun m hm => hk m (hknowns m hm) ⟨fun _ => 0, fun _ => 0⟩ intOps.local₀
  exact ⟨(hagrees 11 (by decide)).constant (by rw [cmpsb_nodes]; rfl),
    (hagrees 15 (by decide)).constant (by rw [cmpsb_nodes]; rfl)⟩

/-- `ZF` is written, and the results are there for the other flags. -/
theorem cmpsb_passes_zf (hk : KnowsAll intOps cmpsbPacket env) :
    ∃ env', (atFirstUse intOps cmpsbPacket).Passes (·.pos = 22) ⟨0, 1, g, l, env⟩ 0
        ⟨0, 7, g.set .ZF (BitVec.ofBool ((difference g).flag .zero)), l, env'⟩ ∧
      KnowsAll intOps cmpsbPacket env' ∧ ∀ kind,
        env'.port ⟨kind, .u 1, 5⟩ = some ((OpNode.arith (difference g)).result kind) := by
  have hlast := (cmpsb_next (15, 22) (by decide)).mem
  have huses := cmpsb_firstUses.1
  have hagrees : ∀ m ∈ [1, 2, 3, 4, 5], Agrees intOps cmpsbPacket g l
      (atAction intOps cmpsbPacket 6 g l env) m :=
    fun m hm => agrees_of_mem (huses ▸ hm)
  have hrsi := (hagrees 1 (by decide)).readReg (o := val 64 1) (by rw [cmpsb_nodes]; rfl)
  have hlhs := (hagrees 2 (by decide)).readMem (o := val 8 2) (by rw [cmpsb_nodes]; rfl) hrsi
  have hrdi := (hagrees 3 (by decide)).readReg (o := val 64 3) (by rw [cmpsb_nodes]; rfl)
  have hrhs := (hagrees 4 (by decide)).readMem (o := val 8 4) (by rw [cmpsb_nodes]; rfl) hrdi
  have hnode : cmpsbPacket.nodes[5]? = some (.binaryArith .sub (val 8 2) (val 8 4)) := by
    rw [cmpsb_nodes]
    rfl
  have hsub : ∀ kind, (atAction intOps cmpsbPacket 6 g l env).port ⟨kind, .u 1, 5⟩ =
      some ((OpNode.arith (difference g)).result kind) := fun kind =>
    (hagrees 5 (by decide)).binaryArith_nat (o := ⟨kind, .u 1, 5⟩) hnode rfl hlhs hrhs
  have hzf := (hsub .zero).trans
    (congrArg some (BitVec.toNat_ofBool ((difference g).flag .zero)).symm)
  refine ⟨_, ?_, knowsAll_atAction hk 6 g l, hsub⟩
  exact passes_act hlast (cmpsb_next (1, 6) (by decide)) (by rw [cmpsb_nodes]; rfl)
    (act_writeReg hzf) (by decide) (.refl _)

/-- Another flag is written. -/
theorem cmpsb_passes_flag (hk : KnowsAll intOps cmpsbPacket env) {n : ℕ} (hn : n ∈ [7, 8, 9])
    {r : Reg} {idx : ℕ} {name : String} {o : Port}
    (hnode : cmpsbPacket.nodes[n]? = some (.writeReg r.offset idx name o)) {b : Bool}
    (ho : env.port o = some b.toNat) :
    ∃ env', (atFirstUse intOps cmpsbPacket).Passes (·.pos = 22) ⟨0, n, g, l, env⟩ 0
        ⟨0, n + 1, g.set r (BitVec.ofBool b), l, env'⟩ ∧
      KnowsAll intOps cmpsbPacket env' ∧ ∀ o, env'.port o = env.port o := by
  have hlast := (cmpsb_next (15, 22) (by decide)).mem
  have hnext : ∀ n ∈ [7, 8, 9], IsNext cmpsbPacket n n ∧ n ≠ 22 := by decide
  have hkeep : ∀ o, (atAction intOps cmpsbPacket n g l env).port o = env.port o :=
    fun o => port_atAction (cmpsb_firstUses.2.2.2 n hn ▸ List.not_mem_nil)
  have hflag := ((hkeep o).trans ho).trans (congrArg some (BitVec.toNat_ofBool b).symm)
  refine ⟨_, ?_, knowsAll_atAction hk n g l, hkeep⟩
  exact passes_act hlast (hnext n hn).1 hnode (act_writeReg hflag) (hnext n hn).2 (.refl _)

/-- The flags are written. -/
theorem cmpsb_passes_flags (hk : KnowsAll intOps cmpsbPacket env) :
    ∃ env', (atFirstUse intOps cmpsbPacket).Passes (·.pos = 22) ⟨0, 1, g, l, env⟩ 0
        ⟨0, 10, setFlags g (difference g), l, env'⟩ ∧
      KnowsAll intOps cmpsbPacket env' := by
  obtain ⟨env₁, hzf, hk₁, hport⟩ := cmpsb_passes_zf (g := g) (l := l) hk
  obtain ⟨env₂, hcf, hk₂, hkeep₂⟩ := cmpsb_passes_flag (l := l) hk₁
    (show 7 ∈ [7, 8, 9] by decide) (by rw [cmpsb_nodes]; rfl) (hport .carry)
  obtain ⟨env₃, hof, hk₃, hkeep₃⟩ := cmpsb_passes_flag (l := l) hk₂
    (show 8 ∈ [7, 8, 9] by decide) (by rw [cmpsb_nodes]; rfl)
    ((hkeep₂ _).trans (hport .overflow))
  obtain ⟨env₄, hsf, hk₄, -⟩ := cmpsb_passes_flag (l := l) hk₃
    (show 9 ∈ [7, 8, 9] by decide) (by rw [cmpsb_nodes]; rfl)
    ((hkeep₃ _).trans ((hkeep₂ _).trans (hport .negative)))
  exact ⟨env₄, hzf.trans_zero (hcf.trans_zero (hof.trans_zero hsf)), hk₄⟩

/-- The count is written. -/
theorem cmpsb_passes_count (hk : KnowsAll intOps cmpsbPacket env) :
    ∃ env', (atFirstUse intOps cmpsbPacket).Passes (·.pos = 22) ⟨0, 10, g, l, env⟩ 0
        ⟨0, 15, g.set .RCX ((g.get 32 .RCX - 8).setWidth 64), l, env'⟩ ∧
      KnowsAll intOps cmpsbPacket env' ∧
      env'.port (val 32 12) = some (g.get 32 .RCX - 8).toNat := by
  have hlast := (cmpsb_next (15, 22) (by decide)).mem
  have huses := cmpsb_firstUses.2.1
  have hagrees : ∀ m ∈ [10, 12, 13], Agrees intOps cmpsbPacket g l
      (atAction intOps cmpsbPacket 14 g l env) m :=
    fun m hm => agrees_of_mem (huses ▸ hm)
  have hk' := knowsAll_atAction hk 14 g l
  have hecx := (hagrees 10 (by decide)).readReg (o := val 32 10) (by rw [cmpsb_nodes]; rfl)
  have hsub := (hagrees 12 (by decide)).binaryArith (o := val 32 12) (by rw [cmpsb_nodes]; rfl) rfl
    hecx (cmpsb_known hk').1
  have hzx := (hagrees 13 (by decide)).cast (o := val 64 13) (x := g.get 32 .RCX - 8)
    (by rw [cmpsb_nodes]; rfl) rfl hsub
  refine ⟨_, ?_, hk', hsub⟩
  exact passes_act hlast (cmpsb_next (10, 14) (by decide)) (by rw [cmpsb_nodes]; rfl)
    (act_writeReg hzx) (by decide) (.refl _)

/-- The branch back. -/
theorem cmpsb_passes_branch (hk : KnowsAll intOps cmpsbPacket env) {ecx : BitVec 32}
    (hecx : env.port (val 32 12) = some ecx.toNat) {b : Bool}
    (hzf : g.get 1 .ZF = BitVec.ofBool b) :
    ∃ env', (atFirstUse intOps cmpsbPacket).Passes (·.pos = 22) ⟨0, 15, g, l, env⟩ 1
        ⟨0, if b && ecx != 0 then 0 else 23, g, l, env'⟩ := by
  have hlast := (cmpsb_next (15, 22) (by decide)).mem
  have huses := cmpsb_firstUses.2.2.1
  have hagrees : ∀ m ∈ [16, 17, 18, 19, 20, 21], Agrees intOps cmpsbPacket g l
      (atAction intOps cmpsbPacket 22 g l env) m :=
    fun m hm => agrees_of_mem (huses ▸ hm)
  have hk' := knowsAll_atAction hk 22 g l
  have hecx' : (atAction intOps cmpsbPacket 22 g l env).port (val 32 12) = some ecx.toNat :=
    (port_atAction (huses ▸ by decide)).trans hecx
  have hcmp := (hagrees 16 (by decide)).binaryArith (o := val 32 16) (by rw [cmpsb_nodes]; rfl) rfl
    hecx' (cmpsb_known hk').2
  have hread := (hagrees 17 (by decide)).readReg (o := val 1 17) (by rw [cmpsb_nodes]; rfl)
  rw [hzf] at hread
  have htrunc := (hagrees 18 (by decide)).cast (o := val 1 18)
    (x := BitVec.ofNat 32 (ecx == 0).toNat) (by rw [cmpsb_nodes]; rfl) rfl hcmp
  have hnot := (hagrees 19 (by decide)).bnot (o := val 1 19) (by rw [cmpsb_nodes]; rfl) rfl hread
  have hor := (hagrees 20 (by decide)).binaryArith (o := val 1 20)
    (x := (BitVec.ofNat 32 (ecx == 0).toNat).setWidth 1) (y := ~~~BitVec.ofBool b)
    (by rw [cmpsb_nodes]; rfl) rfl htrunc hnot
  have hcond := (hagrees 21 (by decide)).bnot (o := val 1 21)
    (x := (BitVec.ofNat 32 (ecx == 0).toNat).setWidth 1 ||| ~~~BitVec.ofBool b)
    (by rw [cmpsb_nodes]; rfl) rfl hor
  have hpos : ∀ e b : Bool, (if (~~~((BitVec.ofNat 32 e.toNat).setWidth 1 |||
      ~~~BitVec.ofBool b)).toNat = 0 then 22 + 1 else 0) = if b && !e then 0 else 23 := by
    decide
  refine ⟨atAction intOps cmpsbPacket 22 g l env, ?_⟩
  rw [bne, ← hpos]
  exact passes_count (cmpsb_next (15, 22) (by decide)) (by rw [cmpsb_nodes]; rfl)
    (act_condBr hcond) (.refl _)

/-- A turn of the loop. -/
theorem cmpsb_turn (g : Guest) (l : ℕ → ℕ) (env : Env) :
    ∃ c env', (atFirstUse intOps cmpsbPacket).step ⟨0, 0, g, l, env⟩ = .inl c ∧
      (atFirstUse intOps cmpsbPacket).Visits c
        ⟨0, if again g then 0 else 23, turn g, l, env'⟩ := by
  have hzero : (atFirstUse intOps cmpsbPacket).step ⟨0, 0, g, l, env⟩ =
      .inl ⟨0, 1, g, l, knownEnv intOps cmpsbPacket g l env⟩ :=
    step_zero (by decide) (by rw [cmpsb_nodes]; rfl)
  obtain ⟨env₁, hflags, hk₁⟩ := cmpsb_passes_flags (g := g) (l := l)
    (knowsAll_knownEnv g l env)
  obtain ⟨env₂, hcount, hk₂, hecx⟩ := cmpsb_passes_count (g := setFlags g (difference g))
    (l := l) hk₁
  have hecx' : (setFlags g (difference g)).get 32 .RCX = g.get 32 .RCX := by simp [setFlags]
  rw [hecx'] at hcount hecx
  obtain ⟨env₃, hbranch⟩ := cmpsb_passes_branch (g := turn g) (l := l)
    (b := (difference g).flag .zero) hk₂ hecx (by simp [turn, setFlags])
  exact ⟨_, env₃, hzero, (hflags.trans_zero (hcount.trans_zero hbranch)).visits⟩

/-- The packet does the turns. -/
theorem cmpsb_refines : Machine.Refines (atFirstUse intOps cmpsbPacket) turns
    fun c g => ∃ env, c = ⟨0, 0, g, intOps.local₀, env⟩ := by
  rintro _ g ⟨env, rfl⟩
  obtain ⟨c, env', hstep, hvisits⟩ := cmpsb_turn g intOps.local₀ env
  by_cases hagain : again g
  · rw [if_pos hagain] at hvisits
    exact .inl ⟨c, _, turn g, hstep, hvisits, if_pos hagain, env', rfl⟩
  · rw [if_neg hagain] at hvisits
    refine .inr ⟨some (turn g), .move hstep (hvisits.returns (.stop ?_)), if_neg hagain⟩
    exact step_last (by rw [cmpsb_nodes]; decide)

end Turn

/-! ## What the turns leave -/

/-- The registers a turn writes. -/
def turnWrites : List Reg :=
  [.ZF, .CF, .OF, .SF, .RCX]

/-- What turns leave, but for `RCX`. -/
structure Left (g g' : Guest) : Prop where
  zf : g'.get 1 .ZF = BitVec.ofBool ((difference g).flag .zero)
  cf : g'.get 1 .CF = BitVec.ofBool ((difference g).flag .carry)
  of : g'.get 1 .OF = BitVec.ofBool ((difference g).flag .overflow)
  sf : g'.get 1 .SF = BitVec.ofBool ((difference g).flag .negative)
  frame : ∀ r ∉ turnWrites, ∀ w, g'.get w r = g.get w r
  mem : g'.mem = g.mem

theorem left_turn (g : Guest) : Left g (turn g) := by
  refine ⟨by simp [turn, setFlags], by simp [turn, setFlags], by simp [turn, setFlags],
    by simp [turn, setFlags], fun r hr w => ?_, by simp [turn, setFlags]⟩
  simp only [turnWrites, List.mem_cons, List.not_mem_nil, or_false, not_or] at hr
  simp [turn, setFlags, hr]

theorem Left.difference_eq {g g' : Guest} (h : Left g g') : difference g' = difference g := by
  rw [difference, difference, byteAt, byteAt, byteAt, byteAt, h.frame .RSI (by decide),
    h.frame .RDI (by decide), h.mem]

theorem Left.trans {g g' g'' : Guest} (h : Left g g') (h' : Left g' g'') : Left g g'' := by
  obtain ⟨hzf, hcf, hof, hsf, hframe, hmem⟩ := h'
  rw [h.difference_eq] at hzf hcf hof hsf
  exact ⟨hzf, hcf, hof, hsf, fun r hr w => (hframe r hr w).trans (h.frame r hr w),
    hmem.trans h.mem⟩

theorem turns_step_of_again {g : Guest} (h : again g) : turns.step g = .inl (turn g) :=
  if_pos h

theorem turns_step_of_not_again {g : Guest} (h : again g = false) :
    turns.step g = .inr (some (turn g)) :=
  if_neg (ne_true_of_eq_false h)

theorem left_of_returns {g : Guest} {r : Option Guest} (h : turns.Returns g r) :
    ∃ g', r = some g' ∧ Left g g' := by
  induction h with
  | @stop g r hs =>
    cases hagain : again g with
    | true => exact nomatch (turns_step_of_again hagain).symm.trans hs
    | false =>
      exact ⟨turn g, (Sum.inr.inj ((turns_step_of_not_again hagain).symm.trans hs)).symm,
        left_turn g⟩
  | @move g g₁ r hs _ ih =>
    cases hagain : again g with
    | true =>
      obtain rfl := Sum.inl.inj ((turns_step_of_again hagain).symm.trans hs)
      obtain ⟨g', hr, hleft⟩ := ih
      exact ⟨g', hr, (left_turn g).trans hleft⟩
    | false => exact nomatch (turns_step_of_not_again hagain).symm.trans hs

/-- The count goes down to zero from a multiple of eight, as long as the bytes are equal. -/
theorem returns_of_count :
    ∀ (k : ℕ), k < 2 ^ 29 → ∀ g : Guest, (difference g).flag .zero = true →
      g.get 32 .RCX = BitVec.ofNat 32 (8 * (k + 1)) →
      ∃ g', turns.Returns g (some g') ∧ g'.get 64 .RCX = 0
  | k, hk, g, hzero, hecx => by
    have hnew : g.get 32 .RCX - 8 = BitVec.ofNat 32 (8 * k) := by
      rw [hecx, Nat.mul_succ, BitVec.ofNat_add]
      exact BitVec.add_sub_cancel _ 8#32
    have hrcx : (turn g).get 64 .RCX = (BitVec.ofNat 32 (8 * k)).setWidth 64 := by
      rw [turn, Guest.get_set_self, hnew]
    cases k with
    | zero =>
      have hagain : again g = false := by
        rw [again, hnew, hzero]
        rfl
      exact ⟨turn g, .stop (turns_step_of_not_again hagain), hrcx⟩
    | succ k =>
      have hne : BitVec.ofNat 32 (8 * (k + 1)) ≠ 0 := by
        intro heq
        have hnat := congrArg BitVec.toNat heq
        rw [BitVec.toNat_ofNat, Nat.mod_eq_of_lt (by omega)] at hnat
        exact nomatch hnat
      have hagain : again g = true := by
        rw [again, hnew, hzero]
        exact bne_iff_ne.2 hne
      have hecx' : (turn g).get 32 .RCX = BitVec.ofNat 32 (8 * (k + 1)) := by
        rw [get_of_le (show 32 ≤ 64 by decide), hrcx,
          BitVec.setWidth_setWidth_of_le _ (by decide), BitVec.setWidth_eq]
      have hzero' : (difference (turn g)).flag .zero = true := by
        rw [(left_turn g).difference_eq, hzero]
      obtain ⟨g', hr, hg'⟩ := returns_of_count k (by omega) (turn g) hzero' hecx'
      exact ⟨g', .move (turns_step_of_again hagain) hr, hg'⟩

/-! ## The instruction moves the pointers -/

/-- The distance from a byte to the next. -/
def stride (df : BitVec 1) : BitVec 64 :=
  if df = 1 then -1 else 1

theorem advance_byte (df : BitVec 1) (x : BitVec 64) :
    RepInst.advance .byte df x = x + stride df := by
  rw [RepInst.advance, stride]
  split
  · exact sub_eq_add_neg x 1
  · rfl

theorem rsi_comparePair (g : Guest) :
    (comparePair g).get 64 .RSI = g.get 64 .RSI + stride (g.get 1 .DF) := by
  simp [comparePair, advance_byte]

theorem df_comparePair (g : Guest) : (comparePair g).get 1 .DF = g.get 1 .DF := by
  simp [comparePair, setFlags]

/-- The pairs that are compared, of one or more. -/
theorem rsi_repe : ∀ (n : ℕ) (g : Guest), ∃ j ≤ n, (repe (n + 1) g).get 64 .RSI =
    g.get 64 .RSI + BitVec.ofNat 64 (j + 1) * stride (g.get 1 .DF)
  | n, g => by
    have hone : (comparePair g).get 64 .RSI =
        g.get 64 .RSI + BitVec.ofNat 64 (0 + 1) * stride (g.get 1 .DF) :=
      (rsi_comparePair g).trans (congrArg _ (one_mul (stride (g.get 1 .DF))).symm)
    rw [repe]
    split
    · cases n with
      | zero => exact ⟨0, le_rfl, hone⟩
      | succ n =>
        obtain ⟨j, hj, hrsi⟩ := rsi_repe n (comparePair g)
        refine ⟨j + 1, Nat.succ_le_succ hj, ?_⟩
        rw [hrsi, rsi_comparePair, df_comparePair, BitVec.ofNat_add (j + 1) 1, add_mul, add_assoc,
          add_comm (stride _), BitVec.one_mul]
    · exact ⟨0, n.zero_le, hone⟩

theorem rsi_repe_ne {n : ℕ} (hn : n + 1 < 2 ^ 64) (g : Guest) :
    (repe (n + 1) g).get 64 .RSI ≠ g.get 64 .RSI := by
  obtain ⟨j, hj, hrsi⟩ := rsi_repe n g
  have hne : BitVec.ofNat 64 (j + 1) ≠ 0 := by
    intro heq
    have hnat := congrArg BitVec.toNat heq
    rw [BitVec.toNat_ofNat, Nat.mod_eq_of_lt (by omega)] at hnat
    exact nomatch hnat
  rw [hrsi, ne_eq, add_eq_left, stride]
  split
  · rwa [mul_neg, neg_eq_zero, mul_one]
  · rwa [mul_one]

/-! ## The result -/

theorem flag_zero_iff (g : Guest) :
    (difference g).flag .zero = true ↔ byteAt g .RSI = byteAt g .RDI := by
  rw [difference, Llvm.FlagNode.flag]
  exact beq_iff_eq.trans sub_eq_zero

theorem cmpsb_returns_iff (g : Guest) (r : Option Guest) :
    (atFirstUse intOps cmpsbPacket).Returns (.enter intOps 0 g) r ↔ turns.Returns g r :=
  cmpsb_refines.returns_iff ⟨_, rfl⟩ r

/-- The pointers show that no pair was to be compared. -/
theorem CmpsbRight.rcx {g : Guest} (h : CmpsbRight g) : g.get 64 .RCX = 0 := by
  obtain ⟨g', hr, hsame⟩ := h
  obtain ⟨_, hg', hleft⟩ := left_of_returns ((cmpsb_returns_iff g _).1 hr)
  obtain rfl := Option.some.inj hg'
  have hrsi : g'.get 64 .RSI = (repe (g.get 64 .RCX).toNat g).get 64 .RSI := hsame.regs .RSI
  rw [hleft.frame .RSI (by decide)] at hrsi
  cases hn : (g.get 64 .RCX).toNat with
  | zero => exact BitVec.eq_of_toNat_eq hn
  | succ n =>
    rw [hn] at hrsi
    exact absurd hrsi.symm (rsi_repe_ne (hn ▸ BitVec.isLt _) g)

/-- With nothing to compare, the loop ends with `RCX` zero exactly if the bytes are equal. -/
theorem same_of_returns {g g' : Guest} (h0 : g.get 64 .RCX = 0) (hr : turns.Returns g (some g'))
    (hrcx : g'.get 64 .RCX = 0) : byteAt g .RSI = byteAt g .RDI := by
  by_contra hne
  have hagain : again g = false := by
    rw [again, Bool.and_eq_false_iff]
    exact .inl (Bool.eq_false_of_not_eq_true fun h => hne ((flag_zero_iff g).1 h))
  obtain rfl := Option.some.inj (hr.unique (.stop (turns_step_of_not_again hagain)))
  rw [turn, Guest.get_set_self, get_of_le (show 32 ≤ 64 by decide), h0] at hrcx
  exact absurd hrcx (by decide)

/-- The flags of the difference of equal bytes. -/
theorem flag_of_same {g : Guest} (h : byteAt g .RSI = byteAt g .RDI) :
    (difference g).flag .zero = true ∧ (difference g).flag .carry = false ∧
      (difference g).flag .overflow = false ∧ (difference g).flag .negative = false := by
  rw [difference, h]
  generalize byteAt g .RDI = x
  revert x
  decide

theorem CmpsbRight.fits {g : Guest} (h : CmpsbRight g) : CmpsbFits g := by
  have h0 := h.rcx
  obtain ⟨g', hr, hsame⟩ := h
  rw [cmpsb_returns_iff] at hr
  obtain ⟨_, hg', hleft⟩ := left_of_returns hr
  obtain rfl := Option.some.inj hg'
  have hregs : ∀ r, g'.get (holdWidth r) r = g.get (holdWidth r) r := by
    rw [h0] at hsame
    exact hsame.regs
  have hbytes := same_of_returns h0 hr ((hregs .RCX).trans h0)
  obtain ⟨hzf, hcf, hof, hsf⟩ := flag_of_same hbytes
  exact {
    rcx := h0
    same := hbytes
    zf := (hregs .ZF).symm.trans (hleft.zf.trans (congrArg BitVec.ofBool hzf))
    cf := (hregs .CF).symm.trans (hleft.cf.trans (congrArg BitVec.ofBool hcf))
    of := (hregs .OF).symm.trans (hleft.of.trans (congrArg BitVec.ofBool hof))
    sf := (hregs .SF).symm.trans (hleft.sf.trans (congrArg BitVec.ofBool hsf)) }

/-- The loop leaves everything as it is. -/
theorem CmpsbFits.sameGuest {g g' : Guest} (h : CmpsbFits g) (hleft : Left g g')
    (hrcx : g'.get 64 .RCX = 0) : SameGuest g' g := by
  obtain ⟨hzf, hcf, hof, hsf⟩ := flag_of_same h.same
  refine ⟨fun r => ?_, hleft.mem⟩
  by_cases hr : r ∈ turnWrites
  · simp only [turnWrites, List.mem_cons, List.not_mem_nil, or_false] at hr
    rcases hr with rfl | rfl | rfl | rfl | rfl
    · exact hleft.zf.trans ((congrArg BitVec.ofBool hzf).trans h.zf.symm)
    · exact hleft.cf.trans ((congrArg BitVec.ofBool hcf).trans h.cf.symm)
    · exact hleft.of.trans ((congrArg BitVec.ofBool hof).trans h.of.symm)
    · exact hleft.sf.trans ((congrArg BitVec.ofBool hsf).trans h.sf.symm)
    · exact hrcx.trans h.rcx.symm
  · exact hleft.frame r hr _

/-- The packet is right exactly if there is nothing to compare, and what it does all the same leaves
everything as it is. -/
theorem cmpsb_right_iff (g : Guest) : CmpsbRight g ↔ CmpsbFits g := by
  refine ⟨CmpsbRight.fits, fun h => ?_⟩
  have hecx : g.get 32 .RCX = BitVec.ofNat 32 (8 * (2 ^ 29 - 1 + 1)) := by
    rw [get_of_le (show 32 ≤ 64 by decide), h.rcx]
    rfl
  obtain ⟨g', hr, hrcx⟩ :=
    returns_of_count (2 ^ 29 - 1) (by decide) g ((flag_zero_iff g).2 h.same) hecx
  obtain ⟨_, hg', hleft⟩ := left_of_returns hr
  obtain rfl := Option.some.inj hg'
  refine ⟨g', (cmpsb_returns_iff g _).2 hr, ?_⟩
  rw [h.rcx]
  exact h.sameGuest hleft hrcx

/-- One pair of equal bytes. The pointers stay where they are. -/
theorem not_cmpsb_right : ¬CmpsbRight (Guest.set ⟨fun _ => 0, fun _ => 0⟩ .RCX 1#64) := by
  intro h
  have hrcx := h.rcx
  rw [Guest.get_set_self] at hrcx
  exact absurd hrcx (by decide)

end Arancini.X86
