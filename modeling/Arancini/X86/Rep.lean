import Arancini.X86.FirstUse

/-!
# Repeated string instructions

`REP MOVS` and `REP STOS` are translated to a loop of labels and branches inside the packet. `RCX`
is read and tested at the start of it, an element is copied, the pointers move in the direction of
`DF`, and `RCX` goes down by one before the branch back.

The results of a turn are computed anew in the next one, since control passes the actions that are
the first to use them. `IsWhile` says what a packet has to be to loop like this, and `Does` what is
left to show of the copy. Source and destination may overlap : the memory of a turn is the one the
turn before leaves, on both sides of `rep_right`.
-/

namespace Arancini.X86

open Ir

/-! ## Branches -/

/-- `add_br_target`. -/
def addTarget (t : NodeId) : Node → Node
  | .br _ => .br (some t)
  | .condBr c _ => .condBr c (some t)
  | node => node

namespace Builder

/-- An action without a value. -/
def act (node : Node) : Builder Port :=
  insert ⟨.none, 0, 1⟩ node

def label (name : String) : Builder Port :=
  act (.label name)

def br (target : Option Port) : Builder Port :=
  act (.br (target.map (·.owner)))

def condBr (cond : Port) (target : Option Port) : Builder Port :=
  act (.condBr cond (target.map (·.owner)))

/-- `add_br_target` of a branch that was inserted before its label. -/
def addBrTarget (branch label : Port) : Builder PUnit :=
  modify fun nodes => nodes.modify branch.owner (addTarget label.owner)

end Builder

/-! ## The translator -/

namespace OpWidth

def addrAlign : OpWidth → ℕ
  | byte => 1
  | word => 2
  | dword => 4
  | qword => 8

abbrev type (ow : OpWidth) : ValueType :=
  .u ow.bits

end OpWidth

namespace Builder

/-- The case of `REP STOS`. -/
def repStos (ow : OpWidth) : Builder PUnit := do
  let cst0 ← const (.u 64) 0
  let cst1 ← const (.u 64) 1
  let cstAlign ← const (.u 64) ow.addrAlign
  let loopStart ← label "while"
  let rcx ← readReg (.u 64) .RCX "RCX"
  let rcxTest ← binop .cmpeq rcx cst0
  let brLoop ← condBr rcxTest none
  let rax ← readReg ow.type .RAX "RAX"
  let rdi ← readReg (.u 64) .RDI "RDI"
  let _ ← writeMem rdi rax
  let df ← readReg (.u 1) .DF "DF"
  let dfTest ← binop .cmpne df (← const (.u 1) 0)
  let brDf ← condBr dfTest none
  let _ ← writeReg .RDI "RDI" (← binop .add rdi cstAlign)
  let brThen ← br none
  let elseLabel ← label "else"
  addBrTarget brDf elseLabel
  let _ ← writeReg .RDI "RDI" (← binop .sub rdi cstAlign)
  let endifLabel ← label "endif"
  addBrTarget brThen endifLabel
  let _ ← writeReg .RCX "RCX" (← binop .sub rcx cst1)
  let _ ← br loopStart
  let loopEnd ← label "end"
  addBrTarget brLoop loopEnd

/-- The case of `REP MOVS`. -/
def repMovs (ow : OpWidth) : Builder PUnit := do
  let cst0 ← const (.u 64) 0
  let cst1 ← const (.u 64) 1
  let cstAlign ← const (.u 64) ow.addrAlign
  let loopStart ← label "while"
  let rcx ← readReg (.u 64) .RCX "RCX"
  let rcxTest ← binop .cmpeq rcx cst0
  let df ← readReg (.u 1) .DF "DF"
  let dfTest ← binop .cmpne df (← const (.u 1) 0)
  let brLoop ← condBr rcxTest none
  let rsi ← readReg (.u 64) .RSI "RSI"
  let rsiVal ← readMem ow.type rsi
  let rdi ← readReg (.u 64) .RDI "RDI"
  let _ ← writeMem rdi rsiVal
  let subRsi ← binop .sub rsi cstAlign
  let subRdi ← binop .sub rdi cstAlign
  let addRsi ← binop .add rsi cstAlign
  let addRdi ← binop .add rdi cstAlign
  let _ ← writeReg .RDI "RDI" (← csel dfTest subRdi addRdi)
  let _ ← writeReg .RSI "RSI" (← csel dfTest subRsi addRsi)
  let _ ← writeReg .RCX "RCX" (← binop .sub rcx cst1)
  let _ ← br loopStart
  let loopEnd ← label "end"
  addBrTarget brLoop loopEnd

end Builder

/-- The instructions with the width of an element. -/
inductive RepInst
  | movs (ow : OpWidth)
  | stos (ow : OpWidth)

namespace RepInst

/-- `do_translate`. -/
def doTranslate : RepInst → Builder PUnit
  | movs ow => Builder.repMovs ow
  | stos ow => Builder.repStos ow

/-- The packet. No node reads its address. -/
def packet (inst : RepInst) : Packet :=
  packetOf 0 (inst.doTranslate []).2 (by cases inst with | _ ow => cases ow <;> decide)

/-! ## The instructions -/

/-- A pointer after an element, in the direction of `DF`. -/
def advance (ow : OpWidth) (df : BitVec 1) (x : BitVec 64) : BitVec 64 :=
  if df = 1 then x - BitVec.ofNat 64 ow.addrAlign else x + BitVec.ofNat 64 ow.addrAlign

/-- One element is read and written, and the pointers move on. -/
def copy (g : Guest) : RepInst → Guest
  | movs ow =>
    let elem := Guest.load g.mem (g.get 64 .RSI).toNat ow.addrAlign
    ((g.setMem (g.get 64 .RDI).toNat elem ow.addrAlign).set .RDI
      (advance ow (g.get 1 .DF) (g.get 64 .RDI))).set .RSI
        (advance ow (g.get 1 .DF) (g.get 64 .RSI))
  | stos ow =>
    (g.setMem (g.get 64 .RDI).toNat (g.get ow.bits .RAX).toNat ow.addrAlign).set .RDI
      (advance ow (g.get 1 .DF) (g.get 64 .RDI))

/-- One element, of those that `RCX` counts. -/
def element (inst : RepInst) (g : Guest) : Guest :=
  (copy g inst).set .RCX (g.get 64 .RCX - 1)

end RepInst

/-- The node is a branch back. -/
def isBack (p : Packet) (n : NodeId) : Bool :=
  match p.nodes[n]? with
  | some (.br (some t)) => t < n
  | _ => false

/-- The run of the packet goes `n` times back to the start of the loop and ends with `g'`. -/
def Loops (p : Packet) (g : Guest) (n : ℕ) (g' : Guest) : Prop :=
  ∃ c, (atFirstUse intOps p).Passes (fun c => isBack p c.pos) (.enter intOps 0 g) n c ∧
    (atFirstUse intOps p).step c = .inr (some g')

/-! ## The loop -/

/-- The value of a node. -/
abbrev val (w n : ℕ) : Port :=
  ⟨.value, .u w, n⟩

/-- The packet is a loop that `RCX` counts down, with the branch out of it at `b` and the count at
`s`. -/
@[mk_iff]
structure IsWhile (p : Packet) (b s fin : ℕ) : Prop where
  zero : 0 ∈ knowns p.nodes ∧ p.nodes[0]? = some (.constant (.u 64) 0)
  one : 1 ∈ knowns p.nodes ∧ p.nodes[1]? = some (.constant (.u 64) 1)
  start : p.nodes[3]? = some (.label "while")
  rcx : p.nodes[4]? = some (.readReg (.u 64) Reg.RCX.offset Reg.RCX.idx "RCX")
  test : p.nodes[5]? = some (.binaryArith .cmpeq (val 64 4) (val 64 0))
  exit : p.nodes[b]? = some (.condBr (val 64 5) (some fin))
  count : p.nodes[s]? = some (.binaryArith .sub (val 64 4) (val 64 1))
  write : p.nodes[s + 1]? = some (.writeReg Reg.RCX.offset Reg.RCX.idx "RCX" (val 64 s))
  back : p.nodes[s + 2]? = some (.br (some 3))
  last : p.nodes[fin]? = some (.label "end") ∧ p.nodes.length = fin + 1
  uses : firstUses p.nodes p.actions b = [4, 5] ∧ firstUses p.nodes p.actions (s + 1) = [s]
  enter : 0 ∉ p.actions ∧ IsNext p 1 3
  next : IsNext p 3 3 ∧ IsNext p 4 b ∧ IsNext p s (s + 1) ∧ IsNext p (s + 2) (s + 2) ∧
    IsNext p fin fin
  only : (∀ n < fin + 1, isBack p n ↔ n = s + 2) ∧ b < s ∧ s + 2 < fin

instance (p : Packet) (b s fin : ℕ) : Decidable (IsWhile p b s fin) :=
  decidable_of_iff' _ (isWhile_iff p b s fin)

namespace IsWhile

variable {p : Packet} {b s fin : ℕ} {g : Guest} {l : ℕ → ℕ} {env : Env}

theorem isBack_eq (h : IsWhile p b s fin) :
    (fun c : Config => (isBack p c.pos : Prop)) = fun c => c.pos = s + 2 := by
  funext c
  obtain ⟨hback, -, hlt⟩ := h.only
  rcases Nat.lt_or_ge c.pos (fin + 1) with hc | hc
  · exact propext (hback c.pos hc)
  · have hnone : p.nodes[c.pos]? = none := List.getElem?_eq_none (h.last.2 ▸ hc)
    refine propext (iff_of_false (fun hback => ?_) (hlt.trans hc).ne')
    rw [isBack, hnone] at hback
    exact nomatch hback

theorem zero_eq (h : IsWhile p b s fin) (hk : KnowsAll intOps p env) :
    env.port (val 64 0) = some (0#64).toNat :=
  (hk 0 h.zero.1 ⟨fun _ => 0, fun _ => 0⟩ intOps.local₀).constant h.zero.2

theorem one_eq (h : IsWhile p b s fin) (hk : KnowsAll intOps p env) :
    env.port (val 64 1) = some (1#64).toNat :=
  (hk 1 h.one.1 ⟨fun _ => 0, fun _ => 0⟩ intOps.local₀).constant h.one.2

/-- The test of `RCX`, and the branch out of the loop. -/
theorem passes_head (h : IsWhile p b s fin) (hk : KnowsAll intOps p env) :
    ∃ env', (atFirstUse intOps p).Passes (·.pos = s + 2) ⟨0, 3, g, l, env⟩ 0
        ⟨0, if g.get 64 .RCX = 0 then fin else b + 1, g, l, env'⟩ ∧
      KnowsAll intOps p env' ∧ env'.port (val 64 4) = some (g.get 64 .RCX).toNat := by
  obtain ⟨hlabel, hexit, -, hback, -⟩ := h.next
  have hlt := h.only.2.1
  have hle := hexit.le
  have hk₁ := knowsAll_atAction hk 3 g l
  have hk₂ := knowsAll_atAction hk₁ b g l
  have hagrees : ∀ m ∈ [4, 5], Agrees intOps p g l
      (atAction intOps p b g l (atAction intOps p 3 g l env)) m :=
    fun m hm => agrees_of_mem (h.uses.1 ▸ hm)
  have hrcx := (hagrees 4 (by decide)).readReg (o := val 64 4) h.rcx
  have htest := (hagrees 5 (by decide)).binaryArith (o := val 64 5) h.test rfl hrcx (h.zero_eq hk₂)
  have hpos : (if (integerNode .unsigned .cmpeq (g.get 64 .RCX) 0#64).result .value = 0 then b + 1
      else fin) = if g.get 64 .RCX = 0 then fin else b + 1 := by
    rw [if_congr (cmpeq_eq_zero_iff .unsigned _ _ (by decide)) rfl rfl, ite_not]
    rfl
  refine ⟨_, ?_, hk₂, hrcx⟩
  refine passes_act hback.mem hlabel h.start act_label (by omega) ?_
  refine passes_act hback.mem hexit h.exit (act_condBr htest) (by omega) ?_
  rw [← hpos]
  exact .refl _

/-- The count, and the branch back. -/
theorem passes_tail (h : IsWhile p b s fin) (hk : KnowsAll intOps p env) {rcx : BitVec 64}
    (hrcx : env.port (val 64 4) = some rcx.toNat) :
    ∃ env', (atFirstUse intOps p).Passes (·.pos = s + 2) ⟨0, s, g, l, env⟩ 1
      ⟨0, 3, g.set .RCX (rcx - 1), l, env'⟩ ∧ KnowsAll intOps p env' := by
  obtain ⟨-, hexit, hwrite, hback, -⟩ := h.next
  have hlt := h.only.2.1
  have hle := hexit.le
  have hk₁ := knowsAll_atAction hk (s + 1) g l
  have hagrees : Agrees intOps p g l (atAction intOps p (s + 1) g l env) s :=
    agrees_of_mem (by rw [h.uses.2]; exact List.mem_singleton_self s)
  have hkeep : (atAction intOps p (s + 1) g l env).port (val 64 4) = some rcx.toNat := by
    rw [port_atAction, hrcx]
    rw [h.uses.2, List.mem_singleton]
    exact (hle.trans_lt hlt).ne
  have hcount := hagrees.binaryArith (o := val 64 s) h.count rfl hkeep (h.one_eq hk₁)
  refine ⟨_, ?_, knowsAll_atAction hk₁ (s + 2) (g.set .RCX (rcx - 1)) l⟩
  refine passes_act hback.mem hwrite h.write (act_writeReg hcount) (by omega) ?_
  exact passes_count hback h.back act_br (.refl _)

/-- What is between the two does `body`, and leaves `RCX` and the result of its read as they are. -/
def Does (p : Packet) (b s : ℕ) (body : Guest → Guest) : Prop :=
  ∀ g l env, KnowsAll intOps p env → env.port (val 64 4) = some (g.get 64 .RCX).toNat →
    ∃ env', (atFirstUse intOps p).Passes (·.pos = s + 2) ⟨0, b + 1, g, l, env⟩ 0
        ⟨0, s, body g, l, env'⟩ ∧
      KnowsAll intOps p env' ∧ env'.port (val 64 4) = some (g.get 64 .RCX).toNat

/-- The turns that are left, from the start of the loop. -/
theorem passes_turns (h : IsWhile p b s fin) {body : Guest → Guest} (hbody : Does p b s body)
    (hrcx : ∀ g, (body g).get 64 .RCX = g.get 64 .RCX) :
    ∀ (n : ℕ) (g : Guest) (env : Env), KnowsAll intOps p env → (g.get 64 .RCX).toNat = n →
      ∃ c, (atFirstUse intOps p).Passes (·.pos = s + 2) ⟨0, 3, g, l, env⟩ n c ∧
        (atFirstUse intOps p).step c =
          .inr (some ((fun g => (body g).set .RCX (g.get 64 .RCX - 1))^[n] g))
  | 0, g, env, hk, hn => by
    obtain ⟨env₁, hhead, -, -⟩ := h.passes_head (g := g) (l := l) hk
    obtain ⟨-, -, -, hback, hfin⟩ := h.next
    rw [if_pos (BitVec.eq_of_toNat_eq hn)] at hhead
    refine ⟨⟨0, fin + 1, g, l, atAction intOps p fin g l env₁⟩, hhead.trans_zero ?_,
      step_last h.last.2.le⟩
    exact passes_act hback.mem hfin h.last.1 act_label h.only.2.2.ne' (.refl _)
  | n + 1, g, env, hk, hn => by
    have hne : g.get 64 .RCX ≠ 0 := by
      intro hzero
      rw [hzero] at hn
      exact nomatch hn
    have hpred : (((body g).set .RCX (g.get 64 .RCX - 1)).get 64 .RCX).toNat = n := by
      have hone : (1 : BitVec 64).toNat = 1 := rfl
      rw [Guest.get_set_self, BitVec.toNat_sub_of_le (by rw [BitVec.le_def]; omega), hn, hone,
        Nat.add_sub_cancel]
    obtain ⟨env₁, hhead, hk₁, hrcx₁⟩ := h.passes_head (g := g) (l := l) hk
    rw [if_neg hne] at hhead
    obtain ⟨env₂, hturn, hk₂, hrcx₂⟩ := hbody g l env₁ hk₁ hrcx₁
    obtain ⟨env₃, htail, hk₃⟩ := h.passes_tail (g := body g) (l := l) hk₂ hrcx₂
    obtain ⟨c, hrest, hc⟩ := passes_turns h hbody hrcx n _ env₃ hk₃ hpred
    refine ⟨c, ?_, hc⟩
    rw [Nat.add_comm n 1]
    exact hhead.trans_zero (hturn.trans_zero (htail.trans hrest))

theorem loops_of_does (h : IsWhile p b s fin) {body : Guest → Guest} (hbody : Does p b s body)
    (hrcx : ∀ g, (body g).get 64 .RCX = g.get 64 .RCX) (g : Guest) :
    Loops p g (g.get 64 .RCX).toNat
      ((fun g => (body g).set .RCX (g.get 64 .RCX - 1))^[(g.get 64 .RCX).toNat] g) := by
  obtain ⟨henter, hfirst⟩ := h.enter
  have hback := h.next.2.2.2.1
  have hlen : 3 < p.nodes.length := (List.getElem?_eq_some_iff.1 h.start).1
  obtain ⟨env, hstart, hk⟩ := @passes_enter intOps p g (s + 2) hback.mem henter (by omega)
  obtain ⟨c, hturns, hc⟩ := h.passes_turns hbody hrcx _ g env hk rfl
  refine ⟨c, ?_, hc⟩
  rw [h.isBack_eq]
  exact hstart.trans_zero
    ((passes_action hback.mem hfirst.pos hfirst.le hlen.le hfirst.first).trans_zero hturns)

end IsWhile

/-! ## The copies -/

namespace RepInst

theorem advance_eq (ow : OpWidth) (df : BitVec 1) (x : BitVec 64) :
    (if (integerNode .unsigned .cmpne df 0#1).result .value = 0 then
        (x + BitVec.ofNat 64 ow.addrAlign).toNat
      else (x - BitVec.ofNat 64 ow.addrAlign).toNat) = (advance ow df x).toNat := by
  have hbit : df = 0#1 ↔ ¬df = 1 := by
    revert df
    decide
  rw [if_congr ((cmpne_eq_zero_iff .unsigned df 0#1 (by decide)).trans hbit) rfl rfl, ite_not,
    advance, apply_ite BitVec.toNat]

section Movs

variable {ow : OpWidth} {g : Guest} {l : ℕ → ℕ} {env : Env}

theorem movs_nodes (ow : OpWidth) : (movs ow).packet.nodes =
    [.constant (.u 64) 0, .constant (.u 64) 1, .constant (.u 64) ow.addrAlign, .label "while",
      .readReg (.u 64) Reg.RCX.offset Reg.RCX.idx "RCX", .binaryArith .cmpeq (val 64 4) (val 64 0),
      .readReg (.u 1) Reg.DF.offset Reg.DF.idx "DF", .constant (.u 1) 0,
      .binaryArith .cmpne (val 1 6) (val 1 7), .condBr (val 64 5) (some 25),
      .readReg (.u 64) Reg.RSI.offset Reg.RSI.idx "RSI", .readMem ow.type (val 64 10),
      .readReg (.u 64) Reg.RDI.offset Reg.RDI.idx "RDI", .writeMem (val 64 12) (val ow.bits 11),
      .binaryArith .sub (val 64 10) (val 64 2), .binaryArith .sub (val 64 12) (val 64 2),
      .binaryArith .add (val 64 10) (val 64 2), .binaryArith .add (val 64 12) (val 64 2),
      .csel (val 1 8) (val 64 15) (val 64 17),
      .writeReg Reg.RDI.offset Reg.RDI.idx "RDI" (val 64 18),
      .csel (val 1 8) (val 64 14) (val 64 16),
      .writeReg Reg.RSI.offset Reg.RSI.idx "RSI" (val 64 20),
      .binaryArith .sub (val 64 4) (val 64 1),
      .writeReg Reg.RCX.offset Reg.RCX.idx "RCX" (val 64 22), .br (some 3), .label "end"] := by
  cases ow <;> decide

theorem movs_isWhile (ow : OpWidth) : IsWhile (movs ow).packet 9 22 25 := by
  cases ow <;> decide

theorem movs_next (ow : OpWidth) :
    ∀ n ∈ [(10, 13), (14, 19), (20, 21)], IsNext (movs ow).packet n.1 n.2 := by
  cases ow <;> decide

theorem movs_firstUses (ow : OpWidth) :
    firstUses (movs ow).packet.nodes (movs ow).packet.actions 13 = [10, 11, 12] ∧
      firstUses (movs ow).packet.nodes (movs ow).packet.actions 19 = [6, 8, 15, 17, 18] ∧
      firstUses (movs ow).packet.nodes (movs ow).packet.actions 21 = [14, 16, 20] := by
  cases ow <;> decide

theorem movs_known (hk : KnowsAll intOps (movs ow).packet env) :
    env.port (val 64 2) = some (BitVec.ofNat 64 ow.addrAlign).toNat ∧
      env.port (val 1 7) = some (0#1).toNat := by
  have hknowns : ∀ m ∈ [2, 7], m ∈ knowns (movs ow).packet.nodes := by
    cases ow <;> decide
  have hagrees := fun m hm => hk m (hknowns m hm) ⟨fun _ => 0, fun _ => 0⟩ intOps.local₀
  have halign : ow.addrAlign = (BitVec.ofNat 64 ow.addrAlign).toNat := by cases ow <;> rfl
  rw [← halign]
  exact ⟨(hagrees 2 (by decide)).constant (by rw [movs_nodes]; rfl),
    (hagrees 7 (by decide)).constant (by rw [movs_nodes]; rfl)⟩

/-- The element is read and written. -/
theorem movs_passes_write (hk : KnowsAll intOps (movs ow).packet env) :
    ∃ env', (atFirstUse intOps (movs ow).packet).Passes (·.pos = 24) ⟨0, 10, g, l, env⟩ 0
        ⟨0, 14, g.setMem (g.get 64 .RDI).toNat
          (Guest.load g.mem (g.get 64 .RSI).toNat ow.addrAlign) ow.addrAlign, l, env'⟩ ∧
      KnowsAll intOps (movs ow).packet env' ∧ env'.port (val 64 4) = env.port (val 64 4) ∧
      env'.port (val 64 10) = some (g.get 64 .RSI).toNat ∧
      env'.port (val 64 12) = some (g.get 64 .RDI).toNat := by
  obtain ⟨-, -, -, hback, -⟩ := (movs_isWhile ow).next
  have huses := (movs_firstUses ow).1
  have hagrees : ∀ m ∈ [10, 11, 12], Agrees intOps (movs ow).packet g l
      (atAction intOps (movs ow).packet 13 g l env) m :=
    fun m hm => agrees_of_mem (huses ▸ hm)
  have hrsi := (hagrees 10 (by decide)).readReg (o := val 64 10) (by rw [movs_nodes]; rfl)
  have hval := (hagrees 11 (by decide)).readMem (o := val ow.bits 11) (by rw [movs_nodes]; rfl) hrsi
  have hrdi := (hagrees 12 (by decide)).readReg (o := val 64 12) (by rw [movs_nodes]; rfl)
  have halign : ow.addrAlign = ow.type.width / 8 := by cases ow <;> rfl
  rw [halign]
  refine ⟨_, ?_, knowsAll_atAction hk 13 g l, port_atAction (huses ▸ by decide), hrsi, hrdi⟩
  exact passes_act hback.mem (movs_next ow (10, 13) (by decide)) (by rw [movs_nodes]; rfl)
    (act_writeMem hrdi hval) (by decide) (.refl _)

/-- The pointer of the destination moves on. -/
theorem movs_passes_rdi (hk : KnowsAll intOps (movs ow).packet env) {rdi : BitVec 64}
    (hrdi : env.port (val 64 12) = some rdi.toNat) :
    ∃ env', (atFirstUse intOps (movs ow).packet).Passes (·.pos = 24) ⟨0, 14, g, l, env⟩ 0
        ⟨0, 20, g.set .RDI (advance ow (g.get 1 .DF) rdi), l, env'⟩ ∧
      KnowsAll intOps (movs ow).packet env' ∧ env'.port (val 64 4) = env.port (val 64 4) ∧
      env'.port (val 64 10) = env.port (val 64 10) ∧
      env'.port (val 1 8) =
        some ((integerNode .unsigned .cmpne (g.get 1 .DF) 0#1).result .value) := by
  obtain ⟨-, -, -, hback, -⟩ := (movs_isWhile ow).next
  have huses := (movs_firstUses ow).2.1
  have hagrees : ∀ m ∈ [6, 8, 15, 17, 18], Agrees intOps (movs ow).packet g l
      (atAction intOps (movs ow).packet 19 g l env) m :=
    fun m hm => agrees_of_mem (huses ▸ hm)
  have hkeep : ∀ m ∉ [6, 8, 15, 17, 18],
      (atAction intOps (movs ow).packet 19 g l env).port (val 64 m) = env.port (val 64 m) :=
    fun m hm => port_atAction (huses ▸ hm)
  have hk' := knowsAll_atAction hk 19 g l
  obtain ⟨halign, hzero⟩ := movs_known hk'
  have hrdi' := (hkeep 12 (by decide)).trans hrdi
  have hdf := (hagrees 6 (by decide)).readReg (o := val 1 6) (by rw [movs_nodes]; rfl)
  have htest := (hagrees 8 (by decide)).binaryArith (o := val 1 8) (by rw [movs_nodes]; rfl) rfl
    hdf hzero
  have hsub := (hagrees 15 (by decide)).binaryArith (o := val 64 15) (by rw [movs_nodes]; rfl) rfl
    hrdi' halign
  have hadd := (hagrees 17 (by decide)).binaryArith (o := val 64 17) (by rw [movs_nodes]; rfl) rfl
    hrdi' halign
  have hcsel := (hagrees 18 (by decide)).csel (o := val 64 18) (by rw [movs_nodes]; rfl) htest
    hsub hadd
  refine ⟨_, ?_, hk', hkeep 4 (by decide), hkeep 10 (by decide), htest⟩
  exact passes_act hback.mem (movs_next ow (14, 19) (by decide)) (by rw [movs_nodes]; rfl)
    (act_writeReg (hcsel.trans (congrArg some (advance_eq ow _ rdi)))) (by decide) (.refl _)

/-- The pointer of the source moves on, by the direction that was read before. -/
theorem movs_passes_rsi (hk : KnowsAll intOps (movs ow).packet env) {df : BitVec 1}
    {rsi : BitVec 64} (hrsi : env.port (val 64 10) = some rsi.toNat)
    (htest : env.port (val 1 8) =
      some ((integerNode .unsigned .cmpne df 0#1).result .value)) :
    ∃ env', (atFirstUse intOps (movs ow).packet).Passes (·.pos = 24) ⟨0, 20, g, l, env⟩ 0
        ⟨0, 22, g.set .RSI (advance ow df rsi), l, env'⟩ ∧
      KnowsAll intOps (movs ow).packet env' ∧ env'.port (val 64 4) = env.port (val 64 4) := by
  obtain ⟨-, -, -, hback, -⟩ := (movs_isWhile ow).next
  have huses := (movs_firstUses ow).2.2
  have hagrees : ∀ m ∈ [14, 16, 20], Agrees intOps (movs ow).packet g l
      (atAction intOps (movs ow).packet 21 g l env) m :=
    fun m hm => agrees_of_mem (huses ▸ hm)
  have hkeep : ∀ m ∉ [14, 16, 20], ∀ w,
      (atAction intOps (movs ow).packet 21 g l env).port (val w m) = env.port (val w m) :=
    fun m hm w => port_atAction (huses ▸ hm)
  have hk' := knowsAll_atAction hk 21 g l
  obtain ⟨halign, -⟩ := movs_known hk'
  have hrsi' := (hkeep 10 (by decide) 64).trans hrsi
  have htest' := (hkeep 8 (by decide) 1).trans htest
  have hsub := (hagrees 14 (by decide)).binaryArith (o := val 64 14) (by rw [movs_nodes]; rfl) rfl
    hrsi' halign
  have hadd := (hagrees 16 (by decide)).binaryArith (o := val 64 16) (by rw [movs_nodes]; rfl) rfl
    hrsi' halign
  have hcsel := (hagrees 20 (by decide)).csel (o := val 64 20) (by rw [movs_nodes]; rfl) htest'
    hsub hadd
  refine ⟨_, ?_, hk', hkeep 4 (by decide) 64⟩
  exact passes_act hback.mem (movs_next ow (20, 21) (by decide)) (by rw [movs_nodes]; rfl)
    (act_writeReg (hcsel.trans (congrArg some (advance_eq ow df rsi)))) (by decide) (.refl _)

theorem movs_does (ow : OpWidth) : IsWhile.Does (movs ow).packet 9 22 (copy · (movs ow)) := by
  intro g l env hk hrcx
  obtain ⟨env₁, hwrite, hk₁, hrcx₁, hrsi₁, hrdi₁⟩ := movs_passes_write (g := g) (l := l) hk
  obtain ⟨env₂, hrdi, hk₂, hrcx₂, hrsi₂, htest₂⟩ := movs_passes_rdi (l := l) hk₁ hrdi₁
  obtain ⟨env₃, hrsi, hk₃, hrcx₃⟩ := movs_passes_rsi (l := l) hk₂ (hrsi₂.trans hrsi₁) htest₂
  exact ⟨env₃, hwrite.trans_zero (hrdi.trans_zero hrsi), hk₃,
    hrcx₃.trans (hrcx₂.trans (hrcx₁.trans hrcx))⟩

end Movs

section Stos

variable {ow : OpWidth} {g : Guest} {l : ℕ → ℕ} {env : Env}

theorem stos_nodes (ow : OpWidth) : (stos ow).packet.nodes =
    [.constant (.u 64) 0, .constant (.u 64) 1, .constant (.u 64) ow.addrAlign, .label "while",
      .readReg (.u 64) Reg.RCX.offset Reg.RCX.idx "RCX", .binaryArith .cmpeq (val 64 4) (val 64 0),
      .condBr (val 64 5) (some 24), .readReg ow.type Reg.RAX.offset Reg.RAX.idx "RAX",
      .readReg (.u 64) Reg.RDI.offset Reg.RDI.idx "RDI", .writeMem (val 64 8) (val ow.bits 7),
      .readReg (.u 1) Reg.DF.offset Reg.DF.idx "DF", .constant (.u 1) 0,
      .binaryArith .cmpne (val 1 10) (val 1 11), .condBr (val 1 12) (some 17),
      .binaryArith .add (val 64 8) (val 64 2),
      .writeReg Reg.RDI.offset Reg.RDI.idx "RDI" (val 64 14), .br (some 20), .label "else",
      .binaryArith .sub (val 64 8) (val 64 2),
      .writeReg Reg.RDI.offset Reg.RDI.idx "RDI" (val 64 18), .label "endif",
      .binaryArith .sub (val 64 4) (val 64 1),
      .writeReg Reg.RCX.offset Reg.RCX.idx "RCX" (val 64 21), .br (some 3), .label "end"] := by
  cases ow <;> decide

theorem stos_isWhile (ow : OpWidth) : IsWhile (stos ow).packet 6 21 24 := by
  cases ow <;> decide

theorem stos_next (ow : OpWidth) :
    ∀ n ∈ [(7, 9), (10, 13), (14, 15), (16, 16), (17, 17), (18, 19), (20, 20)],
      IsNext (stos ow).packet n.1 n.2 := by
  cases ow <;> decide

theorem stos_firstUses (ow : OpWidth) :
    firstUses (stos ow).packet.nodes (stos ow).packet.actions 9 = [7, 8] ∧
      firstUses (stos ow).packet.nodes (stos ow).packet.actions 13 = [10, 12] ∧
      firstUses (stos ow).packet.nodes (stos ow).packet.actions 15 = [14] ∧
      firstUses (stos ow).packet.nodes (stos ow).packet.actions 19 = [18] ∧
      ∀ n ∈ [16, 17, 20],
        firstUses (stos ow).packet.nodes (stos ow).packet.actions n = [] := by
  cases ow <;> decide

theorem stos_known (hk : KnowsAll intOps (stos ow).packet env) :
    env.port (val 64 2) = some (BitVec.ofNat 64 ow.addrAlign).toNat ∧
      env.port (val 1 11) = some (0#1).toNat := by
  have hknowns : ∀ m ∈ [2, 11], m ∈ knowns (stos ow).packet.nodes := by
    cases ow <;> decide
  have hagrees := fun m hm => hk m (hknowns m hm) ⟨fun _ => 0, fun _ => 0⟩ intOps.local₀
  have halign : ow.addrAlign = (BitVec.ofNat 64 ow.addrAlign).toNat := by cases ow <;> rfl
  rw [← halign]
  exact ⟨(hagrees 2 (by decide)).constant (by rw [stos_nodes]; rfl),
    (hagrees 11 (by decide)).constant (by rw [stos_nodes]; rfl)⟩

/-- The element is written. -/
theorem stos_passes_write (hk : KnowsAll intOps (stos ow).packet env) :
    ∃ env', (atFirstUse intOps (stos ow).packet).Passes (·.pos = 23) ⟨0, 7, g, l, env⟩ 0
        ⟨0, 10, g.setMem (g.get 64 .RDI).toNat (g.get ow.bits .RAX).toNat ow.addrAlign, l,
          env'⟩ ∧
      KnowsAll intOps (stos ow).packet env' ∧ env'.port (val 64 4) = env.port (val 64 4) ∧
      env'.port (val 64 8) = some (g.get 64 .RDI).toNat := by
  obtain ⟨-, -, -, hback, -⟩ := (stos_isWhile ow).next
  have huses := (stos_firstUses ow).1
  have hagrees : ∀ m ∈ [7, 8], Agrees intOps (stos ow).packet g l
      (atAction intOps (stos ow).packet 9 g l env) m :=
    fun m hm => agrees_of_mem (huses ▸ hm)
  have hval := (hagrees 7 (by decide)).readReg (o := val ow.bits 7) (by rw [stos_nodes]; rfl)
  have hrdi := (hagrees 8 (by decide)).readReg (o := val 64 8) (by rw [stos_nodes]; rfl)
  have halign : ow.addrAlign = ow.type.width / 8 := by cases ow <;> rfl
  rw [halign]
  refine ⟨_, ?_, knowsAll_atAction hk 9 g l, port_atAction (huses ▸ by decide), hrdi⟩
  exact passes_act hback.mem (stos_next ow (7, 9) (by decide)) (by rw [stos_nodes]; rfl)
    (act_writeMem hrdi hval) (by decide) (.refl _)

/-- The branch on the direction. -/
theorem stos_passes_test (hk : KnowsAll intOps (stos ow).packet env) :
    ∃ env', (atFirstUse intOps (stos ow).packet).Passes (·.pos = 23) ⟨0, 10, g, l, env⟩ 0
        ⟨0, if g.get 1 .DF = 0 then 14 else 17, g, l, env'⟩ ∧
      KnowsAll intOps (stos ow).packet env' ∧ env'.port (val 64 4) = env.port (val 64 4) ∧
      env'.port (val 64 8) = env.port (val 64 8) := by
  obtain ⟨-, -, -, hback, -⟩ := (stos_isWhile ow).next
  have huses := (stos_firstUses ow).2.1
  have hagrees : ∀ m ∈ [10, 12], Agrees intOps (stos ow).packet g l
      (atAction intOps (stos ow).packet 13 g l env) m :=
    fun m hm => agrees_of_mem (huses ▸ hm)
  have hk' := knowsAll_atAction hk 13 g l
  have hdf := (hagrees 10 (by decide)).readReg (o := val 1 10) (by rw [stos_nodes]; rfl)
  have htest := (hagrees 12 (by decide)).binaryArith (o := val 1 12) (by rw [stos_nodes]; rfl) rfl
    hdf (stos_known hk').2
  have hpos : (if (integerNode .unsigned .cmpne (g.get 1 .DF) 0#1).result .value = 0 then 14
      else 17) = if g.get 1 .DF = 0 then 14 else 17 :=
    if_congr (cmpne_eq_zero_iff .unsigned _ _ (by decide)) rfl rfl
  refine ⟨_, ?_, hk', port_atAction (huses ▸ by decide), port_atAction (huses ▸ by decide)⟩
  refine passes_act hback.mem (stos_next ow (10, 13) (by decide)) (by rw [stos_nodes]; rfl)
    (act_condBr htest) (by decide) ?_
  rw [← hpos]
  exact .refl _

/-- The pointer moves up, and control jumps over the other way. -/
theorem stos_passes_add (hk : KnowsAll intOps (stos ow).packet env) {rdi : BitVec 64}
    (hrdi : env.port (val 64 8) = some rdi.toNat) :
    ∃ env', (atFirstUse intOps (stos ow).packet).Passes (·.pos = 23) ⟨0, 14, g, l, env⟩ 0
        ⟨0, 20, g.set .RDI (rdi + BitVec.ofNat 64 ow.addrAlign), l, env'⟩ ∧
      KnowsAll intOps (stos ow).packet env' ∧ env'.port (val 64 4) = env.port (val 64 4) := by
  obtain ⟨-, -, -, hback, -⟩ := (stos_isWhile ow).next
  obtain ⟨-, -, huses, -, hnone⟩ := stos_firstUses ow
  have hagrees : Agrees intOps (stos ow).packet g l
      (atAction intOps (stos ow).packet 15 g l env) 14 :=
    agrees_of_mem (huses ▸ by decide)
  have hkeep : ∀ m ∉ [14],
      (atAction intOps (stos ow).packet 15 g l env).port (val 64 m) = env.port (val 64 m) :=
    fun m hm => port_atAction (huses ▸ hm)
  have hk' := knowsAll_atAction hk 15 g l
  have hadd := hagrees.binaryArith (o := val 64 14) (by rw [stos_nodes]; rfl) rfl
    ((hkeep 8 (by decide)).trans hrdi) (stos_known hk').1
  refine ⟨_, ?_, knowsAll_atAction hk' 16 (g.set .RDI (rdi + BitVec.ofNat 64 ow.addrAlign)) l,
    (port_atAction (hnone 16 (by decide) ▸ by decide)).trans (hkeep 4 (by decide))⟩
  refine passes_act hback.mem (stos_next ow (14, 15) (by decide)) (by rw [stos_nodes]; rfl)
    (act_writeReg hadd) (by decide) ?_
  exact passes_act hback.mem (stos_next ow (16, 16) (by decide)) (by rw [stos_nodes]; rfl)
    act_br (by decide) (.refl _)

/-- The pointer moves down. -/
theorem stos_passes_sub (hk : KnowsAll intOps (stos ow).packet env) {rdi : BitVec 64}
    (hrdi : env.port (val 64 8) = some rdi.toNat) :
    ∃ env', (atFirstUse intOps (stos ow).packet).Passes (·.pos = 23) ⟨0, 17, g, l, env⟩ 0
        ⟨0, 20, g.set .RDI (rdi - BitVec.ofNat 64 ow.addrAlign), l, env'⟩ ∧
      KnowsAll intOps (stos ow).packet env' ∧ env'.port (val 64 4) = env.port (val 64 4) := by
  obtain ⟨-, -, -, hback, -⟩ := (stos_isWhile ow).next
  obtain ⟨-, -, -, huses, hnone⟩ := stos_firstUses ow
  have hagrees : Agrees intOps (stos ow).packet g l (atAction intOps (stos ow).packet 19 g
      l (atAction intOps (stos ow).packet 17 g l env)) 18 :=
    agrees_of_mem (huses ▸ by decide)
  have hkeep : ∀ m ∉ [18], (atAction intOps (stos ow).packet 19 g l
      (atAction intOps (stos ow).packet 17 g l env)).port (val 64 m) = env.port (val 64 m) :=
    fun m hm => (port_atAction (huses ▸ hm)).trans
      (port_atAction (hnone 17 (by decide) ▸ List.not_mem_nil))
  have hk' := knowsAll_atAction (knowsAll_atAction hk 17 g l) 19 g l
  have hsub := hagrees.binaryArith (o := val 64 18) (by rw [stos_nodes]; rfl) rfl
    ((hkeep 8 (by decide)).trans hrdi) (stos_known hk').1
  refine ⟨_, ?_, hk', hkeep 4 (by decide)⟩
  refine passes_act hback.mem (stos_next ow (17, 17) (by decide)) (by rw [stos_nodes]; rfl)
    act_label (by decide) ?_
  exact passes_act hback.mem (stos_next ow (18, 19) (by decide)) (by rw [stos_nodes]; rfl)
    (act_writeReg hsub) (by decide) (.refl _)

/-- The pointer moves on, one way or the other. -/
theorem stos_passes_rdi (hk : KnowsAll intOps (stos ow).packet env) {rdi : BitVec 64}
    (hrdi : env.port (val 64 8) = some rdi.toNat) :
    ∃ env', (atFirstUse intOps (stos ow).packet).Passes (·.pos = 23)
        ⟨0, if g.get 1 .DF = 0 then 14 else 17, g, l, env⟩ 0
        ⟨0, 20, g.set .RDI (advance ow (g.get 1 .DF) rdi), l, env'⟩ ∧
      KnowsAll intOps (stos ow).packet env' ∧ env'.port (val 64 4) = env.port (val 64 4) := by
  by_cases hdf : g.get 1 .DF = 0
  · rw [if_pos hdf, advance, if_neg (hdf ▸ by decide)]
    exact stos_passes_add hk hrdi
  · have hone : ∀ df : BitVec 1, df ≠ 0 → df = 1 := by decide
    rw [if_neg hdf, advance, if_pos (hone _ hdf)]
    exact stos_passes_sub hk hrdi

theorem stos_does (ow : OpWidth) : IsWhile.Does (stos ow).packet 6 21 (copy · (stos ow)) := by
  intro g l env hk hrcx
  obtain ⟨-, -, -, hback, -⟩ := (stos_isWhile ow).next
  have hnone := (stos_firstUses ow).2.2.2.2 20 (by decide)
  obtain ⟨env₁, hwrite, hk₁, hrcx₁, hrdi₁⟩ := stos_passes_write (g := g) (l := l) hk
  obtain ⟨env₂, htest, hk₂, hrcx₂, hrdi₂⟩ := stos_passes_test (l := l) hk₁
  obtain ⟨env₃, hrdi, hk₃, hrcx₃⟩ := stos_passes_rdi (l := l) hk₂ (hrdi₂.trans hrdi₁)
  refine ⟨_, hwrite.trans_zero (htest.trans_zero (hrdi.trans_zero ?_)),
    knowsAll_atAction hk₃ 20 (copy g (stos ow)) l, ?_⟩
  · exact passes_act hback.mem (stos_next ow (20, 20) (by decide)) (by rw [stos_nodes]; rfl)
      act_label (by decide) (.refl _)
  · rw [port_atAction (hnone ▸ List.not_mem_nil), hrcx₃, hrcx₂, hrcx₁, hrcx]

end Stos

/-! ## The result -/

theorem rcx_copy (inst : RepInst) (g : Guest) : (copy g inst).get 64 .RCX = g.get 64 .RCX := by
  cases inst <;> simp [copy]

theorem rcx_iterate_element (inst : RepInst) (g : Guest) :
    ∀ n, (inst.element^[n] g).get 64 .RCX = g.get 64 .RCX - BitVec.ofNat 64 n
  | 0 => (BitVec.sub_zero _).symm
  | n + 1 => by
    rw [Function.iterate_succ_apply', element, Guest.get_set_self, rcx_iterate_element inst g n,
      BitVec.ofNat_add, sub_add_eq_sub_sub]
    rfl

/-- The run goes through the loop once for each element that `RCX` counts, does to the guest what
the elements do one after the other, and leaves `RCX` zero. -/
theorem rep_right (inst : RepInst) (g : Guest) :
    ∃ g', Loops inst.packet g (g.get 64 .RCX).toNat g' ∧
      g' = inst.element^[(g.get 64 .RCX).toNat] g ∧ g'.get 64 .RCX = 0 ∧
      (g.get 64 .RCX = 0 → g' = g) := by
  refine ⟨_, ?_, rfl, ?_, fun hzero => ?_⟩
  · cases inst with
    | movs ow => exact (movs_isWhile ow).loops_of_does (movs_does ow) (rcx_copy (movs ow)) g
    | stos ow => exact (stos_isWhile ow).loops_of_does (stos_does ow) (rcx_copy (stos ow)) g
  · rw [rcx_iterate_element, BitVec.ofNat_toNat, BitVec.setWidth_eq, BitVec.sub_self]
    rfl
  · rw [hzero]
    rfl

end RepInst

end Arancini.X86
