import Arancini.Ir.Node
import Arancini.Riscv.BlockRun
import Arancini.Riscv.GenConstant
import Arancini.X86.Reg

/-!
# How a block is left

A block ends with the first packet that leaves it, by a write of the PC or by an internal call, or
runs into the next block. It gives back two values. `A0` is the exit code. `A1` is the address of
the instruction to patch when the next block is known, or 0.

A direct jump puts the address of an `auipc` into `A1`, and a conditional one has two of them. All
other exits put 0 there. An internal call does that at the start of the block, in code that the
scan of the builder never sees.

The code of all other nodes is a parameter (`Lowering`).
-/

namespace Arancini.Riscv.Builder

/-! ## Lowered nodes -/

/-- The code that `materialise` emits for a node. -/
structure Lowering where
  code : List Instruction
  plain : ∀ i ∈ code, i.Plain

/-- The instructions of `gen_constant`. -/
def ofConst : ConstInstr → Instruction
  | .lui rd imm => { type := .rdImm, func := .other "lui", rd := ⟨rd⟩, imm := imm.toInt }
  | .li rd imm => li ⟨rd⟩ imm.toInt
  | .addi rd rs1 imm =>
    { type := .rdRs1Imm, func := .addiNormal, rd := ⟨rd⟩, rs1 := ⟨rs1⟩, imm := imm.toInt }
  | .addiw rd rs1 imm =>
    { type := .rdRs1Imm, func := .other "addiw", rd := ⟨rd⟩, rs1 := ⟨rs1⟩, imm := imm.toInt }
  | .slli rd rs1 shamt =>
    { type := .rdRs1Imm, func := .other "slli", rd := ⟨rd⟩, rs1 := ⟨rs1⟩, imm := shamt }

/-! ## Translation -/

/-- A `csel`, as far as a write of the PC looks at it : its condition in a register, extended to 64
bits, and `get_as_int` of its two values. -/
structure Csel where
  cond : Lowering
  condReg : RegisterOperand
  falseval : Option (BitVec 64)
  trueval : Option (BitVec 64)

/-- The value of a write of the PC : whether `is_gpr`, its width, `get_as_int` of its node, the node
if that is a `csel`, and the code of the node with the register it is in. -/
structure PcValue where
  isGpr : Bool
  width : ℕ
  asInt : Option (BitVec 64)
  csel : Option Csel
  lowering : Lowering
  reg : RegisterOperand

/-- A `write_pc_node`, with the code of `write_back_registers` there. -/
structure WritePc where
  updatesPc : Ir.BrType
  value : PcValue
  writeBack : Lowering

/-- The actions that leave a block. -/
inductive Exit
  | writePc (n : WritePc)
  | internalCall (function : String) (writeBack : Lowering)

/-- The packet of an instruction : the loads of the registers it uses, its other actions, and its
local variables. -/
structure Packet where
  loads : Lowering
  nodes : List Lowering
  locals : List RegisterOperand

/-- A chunk. Its translation ends with the first packet that leaves the block, which it does in its
last action. -/
structure Chunk where
  packets : List Packet
  last : Packet
  exit : Option Exit

/-- Where the code has a chain slot, and the write of the PC that it belongs to. -/
structure Slot where
  slot : ℕ
  store : ℕ
  deriving DecidableEq, Repr

/-- The translation context : the code that is in the assembler already, that of the builder, the
number of virtual registers, `ret_val_`, and the slots. -/
structure Context where
  assembled : List Instruction := []
  instructions : List Instruction := []
  registers : ℕ := 0
  retVal : ℕ := 0
  slots : List Slot := []

namespace Context

def emit (c : Context) (code : List Instruction) : Context :=
  { c with instructions := c.instructions ++ code }

/-- `materialise_constant`. -/
def materialiseConstant (c : Context) (imm : BitVec 64) : RegisterOperand × Context :=
  if imm = 0 then (ZERO, c)
  else
    let reg := RegisterOperand.virtualBase + c.registers
    (⟨reg⟩, { c with registers := c.registers + 1 }.emit ((genConstant reg imm).map ofConst))

/-- The constant goes to the PC of the guest. The slot is the instruction at index `slot`. -/
def storePc (c : Context) (slot : ℕ) (target : BitVec 64) : Context :=
  let (reg, c) := c.materialiseConstant target
  { c with slots := c.slots ++ [Slot.mk slot c.instructions.length] }.emit
    [storeFP "sd" reg Reg.PC.offset]

/-- The stores of `store_instructions`. -/
def storeInstruction : ℕ → Option String
  | 1 | 8 => some "sb"
  | 16 => some "sh"
  | 32 => some "sw"
  | 64 => some "sd"
  | _ => none

/-- An unconditional direct jump. -/
def directJump (c : Context) (n : WritePc) (target : BitVec 64) : Context :=
  let c := c.emit n.writeBack.code
  (c.emit [auipc A1 0]).storePc c.instructions.length target

/-- A conditional direct jump. -/
def conditionalJump (c : Context) (n : WritePc) (node : Csel) (target1 target2 : BitVec 64) :
    Context :=
  let c := c.emit (node.cond.code ++ n.writeBack.code)
  let slot := c.instructions.length
  let c := c.emit [auipc A1 0, beqzNear node.condReg .falseCalc, align 4, auipcKeep A1 0]
  let c := (c.storePc (slot + 3) target2).emit [jNear .endPc, bind .falseCalc]
  (c.storePc slot target1).emit [bind .endPc]

/-- An indirect jump, a call or a return. -/
def noChain (c : Context) (n : WritePc) : Except String Context :=
  match storeInstruction n.value.width with
  | some store =>
    .ok (c.emit (n.value.lowering.code ++ [storeFP store n.value.reg 0] ++ n.writeBack.code ++
      [li A1 0]))
  | none => .error "unordered_map::at"

/-- `materialise_write_pc`. -/
def materialiseWritePc (c : Context) (n : WritePc) : Except String Context :=
  if !n.value.isGpr then .error "unsupported width on write pc operation"
  else
    let c :=
      match n.updatesPc with
      | .call => { c with retVal := 3 }
      | .ret => { c with retVal := 4 }
      | _ => c
    if c.retVal = 0 then
      match n.value.asInt, n.value.csel with
      | some target, _ => .ok (c.directJump n target)
      | none, some ⟨cond, condReg, some target1, some target2⟩ =>
        .ok (c.conditionalJump n ⟨cond, condReg, some target1, some target2⟩ target1 target2)
      | none, _ => c.noChain n
    else c.noChain n

/-- `materialise_internal_call`. Its `li` goes to the assembler at once. -/
def materialiseInternalCall (c : Context) (function : String) (writeBack : Lowering) :
    Except String Context :=
  let c := { c.emit writeBack.code with assembled := c.assembled ++ [li A1 0] }
  if function = "handle_syscall" then .ok { c with retVal := 1 }
  else if function = "handle_int" ∨ function = "hlt" then .ok { c with retVal := 2 }
  else .error "unsupported internal call"

def materialise (c : Context) : Exit → Except String Context
  | .writePc n => c.materialiseWritePc n
  | .internalCall function writeBack => c.materialiseInternalCall function writeBack

/-- `begin_instruction` and the materialisation of the other actions. -/
def beginInstruction (c : Context) (p : Packet) : Context :=
  { c with retVal := 0 }.emit (p.loads.code ++ p.nodes.flatMap Lowering.code)

/-- The end of `end_instruction` : the local variables are alive until here. -/
def endInstruction (c : Context) (p : Packet) : Context :=
  c.emit (p.locals.map (mv ZERO))

/-- `end_block` : the code, and its slots. -/
def endBlock (c : Context) : Except String (List Instruction × List Slot) := do
  let code ← allocate (c.instructions ++ [li A0 c.retVal, ret])
  return (c.assembled ++ code,
    c.slots.map fun s => ⟨c.assembled.length + s.slot, c.assembled.length + s.store⟩)

end Context

/-- The context when the exit of the chunk is lowered. -/
def Chunk.context (ch : Chunk) : Context :=
  Context.beginInstruction
    (ch.packets.foldl (fun c p => Context.endInstruction (c.beginInstruction p) p) {}) ch.last

/-- The context at the end of the chunk. -/
def Chunk.lower (ch : Chunk) : Except String Context := do
  let c ← ch.exit.elim (.ok ch.context) ch.context.materialise
  return c.endInstruction ch.last

/-- The index of the first definition of a register that is returned. -/
def Context.exitIndex (c : Context) : ℕ :=
  c.assembled.length + c.instructions.findIdx fun i => i.rd = A0 ∨ i.rd = A1

/-! ## The way out -/

/-- How the guest leaves the block. -/
inductive Way
  | normal
  | systemCall
  | interrupt
  | call
  | ret
  deriving DecidableEq

/-- The exit code. -/
def Way.code : Way → ℕ
  | normal => 0
  | systemCall => 1
  | interrupt => 2
  | call => 3
  | ret => 4

def Exit.way : Exit → Way
  | .writePc n =>
    match n.updatesPc with
    | .call => .call
    | .ret => .ret
    | _ => .normal
  | .internalCall function _ => if function = "handle_syscall" then .systemCall else .interrupt

/-- A chunk that does not leave the block goes on with the next. -/
def Chunk.way (ch : Chunk) : Way :=
  ch.exit.elim .normal Exit.way

/-! ## What a chunk is translated to -/

theorem virtual_not_fixed (n : ℕ) : ¬RegisterOperand.Fixed ⟨RegisterOperand.virtualBase + n⟩ := by
  rintro (h | h)
  · simp only [noneReg, RegisterOperand.virtualBase, RegisterOperand.mk.injEq] at h
    omega
  · have hlt : 64 + n < 32 := of_decide_eq_true h
    omega

/-- The instruction writes the register, and is no move to it. -/
def Computes (reg : ℕ) : ConstInstr → Prop
  | .lui rd _ | .li rd _ | .addiw rd _ _ | .slli rd _ _ => rd = reg
  | .addi rd _ imm => rd = reg ∧ imm.toInt ≠ 0

theorem computes_of_mem_genConstant32 {reg : ℕ} {imm : BitVec 64} :
    ∀ i ∈ genConstant32 reg imm, Computes reg i := by
  intro i hi
  unfold genConstant32 at hi
  dsimp only at hi
  split at hi
  · rcases List.mem_cons.1 hi with rfl | hi
    · exact rfl
    · split at hi
      · obtain rfl := List.mem_singleton.1 hi
        exact rfl
      · cases hi
  · obtain rfl := List.mem_singleton.1 hi
    exact rfl

theorem computes_of_mem_genConstant (reg : ℕ) (imm : BitVec 64) :
    ∀ i ∈ genConstant reg imm, Computes reg i := by
  induction imm using genConstant.induct with
  | case1 imm himm =>
    rw [genConstant, if_pos himm]
    exact computes_of_mem_genConstant32
  | case2 imm himm ih =>
    intro i hi
    rw [genConstant, if_neg himm, List.mem_append, List.mem_append] at hi
    rcases hi with (hi | hi) | hi
    · exact ih i hi
    · split at hi
      · obtain rfl := List.mem_singleton.1 hi
        exact rfl
      · cases hi
    · split at hi
      · next hlo =>
        obtain rfl := List.mem_singleton.1 hi
        refine ⟨rfl, fun hzero => hlo (BitVec.eq_of_toInt_eq ?_)⟩
        rwa [toInt_signExtend (by decide)] at hzero
      · cases hi

theorem straight_ofConst {n : ℕ} {i : ConstInstr}
    (h : Computes (RegisterOperand.virtualBase + n) i) : (ofConst i).Straight := by
  cases i with
  | lui rd imm =>
    obtain rfl := h
    exact ⟨rfl, InstructionType.noConfusion, fun hf => absurd hf (virtual_not_fixed n),
      .inr (.inl rfl)⟩
  | li rd imm =>
    obtain rfl := h
    exact ⟨rfl, InstructionType.noConfusion, fun hf => absurd hf (virtual_not_fixed n),
      .inr (.inr rfl)⟩
  | addi rd rs1 imm =>
    obtain ⟨rfl, himm⟩ := h
    refine ⟨rfl, InstructionType.noConfusion, fun hf => absurd hf (virtual_not_fixed n),
      .inr (.inl ?_)⟩
    simp [ofConst, Instruction.isMv, himm]
  | addiw rd rs1 imm =>
    obtain rfl := h
    exact ⟨rfl, InstructionType.noConfusion, fun hf => absurd hf (virtual_not_fixed n),
      .inr (.inl rfl)⟩
  | slli rd rs1 shamt =>
    obtain rfl := h
    exact ⟨rfl, InstructionType.noConfusion, fun hf => absurd hf (virtual_not_fixed n),
      .inr (.inl rfl)⟩

theorem materialiseConstant_spec (c : Context) (imm : BitVec 64) :
    ∃ K, (∀ i ∈ K, i.Straight) ∧
      (c.materialiseConstant imm).2.instructions = c.instructions ++ K ∧
        (c.materialiseConstant imm).2.assembled = c.assembled ∧
          (c.materialiseConstant imm).2.slots = c.slots ∧
            (c.materialiseConstant imm).2.retVal = c.retVal := by
  unfold Context.materialiseConstant
  split
  · exact ⟨[], by simp, (List.append_nil _).symm, rfl, rfl, rfl⟩
  · refine ⟨_, fun i hi => ?_, rfl, rfl, rfl, rfl⟩
    obtain ⟨j, hj, rfl⟩ := List.mem_map.1 hi
    exact straight_ofConst (computes_of_mem_genConstant _ imm j hj)

/-- The code of `storePc` : the constant, and the store at its end. -/
theorem storePc_spec (c : Context) (slot : ℕ) (target : BitVec 64) :
    ∃ K sd, (∀ i ∈ K, i.Straight) ∧ sd.Straight ∧
      (c.storePc slot target).instructions = c.instructions ++ (K ++ [sd]) ∧
        (c.storePc slot target).assembled = c.assembled ∧
          (c.storePc slot target).slots = c.slots ++ [⟨slot, c.instructions.length + K.length⟩] ∧
            (c.storePc slot target).retVal = c.retVal := by
  obtain ⟨K, hK, hinstr, hass, hslots, hret⟩ := materialiseConstant_spec c target
  refine ⟨K, storeFP "sd" (c.materialiseConstant target).1 Reg.PC.offset, hK,
    storeFP_straight .., ?_, hass, ?_, hret⟩
  · simp only [Context.storePc, Context.emit, hinstr, List.append_assoc]
  · simp only [Context.storePc, Context.emit, hinstr, hslots, List.length_append]

/-- Nothing has been translated but other nodes. -/
structure Context.Front (c : Context) : Prop where
  assembled : c.assembled = []
  slots : c.slots = []
  plain : ∀ i ∈ c.instructions, i.Plain

theorem Context.Front.emit {c : Context} (h : c.Front) {code : List Instruction}
    (hp : ∀ i ∈ code, i.Plain) : (c.emit code).Front := by
  refine ⟨h.assembled, h.slots, fun i hi => ?_⟩
  rcases List.mem_append.1 hi with hi | hi
  · exact h.plain i hi
  · exact hp i hi

theorem plain_flatMap (nodes : List Lowering) : ∀ i ∈ nodes.flatMap Lowering.code, i.Plain := by
  intro i hi
  obtain ⟨n, -, hn⟩ := List.mem_flatMap.1 hi
  exact n.plain i hn

theorem mv_plain (r : RegisterOperand) : (mv ZERO r).Plain :=
  ⟨fun _ => rfl, Func.noConfusion, 0, rfl⟩

theorem Context.Front.beginInstruction {c : Context} (h : c.Front) (p : Packet) :
    (c.beginInstruction p).Front := by
  refine Context.Front.emit (c := { c with retVal := 0 }) ⟨h.assembled, h.slots, h.plain⟩ ?_
  intro i hi
  rcases List.mem_append.1 hi with hi | hi
  · exact p.loads.plain i hi
  · exact plain_flatMap p.nodes i hi

theorem Context.Front.endInstruction {c : Context} (h : c.Front) (p : Packet) :
    (c.endInstruction p).Front := by
  refine h.emit fun i hi => ?_
  obtain ⟨r, -, rfl⟩ := List.mem_map.1 hi
  exact mv_plain r

theorem Chunk.context_front (ch : Chunk) : ch.context.Front := by
  refine Context.Front.beginInstruction ?_ ch.last
  have hfold : ∀ (ps : List Packet) (c : Context), c.Front →
      (ps.foldl (fun c p => (c.beginInstruction p).endInstruction p) c).Front := by
    intro ps
    induction ps with
    | nil => exact fun c h => h
    | cons p ps ih => exact fun c h => ih _ ((h.beginInstruction p).endInstruction p)
  exact hfold _ _ ⟨rfl, rfl, by simp⟩

/-- The code that the exit adds. -/
inductive ExitCode (front : List Instruction) (c : Context) : Prop
  | internal (hass : c.assembled = [li A1 0]) (hslots : c.slots = [])
      (hinstr : c.instructions = front)
  | noChain (hass : c.assembled = []) (hslots : c.slots = [])
      (hinstr : c.instructions = front ++ [li A1 0])
  | direct (K : List Instruction) (sd : Instruction) (hK : ∀ i ∈ K, i.Straight) (hsd : sd.Straight)
      (hass : c.assembled = []) (hslots : c.slots = [⟨front.length, front.length + 1 + K.length⟩])
      (hinstr : c.instructions = front ++ auipc A1 0 :: (K ++ [sd]))
  | conditional (r : RegisterOperand) (K₁ K₂ : List Instruction) (sd₁ sd₂ : Instruction)
      (hK₁ : ∀ i ∈ K₁, i.Straight) (hK₂ : ∀ i ∈ K₂, i.Straight) (hsd₁ : sd₁.Straight)
      (hsd₂ : sd₂.Straight) (hass : c.assembled = [])
      (hslots : c.slots = [⟨front.length + 3, front.length + 4 + K₁.length⟩,
        ⟨front.length, front.length + 7 + K₁.length + K₂.length⟩])
      (hinstr : c.instructions = front ++ auipc A1 0 :: ([beqzNear r .falseCalc, align 4,
        auipcKeep A1 0] ++ (K₁ ++ [sd₁, jNear .endPc, bind .falseCalc] ++
          (K₂ ++ [sd₂, bind .endPc]))))

theorem Context.Front.directJump {c : Context} (h : c.Front) (n : WritePc) (target : BitVec 64) :
    (c.directJump n target).retVal = c.retVal ∧
      ∃ front, (∀ i ∈ front, i.Plain) ∧ ExitCode front (c.directJump n target) := by
  obtain ⟨K, sd, hK, hsd, hinstr, hass, hslots, hret⟩ :=
    storePc_spec ((c.emit n.writeBack.code).emit [auipc A1 0])
      (c.emit n.writeBack.code).instructions.length target
  refine ⟨hret, _, (h.emit n.writeBack.plain).plain, .direct K sd hK hsd (hass.trans h.assembled)
    (hslots.trans ?_) (hinstr.trans ?_)⟩
  · simp only [Context.emit, h.slots, List.length_append, List.length_cons, List.length_nil,
      List.nil_append]
  · simp [Context.emit]

theorem Context.Front.conditionalJump {c : Context} (h : c.Front) (n : WritePc) (node : Csel)
    (target1 target2 : BitVec 64) :
    (c.conditionalJump n node target1 target2).retVal = c.retVal ∧
      ∃ front, (∀ i ∈ front, i.Plain) ∧
        ExitCode front (c.conditionalJump n node target1 target2) := by
  have hplain : ∀ i ∈ node.cond.code ++ n.writeBack.code, i.Plain := by
    intro i hi
    rcases List.mem_append.1 hi with hi | hi
    · exact node.cond.plain i hi
    · exact n.writeBack.plain i hi
  have hfront := h.emit hplain
  set c₀ := c.emit (node.cond.code ++ n.writeBack.code) with hc₀
  set c₁ := c₀.emit [auipc A1 0, beqzNear node.condReg .falseCalc, align 4, auipcKeep A1 0] with hc₁
  obtain ⟨K₁, sd₁, hK₁, hsd₁, hinstr₁, hass₁, hslots₁, hret₁⟩ :=
    storePc_spec c₁ (c₀.instructions.length + 3) target2
  set c₂ := (c₁.storePc (c₀.instructions.length + 3) target2).emit [jNear .endPc, bind .falseCalc]
    with hc₂
  obtain ⟨K₂, sd₂, hK₂, hsd₂, hinstr₂, hass₂, hslots₂, hret₂⟩ :=
    storePc_spec c₂ c₀.instructions.length target1
  have hfin : c.conditionalJump n node target1 target2 =
      (c₂.storePc c₀.instructions.length target1).emit [bind .endPc] := rfl
  have hc₂instr : c₂.instructions = c₀.instructions ++ [auipc A1 0,
      beqzNear node.condReg .falseCalc, align 4, auipcKeep A1 0] ++ (K₁ ++ [sd₁]) ++
        [jNear .endPc, bind .falseCalc] := by
    rw [hc₂, Context.emit]
    dsimp only
    rw [hinstr₁]
    rfl
  refine ⟨?_, c₀.instructions, hfront.plain,
    .conditional node.condReg K₁ K₂ sd₁ sd₂ hK₁ hK₂ hsd₁ hsd₂ ?_ ?_ ?_⟩
  · rw [hfin]
    exact hret₂.trans hret₁
  · rw [hfin]
    exact hass₂.trans (hass₁.trans hfront.assembled)
  · rw [hfin]
    refine hslots₂.trans ?_
    rw [show c₂.slots = _ from hslots₁, show c₁.slots = _ from hfront.slots, hc₂instr]
    simp only [hc₁, Context.emit, List.length_append, List.length_cons, List.length_nil,
      List.nil_append, List.cons_append, List.cons.injEq, Slot.mk.injEq, and_true, true_and]
    omega
  · rw [hfin, Context.emit]
    dsimp only
    rw [hinstr₂, hc₂instr]
    simp

theorem Context.Front.noChain {c c' : Context} (h : c.Front) {n : WritePc}
    (ho : c.noChain n = .ok c') :
    c'.retVal = c.retVal ∧ ∃ front, (∀ i ∈ front, i.Plain) ∧ ExitCode front c' := by
  unfold Context.noChain at ho
  split at ho
  · next store _ =>
    obtain rfl := Except.ok.inj ho
    have hplain : ∀ i ∈ [storeFP store n.value.reg 0] ++ n.writeBack.code, i.Plain := by
      intro i hi
      rcases List.mem_append.1 hi with hi | hi
      · obtain rfl := List.mem_singleton.1 hi
        exact ⟨fun hp => absurd hp (by simp [storeFP, noneReg, RegisterOperand.isPhysical,
          RegisterOperand.virtualBase, RegisterOperand.functionalBase]), Func.noConfusion, 0, rfl⟩
      · exact n.writeBack.plain i hi
    have hfront := (h.emit n.value.lowering.plain).emit hplain
    refine ⟨rfl, _, hfront.plain, .noChain h.assembled h.slots ?_⟩
    simp [Context.emit]
  · cases ho

/-- Lowering an exit sets the exit code of its way. -/
theorem Context.Front.materialise {c c' : Context} (h : c.Front) (hret : c.retVal = 0) {e : Exit}
    (ho : c.materialise e = .ok c') :
    c'.retVal = e.way.code ∧ ∃ front, (∀ i ∈ front, i.Plain) ∧ ExitCode front c' := by
  cases e with
  | writePc n =>
    change c.materialiseWritePc n = .ok c' at ho
    unfold Context.materialiseWritePc at ho
    split at ho
    · cases ho
    · dsimp only at ho
      split at ho
      · next hcall =>
        obtain ⟨hret', hfront⟩ := Context.Front.noChain (c := { c with retVal := 3 })
          ⟨h.assembled, h.slots, h.plain⟩ (by simpa using ho)
        exact ⟨by rw [hret', Exit.way, hcall]; rfl, hfront⟩
      · next hnret =>
        obtain ⟨hret', hfront⟩ := Context.Front.noChain (c := { c with retVal := 4 })
          ⟨h.assembled, h.slots, h.plain⟩ (by simpa using ho)
        exact ⟨by rw [hret', Exit.way, hnret]; rfl, hfront⟩
      · next hcall hnret =>
        have hway : (Exit.writePc n).way.code = 0 := by
          unfold Exit.way
          dsimp only
          split
          · next hc => exact absurd hc hcall
          · next hc => exact absurd hc hnret
          · rfl
        rw [if_pos hret] at ho
        rw [hway, ← hret]
        split at ho
        · obtain rfl := Except.ok.inj ho
          exact h.directJump n _
        · obtain rfl := Except.ok.inj ho
          exact h.conditionalJump n _ _ _
        · exact h.noChain ho
  | internalCall function writeBack =>
    change c.materialiseInternalCall function writeBack = .ok c' at ho
    unfold Context.materialiseInternalCall at ho
    dsimp only at ho
    have hfront := h.emit writeBack.plain
    have hass : c.assembled ++ [li A1 0] = [li A1 0] := by rw [h.assembled, List.nil_append]
    split at ho
    · next hsys =>
      obtain rfl := Except.ok.inj ho
      exact ⟨by simp [Exit.way, hsys, Way.code], _, hfront.plain, .internal hass h.slots rfl⟩
    · next hsys =>
      split at ho
      · obtain rfl := Except.ok.inj ho
        exact ⟨by simp [Exit.way, hsys, Way.code], _, hfront.plain, .internal hass h.slots rfl⟩
      · cases ho

end Arancini.Riscv.Builder
