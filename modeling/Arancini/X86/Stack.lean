import Arancini.X86.Address

/-!
# Stack instructions

The nodes that `PUSH`, `POP`, `LEAVE`, `CALL` and `RET` are translated to, far calls and returns
included, and the runs of their packets. The operand is any block that comes to a value
(`Evaluates`), so that one run is for all of its forms.

`PUSH` and `POP` evaluate the operand before they write `RSP`, `CALL` when both `RSP` and the return
address are written (`pushNext`). What is popped is read at the old pointer. The pointer always
moves by eight, and the immediate of `RET` is not looked at. `Does` is the result for each
instruction.
-/

namespace Arancini.X86

open Ir

/-! ## The instructions -/

/-- The size of an operand on the stack. There is none of 32 bits. -/
inductive Slot
  | word
  | qword
  deriving DecidableEq

namespace Slot

def bytes : Slot → ℕ
  | word => 2
  | qword => 8

abbrev bits (slot : Slot) : ℕ :=
  8 * slot.bytes

def opWidth : Slot → OpWidth
  | word => .word
  | qword => .qword

/-- The width of the longer immediate. -/
def immBits : Slot → ℕ
  | word => 16
  | qword => 32

end Slot

/-- What `PUSH` takes. -/
inductive PushOperand (slot : Slot)
  | reg (num : Fin 16)
  | seg (r : SegReg)
  | imm8 (value : BitVec 8)
  | immz (value : BitVec slot.immBits)
  | mem (m : MemOperand)

inductive PopOperand
  | reg (num : Fin 16)
  | seg (r : SegReg)
  | mem (m : MemOperand)

/-- The target of a near `CALL`. The size of the operand is 64 bits. -/
inductive CallTarget
  | rel (displ : BitVec 32)
  | reg (num : Fin 16)
  | mem (m : MemOperand)

/-- The size of an address in a far pointer. -/
inductive FarSize
  | word
  | dword
  | qword

def FarSize.bytes : FarSize → ℕ
  | word => 2
  | dword => 4
  | qword => 8

inductive StackInst
  | push (slot : Slot) (op : PushOperand slot)
  | pop (slot : Slot) (op : PopOperand)
  | leave (slot : Slot)
  | callNear (target : CallTarget)
  | callFar (size : FarSize) (m : MemOperand)
  | retNear (imm : Option (BitVec 16))
  | retFar (size : FarSize) (imm : Option (BitVec 16))

/-! ## The translators -/

/-- The operand as `read_operand` has it. -/
def PushOperand.operand {slot : Slot} : PushOperand slot → SourceOperand
  | reg num => .reg slot.opWidth num
  | seg r => .seg r
  | imm8 value => .imm true 8 value
  | immz value => .imm true slot.immBits value
  | mem m => .mem m slot.bytes

def CallTarget.operand : CallTarget → SourceOperand
  | rel displ => .relbr displ
  | reg num => .reg .qword num
  | mem m => .mem m 8

namespace Builder

def writePc (v : Port) (brType : BrType) (constTarget : ℕ) : Builder Port :=
  insert v.type (.writePc v brType constTarget)

/-- `PUSH`. -/
def push (operand : Builder Port) : Builder PUnit := do
  let rsp ← readReg (.u 64) .RSP "RSP"
  let newRsp ← binop .sub rsp (← const (.u 64) 8)
  let _ ← writeMem newRsp (← operand)
  let _ ← writeReg .RSP "RSP" newRsp

/-- `POP`. -/
def pop (write : Port → Builder PUnit) : Builder PUnit := do
  let rsp ← readReg (.u 64) .RSP "RSP"
  write (← readMem (.u 64) rsp)
  let newRsp ← binop .add rsp (← const (.u 64) 8)
  let _ ← writeReg .RSP "RSP" newRsp

/-- `LEAVE`. -/
def leave : Builder PUnit := do
  let rbp ← readReg (.u 64) .RBP "RBP"
  let _ ← writeReg .RSP "RSP" rbp
  let rsp ← readReg (.u 64) .RSP "RSP"
  let _ ← writeReg .RBP "RBP" (← readMem (.u 64) rsp)
  let newRsp ← binop .add rsp (← const (.u 64) 8)
  let _ ← writeReg .RSP "RSP" newRsp

/-- The target of `CALL`, if the operand is a constant. -/
def relTarget (length : ℕ) (operand : Builder Port) : Builder Port := do
  let target ← operand
  let callTarget ← binop .add target (← const (.u 64) length)
  binop .add (← readPc) callTarget

/-- `CALL`. -/
def call (length : ℕ) (target : Builder Port) (constTarget : ℕ) : Builder PUnit := do
  let rsp ← readReg (.u 64) .RSP "RSP"
  let newRsp ← binop .sub rsp (← const (.u 64) 8)
  let _ ← writeReg .RSP "RSP" newRsp
  let pc ← readPc
  let nextTarget ← binop .add pc (← const (.u 64) length)
  let _ ← writeMem newRsp nextTarget
  let _ ← writePc (← target) .call constTarget

/-- `write_operand` of a value of 64 bits. It goes to the whole register whatever the width of the
operand is. -/
def writeOperand (length : ℕ) : PopOperand → Except String (Port → Builder PUnit)
  | .reg num => .ok fun v => do
    let _ ← writeReg (gprReg num) (gprReg num).name v
  | .seg _ => .error "unsupported register class"
  | .mem m => .ok fun v => do
    let address ← m.computeAddress length
    let _ ← writeMem address v

end Builder

namespace StackInst

/-- `do_translate` of `stack_translator` and `branch_translator`. A far pointer in memory has a
selector behind the address. -/
def doTranslate (length : ℕ) : StackInst → Except String (Builder PUnit)
  | push _ op => do
    let operand ← readOperand length op.operand
    return Builder.push operand
  | pop _ op => do
    let write ← Builder.writeOperand length op
    return Builder.pop write
  | leave _ => .ok Builder.leave
  | callNear (.rel displ) => do
    let target ← readOperand length (.relbr displ)
    return Builder.call length (Builder.relTarget length target)
      (displ.signExtend 64 + BitVec.ofNat 64 length).toNat
  | callNear target => do
    let target ← readOperand length target.operand
    return Builder.call length target 0
  | callFar size m => do
    let target ← readOperand length (.mem m (size.bytes + 2))
    return Builder.call length target 0
  | retNear _ | retFar .. => .ok (do let _ ← ret)

end StackInst

/-! ## Operands -/

/-- The builder inserts a block that comes to the value. -/
def Evaluates (address : ℕ) (b : Builder Port) (vt : ValueType) (v : Guest → ℕ) : Prop :=
  ∀ g nodes, Block address (fun _ _ => False) g nodes vt (v g) (b nodes)

section Evaluates

theorem evaluates_reg (address : ℕ) (ow : OpWidth) (r : Reg) (name : String) :
    Evaluates address (Builder.readReg ow.type r name) ow.type fun g => (g.get ow.bits r).toNat :=
  fun _ nodes => .readReg (.refl nodes) ow.bits r name

theorem evaluates_const (address : ℕ) (vt : ValueType) (v : ℕ) :
    Evaluates address (Builder.const vt v) vt fun _ => v :=
  fun _ nodes => .const (.refl nodes) vt v

theorem evaluates_mem (site : Site) (m : MemOperand) (vt : ValueType) :
    Evaluates site.address (do
        let addr ← m.computeAddress site.length
        Builder.readMem vt addr) vt
      fun g => Guest.load g.mem (m.address site g).toNat (vt.width / 8) :=
  fun g nodes => (MemOperand.block_computeAddress site g nodes m).readMem vt

theorem exists_evaluates (site : Site) {op : SourceOperand} {b : Builder Port}
    (h : readOperand site.length op = .ok b) : ∃ vt v, Evaluates site.address b vt v := by
  cases op with
  | reg ow num =>
    obtain rfl := Except.ok.inj h
    exact ⟨_, _, evaluates_reg site.address ow (gprReg num) _⟩
  | seg r => exact nomatch h
  | imm signed w value =>
    rw [readOperand] at h
    split at h
    · obtain rfl := Except.ok.inj h
      cases signed <;> exact ⟨_, _, evaluates_const site.address _ _⟩
    · exact nomatch h
  | mem m length =>
    rw [readOperand] at h
    cases hvt : memType length with
    | error e =>
      rw [hvt] at h
      exact nomatch h
    | ok vt =>
      rw [hvt] at h
      obtain rfl := Except.ok.inj h
      exact ⟨_, _, evaluates_mem site m vt⟩
  | relbr displ =>
    obtain rfl := Except.ok.inj h
    exact ⟨_, _, evaluates_const site.address (.u 64) _⟩

/-- The target of a relative `CALL`. -/
theorem evaluates_relTarget (site : Site) (x : BitVec 64) :
    Evaluates site.address (Builder.relTarget site.length (Builder.const (.u 64) x.toNat)) (.u 64)
      fun _ => (site.next + x).toNat := by
  intro g nodes
  have hconst : Block site.address (fun _ _ => False) g nodes (.u 64) x.toNat
      (Builder.const (.u 64) x.toNat nodes) :=
    .const (.refl nodes) (.u 64) x.toNat
  have hsum := hconst.add (.const (.refl _) (.u 64) site.length) (ofNat_toNat_self x) rfl
  have hpc : Block site.address (fun _ _ => False) g nodes (.u 64) site.address
      (Builder.readPc _) :=
    .readPc hsum.grown
  have htarget := hpc.binop (hsum.later ((Grown.refl _).insert rfl nofun)) .add
  have hnext :
      BitVec.ofNat 64 site.address + (x + BitVec.ofNat 64 site.length) = site.next + x := by
    rw [Site.next, add_comm x, add_assoc]
  rw [ofNat_toNat_self] at htarget
  beta_reduce
  rw [← hnext]
  exact htarget

end Evaluates

/-! ## The runs -/

section Runs

variable {address : ℕ} {g : Guest} {vt : ValueType} {v : Guest → ℕ}

/-- The first nodes of `PUSH` and `CALL`. -/
def rspNodes : List Node :=
  [.readReg (.u 64) Reg.RSP.offset Reg.RSP.idx "RSP", .constant (.u 64) 8,
    .binaryArith .sub (val 64 0) (val 64 1)]

theorem block_newRsp (address : ℕ) (known : Port → ℕ → Prop) (g : Guest) :
    Block address known g [] (.u 64) (g.get 64 .RSP - 8).toNat (val 64 2, rspNodes) := by
  have hrsp : Block address known g [] (.u 64) (g.get 64 .RSP).toNat
      (Builder.readReg (.u 64) .RSP "RSP" []) :=
    .readReg (.refl []) 64 .RSP _
  exact hrsp.sub (.const (.refl _) (.u 64) 8) (ofNat_toNat_self _) rfl

/-- The nodes of `PUSH`. -/
def pushNodes (operand : Builder Port) : List Node :=
  (operand rspNodes).2 ++ [.writeMem (val 64 2) (operand rspNodes).1] ++
    [.writeReg Reg.RSP.offset Reg.RSP.idx "RSP" (val 64 2)]

theorem push_returns {operand : Builder Port} (hop : Evaluates address operand vt v)
    (hw : wellFormed (pushNodes operand)) (g : Guest) :
    (atFirstUse intOps (packetOf address (pushNodes operand) hw)).Returns (.enter intOps 0 g)
      (some ((g.setMem (g.get 64 .RSP - 8).toNat (v g) (vt.width / 8)).set .RSP
        (g.get 64 .RSP - 8))) := by
  have hrsp := block_newRsp address (fun _ _ => False) g
  have hval := hop g rspNodes
  rw [← hval.type]
  have hleg := hrsp.grown.trans hval.grown
  have hpre : (operand rspNodes).2 ++ [.writeMem (val 64 2) (operand rspNodes).1] <+:
      pushNodes operand :=
    List.prefix_append _ _
  have hlen : 0 < (operand rspNodes).2.length :=
    (Nat.zero_lt_succ 2).trans_le hval.grown.isPrefix.length_le
  refine returns_enter hleg hpre rfl hlen fun env hk => ?_
  have hnew := hrsp.port_eq (l := intOps.local₀) hleg hpre List.prefix_rfl hval.grown.isPrefix
    (by simp [Node.operands]) hk nofun
  have hoperand := hval.port_eq (l := intOps.local₀) hleg hpre (List.nil_prefix) List.prefix_rfl
    (by simp [Node.operands]) hk nofun
  refine returns_act hleg hpre rfl Nat.one_pos hlen (Nat.zero_le _) (act_writeMem hnew hoperand) ?_
  have hused := hrsp.mem_uses (Nat.zero_le _) hval.grown.isPrefix hpre hw (by simp [Node.operands])
  refine returns_act (.refl _) List.prefix_rfl rfl (Nat.succ_pos _) (by simp) (by simp)
    (act_writeReg (x := g.get 64 .RSP - 8) ?_) (.stop (step_last ?_))
  · exact (port_eq_of_used List.prefix_rfl (.refl _) List.prefix_rfl rfl hused).trans hnew
  · simp [pushNodes, packetOf]

/-- The nodes of `CALL` before it writes to memory. -/
def callHead : List Node :=
  rspNodes ++ [.writeReg Reg.RSP.offset Reg.RSP.idx "RSP" (val 64 2)]

def nextNodes (length : ℕ) : List Node :=
  callHead ++ [.readPc, .constant (.u 64) length, .binaryArith .add (val 64 4) (val 64 5)]

theorem block_next (site : Site) (known : Port → ℕ → Prop) (g : Guest) :
    Block site.address known g callHead (.u 64) site.next.toNat
      (val 64 6, nextNodes site.length) := by
  have hpc : Block site.address known g callHead (.u 64) site.address (Builder.readPc callHead) :=
    .readPc (.refl callHead)
  exact hpc.add (.const (.refl _) (.u 64) site.length) rfl rfl

/-- The nodes of `CALL` before the target. -/
def callNodes (length : ℕ) : List Node :=
  nextNodes length ++ [.writeMem (val 64 2) (val 64 6)]

def callAll (length : ℕ) (target : Builder Port) (constTarget : ℕ) : List Node :=
  (target (callNodes length)).2 ++ [.writePc (target (callNodes length)).1 .call constTarget]

/-- The guest when `CALL` evaluates its target. -/
def pushNext (site : Site) (g : Guest) : Guest :=
  (g.set .RSP (g.get 64 .RSP - 8)).setMem (g.get 64 .RSP - 8).toNat site.next.toNat 8

theorem call_returns {site : Site} {target : Builder Port}
    (hop : Evaluates site.address target vt v) {constTarget : ℕ}
    (hw : wellFormed (callAll site.length target constTarget)) (g : Guest) :
    (atFirstUse intOps (packetOf site.address (callAll site.length target constTarget) hw)).Returns
      (.enter intOps 0 g)
      (some ((pushNext site g).setReg Reg.PC.offset (v (pushNext site g)))) := by
  have hrsp := block_newRsp site.address (fun _ _ => False) g
  have hnext := block_next site (fun _ _ => False) (g.set .RSP (g.get 64 .RSP - 8))
  have htarget := hop (pushNext site g) (callNodes site.length)
  have hpre₃ : (target (callNodes site.length)).2 ++
      [.writePc (target (callNodes site.length)).1 .call constTarget] <+:
        callAll site.length target constTarget :=
    List.prefix_rfl
  have hpre₂ : nextNodes site.length ++ [.writeMem (val 64 2) (val 64 6)] <+:
      callAll site.length target constTarget :=
    htarget.grown.isPrefix.trans ((List.prefix_append _ _).trans hpre₃)
  have hpre₁ : rspNodes ++ [.writeReg Reg.RSP.offset Reg.RSP.idx "RSP" (val 64 2)] <+:
      callAll site.length target constTarget :=
    hnext.grown.isPrefix.trans ((List.prefix_append _ _).trans hpre₂)
  refine returns_enter hrsp.grown hpre₁ rfl (by decide) fun env hk => ?_
  -- the pointer is written
  have hnew := hrsp.port_eq (l := intOps.local₀) hrsp.grown hpre₁ List.prefix_rfl List.prefix_rfl
    (by simp [Node.operands]) hk nofun
  have hused := hrsp.mem_uses (Nat.zero_le _) List.prefix_rfl hpre₁ hw (by simp [Node.operands])
  refine returns_act hrsp.grown hpre₁ rfl Nat.one_pos (by decide) (Nat.zero_le _)
    (act_writeReg hnew) ?_
  -- the return address is pushed
  have hk₁ := knowsAll_atAction hk rspNodes.length g intOps.local₀
  have hret := hnext.port_eq (l := intOps.local₀) hnext.grown hpre₂ List.prefix_rfl List.prefix_rfl
    (by simp [Node.operands]) hk₁ nofun
  refine returns_act hnext.grown hpre₂ rfl (Nat.succ_pos _) hnext.grown.isPrefix.length_le le_rfl
    (act_writeMem (u := (g.get 64 .RSP - 8).toNat) ?_ hret) ?_
  · exact (port_eq_of_used List.prefix_rfl hnext.grown hpre₂ rfl hused).trans hnew
  -- the target is evaluated and written
  have hk₂ := knowsAll_atAction hk₁ (nextNodes site.length).length
    (g.set .RSP (g.get 64 .RSP - 8)) intOps.local₀
  have hpc := htarget.port_eq (l := intOps.local₀) htarget.grown hpre₃ List.prefix_rfl
    List.prefix_rfl (by simp [Node.operands]) hk₂ nofun
  exact returns_act htarget.grown hpre₃ rfl (Nat.succ_pos _) htarget.grown.isPrefix.length_le le_rfl
    (act_writePc hpc) (.stop (step_last (by simp [callAll, packetOf])))

/-- The last nodes of `POP` and `LEAVE`, which move the pointer `rsp`. -/
def addEight (rsp : Port) (nodes : List Node) : Port × List Node :=
  Builder.binop .add rsp (Builder.const (.u 64) 8 nodes).1 (Builder.const (.u 64) 8 nodes).2

def moveNodes (rsp : Port) (nodes : List Node) : List Node :=
  (addEight rsp nodes).2 ++
    [.writeReg Reg.RSP.offset Reg.RSP.idx "RSP" (addEight rsp nodes).1]

theorem prefix_moveNodes (rsp : Port) (nodes : List Node) : nodes <+: moveNodes rsp nodes :=
  ((List.prefix_append _ _).trans (List.prefix_append _ _)).trans (List.prefix_append _ _)

/-- After an action that uses the old pointer. -/
theorem move_returns {mid : List Node} {node : Node} {rsp : Port}
    (hw : wellFormed (moveNodes rsp (mid ++ [node]))) (hact : node.isAction)
    (hused : rsp.owner ∈ uses (moveNodes rsp (mid ++ [node])) mid.length)
    (hlt : rsp.owner < mid.length)
    (htype : rsp.type = .u 64) {x : BitVec 64} {env : Env}
    (hk : KnowsAll intOps (packetOf address (moveNodes rsp (mid ++ [node])) hw) env)
    (hrsp : env.port rsp = some x.toNat) (g : Guest) :
    (atFirstUse intOps (packetOf address (moveNodes rsp (mid ++ [node])) hw)).Returns
      ⟨0, mid.length + 1, g, intOps.local₀, env⟩ (some (g.set .RSP (x + 8))) := by
  have hknown : Block address (fun o v => o = rsp ∧ v = x.toNat) g (mid ++ [node]) (.u 64) x.toNat
      (rsp, mid ++ [node]) := by
    rw [← htype]
    exact .of_known ⟨rfl, rfl⟩ (by simpa using hlt.trans (Nat.lt_succ_self _))
  have hadd : Block address (fun o v => o = rsp ∧ v = x.toNat) g (mid ++ [node]) (.u 64)
      (x + 8).toNat (addEight rsp (mid ++ [node])) :=
    hknown.add (.const (.refl _) (.u 64) 8) (ofNat_toNat_self x) rfl
  have hpre : (addEight rsp (mid ++ [node])).2 ++
      [.writeReg Reg.RSP.offset Reg.RSP.idx "RSP" (addEight rsp (mid ++ [node])).1] <+:
        moveNodes rsp (mid ++ [node]) :=
    List.prefix_rfl
  have hport := hadd.port_eq (l := intOps.local₀) hadd.grown hpre List.prefix_rfl List.prefix_rfl
    (by simp [Node.operands]) hk (by
      rintro o v ⟨rfl, rfl⟩
      exact (port_eq_of_used List.prefix_rfl hadd.grown hpre hact hused).trans hrsp)
  exact returns_act hadd.grown hpre rfl (Nat.succ_pos _)
    (by simpa using hadd.grown.isPrefix.length_le) (by simp) (act_writeReg hport)
    (.stop (step_last (by simp [moveNodes, packetOf])))

/-- The first nodes of `POP`. -/
def popHead : List Node :=
  [.readReg (.u 64) Reg.RSP.offset Reg.RSP.idx "RSP", .readMem (.u 64) (val 64 0)]

theorem block_popHead (address : ℕ) (known : Port → ℕ → Prop) (g : Guest) :
    Block address known g [] (.u 64) (Guest.load g.mem (g.get 64 .RSP).toNat 8)
      (val 64 1, popHead) := by
  have hrsp : Block address known g [] (.u 64) (g.get 64 .RSP).toNat
      (Builder.readReg (.u 64) .RSP "RSP" []) :=
    .readReg (.refl []) 64 .RSP _
  exact hrsp.readMem (.u 64)

/-- The operand of the action at `mid` is read from memory at the old pointer. -/
theorem used_of_readMem {nodes mid : List Node} (hw : wellFormed nodes) {m n : ℕ}
    (hm : m ∈ uses nodes mid.length)
    (hnode : nodes[m]? = some (.readMem (.u 64) (val 64 n))) {user : Node}
    (huser : nodes[n]? = some user) (hval : user.isAction = false) :
    n ∈ uses nodes mid.length := by
  have hm' : m ∈ uses (packetOf 0 nodes hw).nodes mid.length := hm
  exact isUsed_of_uses hm' hnode (List.mem_singleton_self (val 64 n)) user huser hval

theorem pop_returns {mid : List Node} {node : Node} (hmid : Grown popHead mid)
    (hisAction : node.isAction) (hval : val 64 1 ∈ node.operands)
    (hw : wellFormed (moveNodes (val 64 0) (mid ++ [node]))) {g g' : Guest}
    (hrun : ∀ env, KnowsAll intOps (packetOf address _ hw) env →
      (atAction intOps (packetOf address _ hw) mid.length g intOps.local₀ env).port (val 64 1) =
          some (Guest.load g.mem (g.get 64 .RSP).toNat 8) →
        act intOps node ⟨0, mid.length, g, intOps.local₀,
            atAction intOps (packetOf address _ hw) mid.length g intOps.local₀ env⟩ =
          some ⟨0, mid.length + 1, g', intOps.local₀,
            atAction intOps (packetOf address _ hw) mid.length g intOps.local₀ env⟩) :
    (atFirstUse intOps (packetOf address _ hw)).Returns (.enter intOps 0 g)
      (some (g'.set .RSP (g.get 64 .RSP + 8))) := by
  have hrsp : Block address (fun _ _ => False) g [] (.u 64) (g.get 64 .RSP).toNat
      (Builder.readReg (.u 64) .RSP "RSP" []) :=
    .readReg (.refl []) 64 .RSP _
  have hhead := block_popHead address (fun _ _ => False) g
  have hleg := hhead.grown.trans hmid
  have hpre := prefix_moveNodes (val 64 0) (mid ++ [node])
  have hlen := hmid.isPrefix.length_le
  refine returns_enter hleg hpre hisAction (Nat.zero_lt_two.trans_le hlen) fun env hk => ?_
  have hport := hhead.port_eq (l := intOps.local₀) hleg hpre List.prefix_rfl hmid.isPrefix hval hk
    nofun
  refine returns_act hleg hpre hisAction Nat.one_pos (one_le_two.trans hlen) (Nat.zero_le _)
    (hrun env hk hport) ?_
  have hused := hhead.mem_uses (Nat.zero_le _) hmid.isPrefix hpre hw hval
  have hnodes := (hmid.isPrefix.trans (List.prefix_append _ [node])).trans hpre
  have hused₀ := used_of_readMem hw hused (getElem?_of_extends hnodes rfl)
    (getElem?_of_extends hnodes rfl) rfl
  have hport₀ := hrsp.port_eq_of_isUsed (l := intOps.local₀) hleg hpre List.prefix_rfl
    ((List.prefix_append _ _).trans hmid.isPrefix) (fun _ _ _ => hused₀) hk nofun
  exact move_returns hw hisAction hused₀ (Nat.zero_lt_two.trans_le hlen) rfl
    (knowsAll_atAction hk _ _ _) hport₀ g'

/-! ### `LEAVE` and `RET` -/

def leaveHead : List Node :=
  [.readReg (.u 64) Reg.RBP.offset Reg.RBP.idx "RBP",
    .writeReg Reg.RSP.offset Reg.RSP.idx "RSP" (val 64 0)]

def leaveMid : List Node :=
  leaveHead ++ [.readReg (.u 64) Reg.RSP.offset Reg.RSP.idx "RSP", .readMem (.u 64) (val 64 2)]

def leaveNodes : List Node :=
  moveNodes (val 64 2) (leaveMid ++ [.writeReg Reg.RBP.offset Reg.RBP.idx "RBP" (val 64 3)])

theorem wellFormed_leaveNodes : wellFormed leaveNodes := by
  decide

/-- `RSP` is read after it was written. -/
theorem leave_returns (address : ℕ) (g : Guest) :
    (atFirstUse intOps (packetOf address leaveNodes wellFormed_leaveNodes)).Returns
      (.enter intOps 0 g)
      (some (((g.set .RSP (g.get 64 .RBP)).setReg Reg.RBP.offset
        (Guest.load g.mem (g.get 64 .RBP).toNat 8)).set .RSP (g.get 64 .RBP + 8))) := by
  have hrbp : Block address (fun _ _ => False) g [] (.u 64) (g.get 64 .RBP).toNat
      (Builder.readReg (.u 64) .RBP "RBP" []) :=
    .readReg (.refl []) 64 .RBP _
  have hrsp : Block address (fun _ _ => False) (g.set .RSP (g.get 64 .RBP)) leaveHead (.u 64)
      ((g.set .RSP (g.get 64 .RBP)).get 64 .RSP).toNat
      (Builder.readReg (.u 64) .RSP "RSP" leaveHead) :=
    .readReg (.refl leaveHead) 64 .RSP _
  have hmem := hrsp.readMem (.u 64)
  rw [Guest.get_set_self] at hrsp hmem
  have hpre₂ := prefix_moveNodes (val 64 2)
    (leaveMid ++ [.writeReg Reg.RBP.offset Reg.RBP.idx "RBP" (val 64 3)])
  have hpre₁ : [.readReg (.u 64) Reg.RBP.offset Reg.RBP.idx "RBP"] ++
      [.writeReg Reg.RSP.offset Reg.RSP.idx "RSP" (val 64 0)] <+: leaveNodes :=
    hmem.grown.isPrefix.trans ((List.prefix_append _ _).trans hpre₂)
  refine returns_enter hrbp.grown hpre₁ rfl (by decide) fun env hk => ?_
  have hport := hrbp.port_eq (l := intOps.local₀) hrbp.grown hpre₁ List.prefix_rfl List.prefix_rfl
    (by simp [Node.operands, Builder.readReg, Builder.insert]) hk nofun
  refine returns_act hrbp.grown hpre₁ rfl Nat.one_pos (by decide) (Nat.zero_le _)
    (act_writeReg hport) ?_
  have hk₁ := knowsAll_atAction hk 1 g intOps.local₀
  have hval := hmem.port_eq (l := intOps.local₀) hmem.grown hpre₂ List.prefix_rfl List.prefix_rfl
    (by simp [Node.operands, Builder.readMem, Builder.insert, Builder.readReg, leaveHead]) hk₁ nofun
  refine returns_act hmem.grown hpre₂ rfl (Nat.succ_pos _) hmem.grown.isPrefix.length_le le_rfl
    (act_writeReg_nat hval) ?_
  have hused : 2 ∈ uses leaveNodes leaveMid.length := by decide
  have hrsp' := hrsp.port_eq_of_isUsed (l := intOps.local₀) hmem.grown hpre₂ List.prefix_rfl
    (List.prefix_append _ _) (fun _ _ _ => hused) hk₁ nofun
  exact move_returns wellFormed_leaveNodes rfl hused (by decide) rfl
    (knowsAll_atAction hk₁ _ _ _) hrsp' _

def retNodes : List Node :=
  [.readReg (.u 64) Reg.RSP.offset Reg.RSP.idx "RSP", .readMem (.u 64) (val 64 0),
    .constant (.u 64) 8, .binaryArith .add (val 64 0) (val 64 2),
    .writeReg Reg.RSP.offset Reg.RSP.idx "RSP" (val 64 3), .writePc (val 64 1) .ret 0]

theorem wellFormed_retNodes : wellFormed retNodes := by
  decide

/-- The return address is read after the pointer was written, but at the old pointer. -/
theorem ret_last {env : Env} {x : BitVec 64}
    (hk : KnowsAll intOps (packetOf address retNodes wellFormed_retNodes) env)
    (hrsp : env.port (val 64 0) = some x.toNat) (g : Guest) :
    (atFirstUse intOps (packetOf address retNodes wellFormed_retNodes)).Returns
      ⟨0, 5, g, intOps.local₀, env⟩
      (some (g.setReg Reg.PC.offset (Guest.load g.mem x.toNat 8))) := by
  have hpre : retNodes.take 5 ++ [.writePc (val 64 1) .ret 0] <+: retNodes := List.prefix_rfl
  have hnew : ∀ a < 5, 1 ∉ uses retNodes a := by decide
  have hmem : Agrees intOps (packetOf address retNodes wellFormed_retNodes) g intOps.local₀
      (atAction intOps (packetOf address retNodes wellFormed_retNodes) 5 g intOps.local₀ env) 1 :=
    agrees_atAction hk (show 1 ∈ uses retNodes 5 by decide) fun a _ ha => hnew a ha
  have hkept : (atAction intOps (packetOf address retNodes wellFormed_retNodes) 5 g intOps.local₀
      env).port (val 64 0) = some x.toNat := by
    have hused : 0 ∈ uses retNodes 4 := by decide
    have htake : retNodes.take 4 ++ [.writeReg Reg.RSP.offset Reg.RSP.idx "RSP" (val 64 3)] <+:
        retNodes.take 5 :=
      List.prefix_rfl
    exact (port_eq_of_used htake (.refl _) hpre rfl hused).trans hrsp
  have hret := hmem.readMem (o := val 64 1) rfl hkept
  exact returns_act (.refl _) hpre rfl (Nat.succ_pos _) le_rfl le_rfl (act_writePc hret)
    (.stop (step_last le_rfl))

theorem ret_returns (address : ℕ) (g : Guest) :
    (atFirstUse intOps (packetOf address retNodes wellFormed_retNodes)).Returns
      (.enter intOps 0 g)
      (some ((g.set .RSP (g.get 64 .RSP + 8)).setReg Reg.PC.offset
        (Guest.load g.mem (g.get 64 .RSP).toNat 8))) := by
  have hrsp : Block address (fun _ _ => False) g [] (.u 64) (g.get 64 .RSP).toNat
      (Builder.readReg (.u 64) .RSP "RSP" []) :=
    .readReg (.refl []) 64 .RSP _
  have hmem : Grown (Builder.readReg (.u 64) .RSP "RSP" []).2 popHead :=
    (Grown.refl _).insert rfl (by decide)
  have hadd := (hrsp.later hmem).add (.const (.refl _) (.u 64) 8) (ofNat_toNat_self _) rfl
  have hpre : (retNodes.take 4) ++ [.writeReg Reg.RSP.offset Reg.RSP.idx "RSP" (val 64 3)] <+:
      retNodes :=
    List.prefix_append _ _
  refine returns_enter hadd.grown hpre rfl (by decide) fun env hk => ?_
  have hport := hadd.port_eq (l := intOps.local₀) hadd.grown hpre List.prefix_rfl List.prefix_rfl
    (by decide) hk nofun
  have hused : 0 ∈ uses retNodes 4 := by decide
  have hrsp' := hrsp.port_eq_of_isUsed (l := intOps.local₀) hadd.grown hpre List.prefix_rfl
    (List.prefix_append _ _) (fun _ _ _ => hused) hk nofun
  refine returns_act hadd.grown hpre rfl Nat.one_pos (by decide) (Nat.zero_le _)
    (act_writeReg hport) ?_
  exact ret_last (knowsAll_atAction hk 4 g intOps.local₀) hrsp' _

end Runs

/-! ## The packet -/

section WellFormed

variable {address : ℕ} {vt : ValueType} {v : Guest → ℕ}

theorem wellFormed_pushNodes {operand : Builder Port} (hop : Evaluates address operand vt v) :
    wellFormed (pushNodes operand) := by
  have hrsp := block_newRsp address (fun _ _ => False) ⟨fun _ => 0, fun _ => 0⟩
  have hval := hop ⟨fun _ => 0, fun _ => 0⟩ rspNodes
  have hlt : 2 < (operand rspNodes).2.length := hval.grown.isPrefix.length_le
  refine wellFormed_append (wellFormed_append ((hrsp.grown.trans hval.grown).ordered rfl) ?_) ?_
  · simpa [Node.operands] using ⟨hlt, hval.owner⟩
  · simpa [Node.operands] using hlt.trans (Nat.lt_succ_self _)

theorem wellFormed_moveNodes {rsp : Port} {nodes : List Node} (hw : wellFormed nodes)
    (hlt : rsp.owner < nodes.length) : wellFormed (moveNodes rsp nodes) := by
  have hconst : wellFormed (Builder.const (.u 64) 8 nodes).2 :=
    wellFormed_append hw (by simp [Node.operands])
  refine wellFormed_append (wellFormed_append hconst ?_) ?_
  · simpa [Node.operands, Builder.const, Builder.insert] using hlt.trans (Nat.lt_succ_self _)
  · simp [Node.operands, addEight, Builder.binop, Builder.const, Builder.insert]

theorem wellFormed_popNodes {mid : List Node} (hmid : Grown popHead mid) {node : Node}
    (hops : ∀ o ∈ node.operands, o.owner < mid.length) :
    wellFormed (moveNodes (val 64 0) (mid ++ [node])) := by
  refine wellFormed_moveNodes (wellFormed_append (hmid.ordered (by decide)) hops) ?_
  simp

theorem wellFormed_callAll {site : Site} {target : Builder Port}
    (hop : Evaluates site.address target vt v) (constTarget : ℕ) :
    wellFormed (callAll site.length target constTarget) := by
  have hnext := block_next site (fun _ _ => False) ⟨fun _ => 0, fun _ => 0⟩
  have htarget := hop ⟨fun _ => 0, fun _ => 0⟩ (callNodes site.length)
  have hcall : wellFormed (callNodes site.length) :=
    wellFormed_append (hnext.grown.ordered (by decide)) (by
      simp [Node.operands, nextNodes, callHead, rspNodes])
  exact wellFormed_append (htarget.grown.ordered hcall) (by
    simpa [Node.operands] using htarget.owner)

end WellFormed

theorem wellFormed_pop {length : ℕ} {op : PopOperand} {write : Port → Builder PUnit}
    (h : Builder.writeOperand length op = .ok write) : wellFormed (Builder.pop write []).2 := by
  cases op with
  | reg num =>
    obtain rfl := Except.ok.inj h
    exact wellFormed_popNodes (.refl popHead) (by simp [Node.operands, popHead])
  | seg r => exact nomatch h
  | mem m =>
    obtain rfl := Except.ok.inj h
    have haddr := MemOperand.block_computeAddress ⟨0, length⟩ ⟨fun _ => 0, fun _ => 0⟩ popHead m
    have hlt : 1 < (m.computeAddress length popHead).2.length := haddr.grown.isPrefix.length_le
    exact wellFormed_popNodes haddr.grown (by simpa [Node.operands] using ⟨haddr.owner, hlt⟩)

theorem wellFormed_doTranslate {length : ℕ} {inst : StackInst} {b : Builder PUnit}
    (h : inst.doTranslate length = .ok b) : wellFormed (b []).2 := by
  cases inst with
  | push slot op =>
    obtain ⟨operand, hread, h⟩ := bind_eq_ok.1 h
    obtain rfl := Except.ok.inj h
    obtain ⟨vt, v, hop⟩ := exists_evaluates ⟨0, length⟩ hread
    exact wellFormed_pushNodes hop
  | pop slot op =>
    obtain ⟨write, hwrite, h⟩ := bind_eq_ok.1 h
    obtain rfl := Except.ok.inj h
    exact wellFormed_pop hwrite
  | leave slot =>
    obtain rfl := Except.ok.inj h
    exact wellFormed_leaveNodes
  | callNear target =>
    cases target with
    | rel displ =>
      obtain ⟨target, hread, h⟩ := bind_eq_ok.1 h
      obtain rfl := Except.ok.inj hread
      obtain rfl := Except.ok.inj h
      exact wellFormed_callAll (evaluates_relTarget ⟨0, length⟩ (displ.signExtend 64)) _
    | reg num | mem m =>
      obtain ⟨target, hread, h⟩ := bind_eq_ok.1 h
      obtain rfl := Except.ok.inj h
      obtain ⟨vt, v, hop⟩ := exists_evaluates ⟨0, length⟩ hread
      exact wellFormed_callAll hop 0
  | callFar size m =>
    obtain ⟨target, hread, h⟩ := bind_eq_ok.1 h
    obtain rfl := Except.ok.inj h
    obtain ⟨vt, v, hop⟩ := exists_evaluates ⟨0, length⟩ hread
    exact wellFormed_callAll hop 0
  | retNear imm | retFar size imm =>
    obtain rfl := Except.ok.inj h
    exact wellFormed_retNodes

namespace StackInst

/-- The instruction is translated, and its packet takes the guest `g` to `g'`. -/
def Does (site : Site) (inst : StackInst) (g g' : Guest) : Prop :=
  ∃ b, ∃ h : inst.doTranslate site.length = .ok b,
    (atFirstUse intOps (packetOf site.address (b []).2 (wellFormed_doTranslate h))).Returns
      (.enter intOps 0 g) (some g')

section Does

variable {site : Site} {inst : StackInst} {g g' g₁ : Guest} {vt : ValueType} {v : Guest → ℕ}

theorem does_iff_eq {b : Builder PUnit} (h : inst.doTranslate site.length = .ok b)
    (hr : (atFirstUse intOps (packetOf site.address (b []).2 (wellFormed_doTranslate h))).Returns
      (.enter intOps 0 g) (some g₁)) : inst.Does site g g' ↔ g' = g₁ := by
  constructor
  · rintro ⟨b', h', hr'⟩
    obtain rfl := Except.ok.inj (h.symm.trans h')
    exact Option.some.inj (hr'.unique hr)
  · rintro rfl
    exact ⟨b, h, hr⟩

/-- What is not translated does nothing. -/
theorem not_does_of_error {e : String} (h : inst.doTranslate site.length = .error e) :
    ¬inst.Does site g g' := by
  rintro ⟨b, h', -⟩
  exact nomatch h.symm.trans h'

theorem does_push_iff {slot : Slot} {op : PushOperand slot} {operand : Builder Port}
    (hread : readOperand site.length op.operand = .ok operand)
    (hop : Evaluates site.address operand vt v) :
    (push slot op).Does site g g' ↔ g' = (g.setMem (g.get 64 .RSP - 8).toNat (v g)
      (vt.width / 8)).set .RSP (g.get 64 .RSP - 8) := by
  have h : (push slot op).doTranslate site.length = .ok (Builder.push operand) := by
    rw [doTranslate, hread]
    rfl
  exact does_iff_eq h (push_returns hop _ g)

theorem does_pop_reg_iff (slot : Slot) (num : Fin 16) :
    (pop slot (.reg num)).Does site g g' ↔
      g' = (g.setReg (gprReg num).offset (Guest.load g.mem (g.get 64 .RSP).toNat 8)).set .RSP
        (g.get 64 .RSP + 8) := by
  have hw : wellFormed (moveNodes (val 64 0) (popHead ++ [.writeReg (gprReg num).offset
      (gprReg num).idx (gprReg num).name (val 64 1)])) :=
    wellFormed_popNodes (.refl popHead) (by simp [Node.operands, popHead])
  have h : (pop slot (.reg num)).doTranslate site.length = .ok (Builder.pop fun v => do
      let _ ← Builder.writeReg (gprReg num) (gprReg num).name v) :=
    rfl
  exact does_iff_eq h (pop_returns (.refl popHead) rfl (by simp [Node.operands]) hw
    fun env hk hval => act_writeReg_nat hval)

theorem does_pop_mem_iff (slot : Slot) (m : MemOperand) :
    (pop slot (.mem m)).Does site g g' ↔
      g' = (g.setMem (m.address site g).toNat (Guest.load g.mem (g.get 64 .RSP).toNat 8) 8).set
        .RSP (g.get 64 .RSP + 8) := by
  have haddr := MemOperand.block_computeAddress site g popHead m
  have hlt : 1 < (m.computeAddress site.length popHead).2.length := haddr.grown.isPrefix.length_le
  have hw : wellFormed (moveNodes (val 64 0) ((m.computeAddress site.length popHead).2 ++
      [.writeMem (m.computeAddress site.length popHead).1 (val 64 1)])) :=
    wellFormed_popNodes haddr.grown (by simpa [Node.operands] using ⟨haddr.owner, hlt⟩)
  have h : (pop slot (.mem m)).doTranslate site.length = .ok (Builder.pop fun v => do
      let address ← m.computeAddress site.length
      let _ ← Builder.writeMem address v) :=
    rfl
  have hleg := (block_popHead site.address (fun _ _ => False) g).grown.trans haddr.grown
  refine does_iff_eq h (pop_returns haddr.grown rfl (by simp [Node.operands]) hw
    fun env hk hval => ?_)
  have haddr' := haddr.port_eq (l := intOps.local₀) hleg (prefix_moveNodes _ _) List.nil_prefix
    List.prefix_rfl (by simp [Node.operands]) hk nofun
  exact act_writeMem haddr' hval

theorem does_call_iff {target : CallTarget} {operand : Builder Port} {constTarget : ℕ}
    (h : (callNear target).doTranslate site.length =
      .ok (Builder.call site.length operand constTarget))
    (hop : Evaluates site.address operand vt v) :
    (callNear target).Does site g g' ↔
      g' = (pushNext site g).setReg Reg.PC.offset (v (pushNext site g)) :=
  does_iff_eq h (call_returns hop _ g)

theorem does_callFar_iff {size : FarSize} {m : MemOperand}
    (hvt : memType (size.bytes + 2) = .ok vt) :
    (callFar size m).Does site g g' ↔
      g' = (pushNext site g).setReg Reg.PC.offset (Guest.load (pushNext site g).mem
        (m.address site (pushNext site g)).toNat (vt.width / 8)) := by
  have h : (callFar size m).doTranslate site.length = .ok (Builder.call site.length (do
      let addr ← m.computeAddress site.length
      Builder.readMem vt addr) 0) := by
    rw [doTranslate, readOperand, hvt]
    rfl
  exact does_iff_eq h (call_returns (evaluates_mem site m vt) _ g)

/-- The immediate is not looked at. -/
theorem does_ret_iff {inst : StackInst} (h : inst.doTranslate site.length = .ok (do let _ ← ret)) :
    inst.Does site g g' ↔ g' = (g.set .RSP (g.get 64 .RSP + 8)).setReg Reg.PC.offset
      (Guest.load g.mem (g.get 64 .RSP).toNat 8) :=
  does_iff_eq h (ret_returns site.address g)

theorem does_leave_iff (slot : Slot) :
    (leave slot).Does site g g' ↔ g' = ((g.set .RSP (g.get 64 .RBP)).setReg Reg.RBP.offset
      (Guest.load g.mem (g.get 64 .RBP).toNat 8)).set .RSP (g.get 64 .RBP + 8) :=
  does_iff_eq rfl (leave_returns site.address g)

end Does

end StackInst

end Arancini.X86
