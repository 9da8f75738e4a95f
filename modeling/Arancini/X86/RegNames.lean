import Arancini.Ir.Node
import Arancini.Lib.Except

/-!
# Names of guest registers

A `read_reg` or `write_reg` node carries an offset, an index and a name, and one back-end goes by
one of them, the next by another. The node is `Named` when the three are those of one register.

The translators insert such nodes through `read_reg` and `write_reg` of the base class, which look
the index and the name up from the offset, and `COMIS` writes three flags by hand. So every
translator inserts named nodes only (`named_of_insertAll`). `genWrapper` has a table of each of
the three for the argument registers, and two of the tables have `RCX` before `RDX`. A wrapper is
named, and passes its arguments in the registers of the System V convention to every back-end,
exactly when the function has less than three of them (`named_translated_and_wrapper_iff`).
-/

namespace Arancini

namespace Reg

/-- `regnames`. -/
def name : Reg → String
  | PC => "PC"
  | RAX => "RAX" | RCX => "RCX" | RDX => "RDX" | RBX => "RBX"
  | RSP => "RSP" | RBP => "RBP" | RSI => "RSI" | RDI => "RDI"
  | R8 => "R8" | R9 => "R9" | R10 => "R10" | R11 => "R11"
  | R12 => "R12" | R13 => "R13" | R14 => "R14" | R15 => "R15"
  | ZF => "ZF" | CF => "CF" | OF => "OF" | SF => "SF" | PF => "PF" | DF => "DF"
  | unused2 => "unused2" | unused3 => "unused3"
  | FS => "FS" | GS => "GS"
  | X87_STACK_BASE => "X87_STACK_BASE" | X87_CTRL => "X87_CTRL" | X87_STS => "X87_STS"
  | X87_TAG => "X87_TAG" | X87_OPCODE => "X87_OPCODE"
  | ZMM n => "ZMM" ++ toString n.val
  | XCR0 => "XCR0"

theorem mem_all : ∀ r : Reg, r ∈ all
  | ZMM n => by simp [all]
  | PC | RAX | RCX | RDX | RBX | RSP | RBP | RSI | RDI | R8 | R9 | R10 | R11 | R12 | R13 | R14
  | R15 | ZF | CF | OF | SF | PF | DF | unused2 | unused3 | FS | GS | X87_STACK_BASE | X87_CTRL
  | X87_STS | X87_TAG | X87_OPCODE | XCR0 => by simp [all]

/-- `off_to_idx`, whose indices count the lines of `reg.def`. -/
def offToIdx : List (ℕ × ℕ) :=
  all.zipIdx.map fun (r, i) => (r.offset, i)

/-- `off_to_name`. -/
def offToName : List (ℕ × String) :=
  all.map fun r => (r.offset, r.name)

/-- The register a back-end finds by an offset. -/
def ofOffset (off : ℕ) : Option Reg :=
  all.find? (·.offset = off)

/-- The register a back-end finds by an index. -/
def ofIdx (i : ℕ) : Option Reg :=
  all[i]?

/-- `offset_to_idx`. -/
def offsetToIdx (off : ℕ) : Except String ℕ :=
  match offToIdx.lookup off with
  | some i => .ok i
  | none => .error "out_of_range"

/-- `offset_to_name`. -/
def offsetToName (off : ℕ) : Except String String :=
  match offToName.lookup off with
  | some name => .ok name
  | none => .error "out_of_range"

/-- The place of a register in the list is its index. -/
theorem all_get : ∀ i : Fin all.length, (all.get i).idx = i := by
  decide

theorem ofIdx_idx (r : Reg) : ofIdx r.idx = some r := by
  obtain ⟨i, rfl⟩ := List.get_of_mem (mem_all r)
  rw [all_get i]
  exact List.getElem?_eq_getElem i.isLt

theorem offset_injective {r s : Reg} (h : r.offset = s.offset) : r = s := by
  have hall : ∀ r ∈ all, ∀ s ∈ all, r.offset = s.offset → r = s := by decide +kernel
  exact hall r (mem_all r) s (mem_all s) h

theorem ofOffset_offset (r : Reg) : ofOffset r.offset = some r := by
  cases h : ofOffset r.offset with
  | none => exact absurd (decide_eq_true rfl) (List.find?_eq_none.1 h r (mem_all r))
  | some s =>
    have hoff : s.offset = r.offset :=
      of_decide_eq_true (List.find?_some (p := fun s : Reg => s.offset = r.offset) h)
    rw [offset_injective hoff]

theorem idx_of_getElem? {r : Reg} {i : ℕ} (h : all[i]? = some r) : i = r.idx := by
  obtain ⟨hi, rfl⟩ := List.getElem?_eq_some_iff.1 h
  exact (all_get ⟨i, hi⟩).symm

theorem mem_of_lookup {β : Type*} {l : List (ℕ × β)} {k : ℕ} {b : β} (h : l.lookup k = some b) :
    (k, b) ∈ l := by
  obtain ⟨l₁, l₂, rfl, -⟩ := List.lookup_eq_some_iff.1 h
  simp

/-- The tables give the index and the name of one register. -/
theorem exists_of_offsetTo {off i : ℕ} {name : String} (hidx : offsetToIdx off = .ok i)
    (hname : offsetToName off = .ok name) :
    ∃ r : Reg, off = r.offset ∧ i = r.idx ∧ name = r.name := by
  have hi : offToIdx.lookup off = some i := by
    unfold offsetToIdx at hidx
    split at hidx <;> simp_all
  have hn : offToName.lookup off = some name := by
    unfold offsetToName at hname
    split at hname <;> simp_all
  obtain ⟨⟨r, j⟩, hr, hri⟩ := List.mem_map.1 (mem_of_lookup hi)
  obtain ⟨s, -, hs⟩ := List.mem_map.1 (mem_of_lookup hn)
  obtain ⟨rfl, rfl⟩ := Prod.mk.inj hri
  obtain ⟨hsr, rfl⟩ := Prod.mk.inj hs
  obtain rfl := offset_injective hsr
  exact ⟨s, rfl, idx_of_getElem? (List.mem_zipIdx_iff_getElem?.1 hr), rfl⟩

end Reg

namespace X86

open Ir

/-! ## Register nodes -/

/-- The offset, the index and the name of a register node denote one register. -/
def Named (node : Node) : Prop :=
  match node with
  | .readReg _ off i name | .writeReg off i name _ =>
    ∃ r : Reg, off = r.offset ∧ i = r.idx ∧ name = r.name
  | _ => True

/-- Where a back-end that goes by offsets finds the register of a node. -/
def byOffset : Node → Option Reg
  | .readReg _ off _ _ | .writeReg off _ _ _ => Reg.ofOffset off
  | _ => none

/-- Where a back-end that goes by indices finds it. -/
def byIdx : Node → Option Reg
  | .readReg _ _ i _ | .writeReg _ i _ _ => Reg.ofIdx i
  | _ => none

/-- All back-ends access the same location for a named node. -/
theorem byOffset_eq_byIdx_of_named {node : Node} (h : Named node) : byOffset node = byIdx node := by
  cases node <;> try rfl
  all_goals
    obtain ⟨r, rfl, rfl, -⟩ := h
    exact (Reg.ofOffset_offset r).trans (Reg.ofIdx_idx r).symm

/-- The node is a `read_reg` or a `write_reg`. -/
def accessesReg : Node → Bool
  | .readReg .. | .writeReg .. => true
  | _ => false

theorem named_of_accessesReg {node : Node} (h : accessesReg node = false) : Named node := by
  cases node <;> trivial

/-! ## Translators -/

/-- A call of the builder by a translator. `reg` is what it took for a register, a constant or
the result of `xedreg_to_offset`. -/
inductive Call
  | readReg (vt : ValueType) (reg : ℕ)
  | writeReg (reg : ℕ) (value : Port)
  | writeZf (value : Port)
  | writePf (value : Port)
  | writeCf (value : Port)
  | other (node : Node) (h : accessesReg node = false)

/-- The node a call inserts. The last three of those that write a register are in the translator
of `COMIS`. -/
def Call.node : Call → Except String Node
  | readReg vt reg => do
    let i ← Reg.offsetToIdx reg
    let name ← Reg.offsetToName reg
    return .readReg vt reg i name
  | writeReg reg value => do
    let i ← Reg.offsetToIdx reg
    let name ← Reg.offsetToName reg
    return .writeReg reg i name value
  | writeZf value => .ok (.writeReg Reg.ZF.offset Reg.ZF.idx "ZF" value)
  | writePf value => .ok (.writeReg Reg.PF.offset Reg.PF.idx "PF" value)
  | writeCf value => .ok (.writeReg Reg.CF.offset Reg.CF.idx "CF" value)
  | other node _ => .ok node

/-- What a translator inserts with its calls, after the nodes there are. -/
def insertAll : List Call → List Node → Except String (List Node)
  | [], nodes => .ok nodes
  | call :: calls, nodes => do
    let node ← call.node
    insertAll calls (nodes ++ [node])

theorem named_of_node {call : Call} {node : Node} (h : call.node = .ok node) : Named node := by
  cases call with
  | readReg vt reg | writeReg reg value =>
    obtain ⟨i, hi, h⟩ := bind_eq_ok.1 h
    obtain ⟨name, hname, h⟩ := bind_eq_ok.1 h
    obtain rfl := pure_eq_ok.1 h
    exact Reg.exists_of_offsetTo hi hname
  | writeZf value =>
    obtain rfl := Except.ok.inj h
    exact ⟨.ZF, rfl, rfl, rfl⟩
  | writePf value =>
    obtain rfl := Except.ok.inj h
    exact ⟨.PF, rfl, rfl, rfl⟩
  | writeCf value =>
    obtain rfl := Except.ok.inj h
    exact ⟨.CF, rfl, rfl, rfl⟩
  | other node hnode =>
    obtain rfl := Except.ok.inj h
    exact named_of_accessesReg hnode

theorem named_of_insertAll : ∀ {calls : List Call} {nodes nodes' : List Node},
    (∀ n ∈ nodes, Named n) → insertAll calls nodes = .ok nodes' → ∀ n ∈ nodes', Named n
  | [], nodes, nodes', hnodes, h => by
    obtain rfl := Except.ok.inj h
    exact hnodes
  | call :: calls, nodes, nodes', hnodes, h => by
    obtain ⟨node, hnode, h⟩ := bind_eq_ok.1 h
    refine named_of_insertAll (fun n hn => ?_) h
    rcases List.mem_append.1 hn with hn | hn
    · exact hnodes n hn
    · rw [List.mem_singleton.1 hn]
      exact named_of_node hnode

/-! ## Library-call wrappers -/

/-- `nlib_function`. -/
structure NlibFunction where
  fname : String
  returnType : ValueType
  parameterTypes : List ValueType

/-- The integer arguments, which are passed in registers. -/
def isInteger (vt : ValueType) : Bool :=
  vt.typeClass = .signedInteger ∨ vt.typeClass = .unsignedInteger

def gprArgRegoff : List ℕ :=
  [Reg.RDI.offset, Reg.RSI.offset, Reg.RDX.offset, Reg.RCX.offset, Reg.R8.offset, Reg.R9.offset]

def gprArgRegidx : List ℕ :=
  [Reg.RDI.idx, Reg.RSI.idx, Reg.RCX.idx, Reg.RDX.idx, Reg.R8.idx, Reg.R9.idx]

def gprArgRegname : List String :=
  ["RDI", "RSI", "RCX", "RDX", "R8", "R9"]

/-- The three tables together. -/
def gprArgs : List (ℕ × ℕ × String) :=
  gprArgRegoff.zip (gprArgRegidx.zip gprArgRegname)

/-- The argument registers of the System V convention, in order. -/
def systemV : List Reg :=
  [.RDI, .RSI, .RDX, .RCX, .R8, .R9]

/-- The arguments of the call : what the tables have from `gri` on is `regs`, and `n` nodes are
there already. The nodes that read the registers, and their ports. -/
def wrapperArgs : List ValueType → List (ℕ × ℕ × String) → ℕ → Except String (List Node × List Port)
  | [], _, _ => .ok ([], [])
  | item :: params, regs, n =>
    match item.typeClass, regs with
    | .none, regs => wrapperArgs params regs n
    | .floatingPoint, _ => .error "Float args unsupported in native lib wrapper."
    | _, [] => .error "Stack args unsupported in native lib wrapper."
    | _, (off, i, name) :: regs => do
      let (nodes, args) ← wrapperArgs params regs (n + 1)
      return (.readReg item off i name :: nodes, ⟨.value, item, n⟩ :: args)

/-- What becomes of the value of the call. -/
def wrapperResult (retty : ValueType) (call : Port) : Except String (List Node) :=
  match retty.typeClass with
  | .none => .ok []
  | .signedInteger | .unsignedInteger =>
    if retty.elementWidth ≤ 64 then .ok [.writeReg Reg.RAX.offset Reg.RAX.idx "RAX" call]
    else .error "Return types > 64bit unsupported in native lib wrapper."
  | .floatingPoint => .error "Float return types unsupported in native lib wrapper."

/-- The nodes of the two packets of a wrapper : the call, and the return to the caller. -/
structure Wrapper where
  name : String
  call : List Node
  ret : List Node

/-- `gen_wrapper`. -/
def genWrapper (func : NlibFunction) : Except String Wrapper := do
  let (reads, args) ← wrapperArgs func.parameterTypes gprArgs 0
  let val : Port := ⟨.value, func.returnType, reads.length⟩
  let result ← wrapperResult func.returnType val
  return {
    name := "__arancini__" ++ func.fname ++ "_wrapper"
    call := reads ++ .internalCall func.fname func.returnType args :: result
    ret := [.readReg (.u 64) Reg.RSP.offset Reg.RSP.idx "RSP",
      .readMem (.u 64) ⟨.value, .u 64, 0⟩,
      .constant (.u 64) 8,
      .binaryArith .add ⟨.value, .u 64, 0⟩ ⟨.value, .u 64, 2⟩,
      .writeReg Reg.RSP.offset Reg.RSP.idx "RSP" ⟨.value, .u 64, 3⟩,
      .writePc ⟨.value, .u 64, 1⟩ .ret 0] }

/-- The functions there are wrappers of : no argument or result is a floating-point number, six
integer arguments at most, and a result of 64 bits at most. -/
def Wrappable (func : NlibFunction) : Prop :=
  (∀ vt ∈ func.parameterTypes, vt.typeClass ≠ .floatingPoint) ∧
    (func.parameterTypes.filter isInteger).length ≤ 6 ∧ func.returnType.typeClass ≠ .floatingPoint ∧
    (isInteger func.returnType → func.returnType.elementWidth ≤ 64)

/-- To a back-end that finds registers by `locate`, the wrapper passes the integer arguments of
the function in the registers of the convention, in order, and returns in `RAX`. -/
def FollowsSystemV (locate : Node → Option Reg) (func : NlibFunction) (w : Wrapper) : Prop :=
  ∃ reads args result, w.call = reads ++ .internalCall func.fname func.returnType args :: result ∧
    args.map (·.type) = func.parameterTypes.filter isInteger ∧
    args.map (fun arg => w.call[arg.owner]?.bind locate) = (systemV.take args.length).map some ∧
    if func.returnType.typeClass = .none then result = []
    else ∃ node, result = [node] ∧ locate node = some .RAX ∧
      node.operands = [⟨.value, func.returnType, reads.length⟩]

/-- The wrapper is what all back-ends take it for. -/
structure RightWrapper (func : NlibFunction) (w : Wrapper) : Prop where
  named_call : ∀ n ∈ w.call, Named n
  named_ret : ∀ n ∈ w.ret, Named n
  byOffset : FollowsSystemV byOffset func w
  byIdx : FollowsSystemV byIdx func w

/-! ## When a wrapper is right -/

/-- The nodes that read the arguments. -/
def argNodes (ints : List ValueType) (regs : List (ℕ × ℕ × String)) : List Node :=
  List.zipWith (fun item (off, i, name) => .readReg item off i name) ints regs

/-- Their ports. -/
def argPorts (ints : List ValueType) (n : ℕ) : List Port :=
  (ints.zipIdx n).map fun (item, k) => ⟨.value, item, k⟩

theorem wrapperArgs_of_wrappable : ∀ {params : List ValueType} {regs : List (ℕ × ℕ × String)}
    {n : ℕ}, (∀ vt ∈ params, vt.typeClass ≠ .floatingPoint) →
      (params.filter isInteger).length ≤ regs.length →
      wrapperArgs params regs n =
        .ok (argNodes (params.filter isInteger) regs, argPorts (params.filter isInteger) n)
  | [], regs, n, _, _ => rfl
  | item :: params, regs, n, hfloat, hlen => by
    have htail : ∀ vt ∈ params, vt.typeClass ≠ .floatingPoint := fun vt hvt =>
      hfloat vt (List.mem_cons_of_mem _ hvt)
    have hitem := hfloat item List.mem_cons_self
    cases hclass : item.typeClass with
    | none =>
      have hint : isInteger item = false := by simp [isInteger, hclass]
      rw [List.filter_cons_of_neg (by simp [hint])] at hlen ⊢
      simp only [wrapperArgs, hclass]
      exact wrapperArgs_of_wrappable htail hlen
    | floatingPoint => exact absurd hclass hitem
    | signedInteger | unsignedInteger =>
      have hint : isInteger item = true := by simp [isInteger, hclass]
      rw [List.filter_cons_of_pos hint] at hlen ⊢
      rcases regs with _ | ⟨⟨off, i, name⟩, regs⟩
      · simp at hlen
      · simp only [wrapperArgs, hclass]
        rw [wrapperArgs_of_wrappable htail (Nat.le_of_succ_le_succ hlen)]
        rfl

theorem wrappable_of_wrapperArgs : ∀ {params : List ValueType} {regs : List (ℕ × ℕ × String)}
    {n : ℕ} {r : List Node × List Port}, wrapperArgs params regs n = .ok r →
      (∀ vt ∈ params, vt.typeClass ≠ .floatingPoint) ∧
        (params.filter isInteger).length ≤ regs.length
  | [], regs, n, r, _ => by simp
  | item :: params, regs, n, r, h => by
    cases hclass : item.typeClass with
    | none =>
      simp only [wrapperArgs, hclass] at h
      obtain ⟨hfloat, hlen⟩ := wrappable_of_wrapperArgs h
      have hint : isInteger item = false := by simp [isInteger, hclass]
      rw [List.filter_cons_of_neg (by simp [hint])]
      exact ⟨by simpa [hclass] using hfloat, hlen⟩
    | floatingPoint => simp [wrapperArgs, hclass] at h
    | signedInteger | unsignedInteger =>
      rcases regs with _ | ⟨⟨off, i, name⟩, regs⟩
      · simp [wrapperArgs, hclass] at h
      · simp only [wrapperArgs, hclass] at h
        obtain ⟨r', hr', -⟩ := bind_eq_ok.1 h
        obtain ⟨hfloat, hlen⟩ := wrappable_of_wrapperArgs hr'
        have hint : isInteger item = true := by simp [isInteger, hclass]
        rw [List.filter_cons_of_pos hint]
        exact ⟨by simpa [hclass] using hfloat, Nat.succ_le_succ hlen⟩

/-- The write of the result. -/
def resultNodes (retty : ValueType) (call : Port) : List Node :=
  if retty.typeClass = .none then []
  else [.writeReg Reg.RAX.offset Reg.RAX.idx "RAX" call]

theorem wrapperResult_eq_ok {retty : ValueType} {call : Port} {result : List Node} :
    wrapperResult retty call = .ok result ↔ retty.typeClass ≠ .floatingPoint ∧
      (isInteger retty → retty.elementWidth ≤ 64) ∧ result = resultNodes retty call := by
  cases hclass : retty.typeClass <;>
    simp [wrapperResult, resultNodes, isInteger, hclass, eq_comm]
  all_goals
    by_cases hwidth : retty.elementWidth ≤ 64 <;> simp [hwidth]

/-- There is a wrapper exactly for a wrappable function. -/
theorem genWrapper_eq_ok {func : NlibFunction} {w : Wrapper} (h : genWrapper func = .ok w) :
    Wrappable func ∧
      w.call = argNodes (func.parameterTypes.filter isInteger) gprArgs ++
        .internalCall func.fname func.returnType
          (argPorts (func.parameterTypes.filter isInteger) 0) ::
        resultNodes func.returnType ⟨.value, func.returnType,
          (argNodes (func.parameterTypes.filter isInteger) gprArgs).length⟩ ∧
      ∀ n ∈ w.ret, Named n := by
  obtain ⟨⟨reads, args⟩, hargs, h⟩ := bind_eq_ok.1 h
  obtain ⟨result, hresult, h⟩ := bind_eq_ok.1 h
  obtain rfl := pure_eq_ok.1 h
  obtain ⟨hfloat, hlen⟩ := wrappable_of_wrapperArgs hargs
  obtain ⟨hret, hwidth, rfl⟩ := wrapperResult_eq_ok.1 hresult
  obtain ⟨rfl, rfl⟩ : reads = _ ∧ args = _ := by
    simpa [wrapperArgs_of_wrappable hfloat hlen, eq_comm] using hargs
  refine ⟨⟨hfloat, hlen, hret, hwidth⟩, rfl, ?_⟩
  intro n hn
  simp only [List.mem_cons, List.not_mem_nil, or_false] at hn
  rcases hn with rfl | rfl | rfl | rfl | rfl | rfl
  · exact ⟨.RSP, rfl, rfl, rfl⟩
  · trivial
  · trivial
  · trivial
  · exact ⟨.RSP, rfl, rfl, rfl⟩
  · trivial

theorem exists_genWrapper {func : NlibFunction} (h : Wrappable func) :
    ∃ w, genWrapper func = .ok w := by
  obtain ⟨hfloat, hlen, hret, hwidth⟩ := h
  have hargs : wrapperArgs func.parameterTypes gprArgs 0 = _ := wrapperArgs_of_wrappable hfloat hlen
  have hresult : ∀ v, wrapperResult func.returnType v = .ok (resultNodes func.returnType v) :=
    fun v => wrapperResult_eq_ok.2 ⟨hret, hwidth, rfl⟩
  simp only [genWrapper, bind_of_ok hargs, bind_of_ok (hresult _)]
  exact ⟨_, rfl⟩

theorem named_resultNodes {retty : ValueType} {call : Port} :
    ∀ n ∈ resultNodes retty call, Named n := by
  intro n hn
  unfold resultNodes at hn
  split at hn
  · cases hn
  · rw [List.mem_singleton.1 hn]
    exact ⟨.RAX, rfl, rfl, rfl⟩

/-- A back-end sees the result returned in `RAX` if it finds `RAX` at its own offset and index. -/
theorem followsSystemV_of_args {locate : Node → Option Reg} {func : NlibFunction} {w : Wrapper}
    {reads : List Node} {args : List Port}
    (hrax : ∀ v, locate (.writeReg Reg.RAX.offset Reg.RAX.idx "RAX" v) = some .RAX)
    (hcall : w.call = reads ++ .internalCall func.fname func.returnType args ::
      resultNodes func.returnType ⟨.value, func.returnType, reads.length⟩)
    (htype : args.map (·.type) = func.parameterTypes.filter isInteger)
    (hargs : args.map (fun arg => w.call[arg.owner]?.bind locate) =
      (systemV.take args.length).map some) :
    FollowsSystemV locate func w := by
  refine ⟨reads, args, _, hcall, htype, hargs, ?_⟩
  unfold resultNodes
  split
  · rfl
  · exact ⟨_, rfl, hrax _, rfl⟩

/-- The first two arguments are read from registers with one name. -/
theorem named_argNodes {ints : List ValueType} (h : ints.length < 3) :
    ∀ n ∈ argNodes ints gprArgs, Named n := by
  intro n hn
  rcases ints with _ | ⟨a, _ | ⟨b, _ | ⟨d, ints⟩⟩⟩
  · cases hn
  · rw [List.mem_singleton.1 hn]
    exact ⟨.RDI, rfl, rfl, rfl⟩
  · rcases List.mem_cons.1 hn with rfl | hn
    · exact ⟨.RDI, rfl, rfl, rfl⟩
    · rw [List.mem_singleton.1 hn]
      exact ⟨.RSI, rfl, rfl, rfl⟩
  · simp only [List.length_cons] at h
    omega

/-- They are the registers of the convention, to a back-end that finds both. -/
theorem locate_argNodes {locate : Node → Option Reg} {ints : List ValueType} {rest : List Node}
    (h : ints.length < 3)
    (hlocate : ∀ n ∈ argNodes ints gprArgs, locate n = byOffset n) :
    (argPorts ints 0).map (fun arg => (argNodes ints gprArgs ++ rest)[arg.owner]?.bind locate) =
      (systemV.take (argPorts ints 0).length).map some := by
  rcases ints with _ | ⟨a, _ | ⟨b, _ | ⟨d, ints⟩⟩⟩
  · rfl
  · have hrdi : locate (.readReg a Reg.RDI.offset Reg.RDI.idx "RDI") = some .RDI :=
      (hlocate _ List.mem_cons_self).trans (Reg.ofOffset_offset .RDI)
    exact congrArg (fun r => [r]) hrdi
  · have hrdi : locate (.readReg a Reg.RDI.offset Reg.RDI.idx "RDI") = some .RDI :=
      (hlocate _ List.mem_cons_self).trans (Reg.ofOffset_offset .RDI)
    have hrsi : locate (.readReg b Reg.RSI.offset Reg.RSI.idx "RSI") = some .RSI :=
      (hlocate _ (List.mem_cons_of_mem _ List.mem_cons_self)).trans (Reg.ofOffset_offset .RSI)
    exact congrArg₂ (fun r s => [r, s]) hrdi hrsi
  · simp only [List.length_cons] at h
    omega

theorem rightWrapper_iff {func : NlibFunction} {w : Wrapper} (h : genWrapper func = .ok w) :
    RightWrapper func w ↔ (func.parameterTypes.filter isInteger).length < 3 := by
  obtain ⟨-, hcall, hret⟩ := genWrapper_eq_ok h
  constructor
  · intro hright
    by_contra hlen
    -- the third argument is read at the offset of `RDX`, with the index of `RCX`
    rcases hints : func.parameterTypes.filter isInteger with _ | ⟨a, _ | ⟨b, _ | ⟨d, l⟩⟩⟩
    · simp [hints] at hlen
    · simp [hints] at hlen
    · simp [hints] at hlen
    · have hmem : .readReg d Reg.RDX.offset Reg.RCX.idx "RCX" ∈ w.call := by
        rw [hcall, hints]
        simp [argNodes, gprArgs, gprArgRegoff, gprArgRegidx, gprArgRegname]
      obtain ⟨r, hoff, hidx, -⟩ := hright.named_call _ hmem
      obtain rfl := Reg.offset_injective hoff
      exact absurd hidx (by decide)
  · intro hlen
    have hnamed : ∀ n ∈ w.call, Named n := by
      intro n hn
      rw [hcall] at hn
      rcases List.mem_append.1 hn with hn | hn
      · exact named_argNodes hlen n hn
      · rcases List.mem_cons.1 hn with rfl | hn
        · trivial
        · exact named_resultNodes n hn
    have htype : (argPorts (func.parameterTypes.filter isInteger) 0).map (·.type) =
        func.parameterTypes.filter isInteger := by
      simp [argPorts, Function.comp_def]
    refine ⟨hnamed, hret, ?_, ?_⟩
    · refine followsSystemV_of_args (fun v => Reg.ofOffset_offset .RAX) hcall htype ?_
      rw [hcall]
      exact locate_argNodes hlen fun n hn => rfl
    · refine followsSystemV_of_args (fun v => Reg.ofIdx_idx .RAX) hcall htype ?_
      rw [hcall]
      exact locate_argNodes hlen fun n hn =>
        (byOffset_eq_byIdx_of_named (named_argNodes hlen n hn)).symm

/-! ## The register naming invariant -/

/-- Every translator inserts named nodes only, and the wrapper of a function is right exactly when
the function has less than three integer arguments. -/
theorem named_translated_and_wrapper_iff (calls : List Call) (nodes : List Node)
    (func : NlibFunction) :
    (insertAll calls [] = .ok nodes → ∀ n ∈ nodes, Named n) ∧
      ((∀ w, genWrapper func = .ok w → RightWrapper func w) ↔
        (Wrappable func → (func.parameterTypes.filter isInteger).length < 3)) := by
  refine ⟨named_of_insertAll (by simp), ?_, ?_⟩
  · intro hright hwrap
    obtain ⟨w, hw⟩ := exists_genWrapper hwrap
    exact (rightWrapper_iff hw).1 (hright w hw)
  · intro hlen w hw
    exact (rightWrapper_iff hw).2 (hlen (genWrapper_eq_ok hw).1)

/-- `ssize_t write(int, const void *, size_t)`. -/
def write : NlibFunction where
  fname := "write"
  returnType := .s 64
  parameterTypes := [.s 32, .u 64, .u 64]

/-- The third argument of `write` is read at the offset of `RDX`, under the name of `RCX`. -/
theorem not_rightWrapper_write : ¬∀ w, genWrapper write = .ok w → RightWrapper write w := by
  intro hright
  have hwrap : Wrappable write := ⟨by decide, by decide, by decide, by decide⟩
  obtain ⟨w, hw⟩ := exists_genWrapper hwrap
  have hlen := (rightWrapper_iff hw).1 (hright w hw)
  exact absurd hlen (by decide)

end X86

end Arancini
