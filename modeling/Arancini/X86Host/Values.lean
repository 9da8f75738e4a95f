import Mathlib.Logic.Relation
import Arancini.X86Host.ContextSound

/-!
# The values of materialised nodes

What `materialise` leaves in the virtual registers of a node : `nodeValue` of the values of the
nodes it reads, in the memory that was there when it was materialised. A virtual register is not
written again, so these values stay (`Evaluates.portValue_eq`). Which `write_reg` is done in place
is a parameter `fold`, so that this is about the code with and without the shortcut of
`materialise_write_reg`.

A node is materialised once, and with it all that it reads (`Reaches`). Whether there are
instructions for a node depends on the node alone (`Encodable`).
-/

namespace Arancini.X86Host

open Ir

/-! ## Lowering -/

section Lower

variable (fold : ℕ → Port → Option ℕ) (nodes : List Node)

/-- `materialise_write_reg`, with the constants that it takes from a register in place. -/
def materialiseWriteRegBy (mat : NodeId → Context → Except String Context) (regoff : ℕ)
    (value : Port) (c : Context) : Except String Context :=
  let w := value.type.elementWidth
  match fold regoff value with
  | some k => c.append (Instruction.sub (.guestreg w regoff) ⟨.imm k, w, false, false⟩)
  | none =>
    match nodes[value.owner]? with
    | some (.constant _ k) => c.append (Instruction.mov (.guestreg w regoff) (.imm k w))
    | _ => do
      let (v, c) ← vregOperand mat value c
      c.append (Instruction.mov (.guestreg w regoff) v)

def materialiseNodeBy (mat : NodeId → Context → Except String Context) (n : NodeId) :
    Option Node → Context → Except String Context
  | some (.writeReg off _ _ v) => materialiseWriteRegBy fold nodes mat off v
  | node => materialiseNode nodes mat n node

def materialiseBy : ℕ → NodeId → Context → Except String Context
  | 0, _, _ => .error "stack overflow"
  | depth + 1, n, c =>
    if n ∈ c.materialised then .ok c
    else do
      let c ← materialiseNodeBy fold nodes (materialiseBy depth) n nodes[n]? c
      return { c with materialised := n :: c.materialised }

/-- `lower` for each action of an instruction. -/
def lowerPacketBy (p : GuestInstr) (c : Context) : Except String Context :=
  p.2.foldlM (fun c n => materialiseBy fold nodes (n + 1) n c) { c with thisPc := p.1 }

/-- The constants that `materialise_write_reg` takes are those of `decrement`. -/
theorem materialiseBy_decrement : ∀ depth,
    materialiseBy (decrement nodes) nodes depth = materialise nodes depth
  | 0 => rfl
  | depth + 1 => by
    funext n c
    rw [materialiseBy, materialise, materialiseBy_decrement depth]
    split_ifs
    · rfl
    · congr 1
      cases nodes[n]? with
      | none => rfl
      | some node => cases node <;> rfl

theorem lowerPacketBy_decrement (p : GuestInstr) (c : Context) :
    lowerPacketBy (decrement nodes) nodes p c = lowerPacket nodes p c := by
  unfold lowerPacketBy lowerPacket
  simp only [materialiseBy_decrement]

/-! ## What is materialised -/

/-- The nodes that are materialised for a node. -/
def deps : Node → List NodeId
  | .writeReg off _ _ v =>
    match fold off v, nodes[v.owner]? with
    | some _, _ => []
    | none, some (.constant _ _) => []
    | none, _ => [v.owner]
  | node => node.operands.map Port.owner

/-- The second node is materialised with the first one. -/
def Reaches : NodeId → NodeId → Prop :=
  Relation.ReflTransGen fun n m => ∃ node, nodes[n]? = some node ∧ m ∈ deps fold nodes node

end Lower

/-- A node with a value. -/
def hasValue (node : Node) : Bool :=
  (portType node .value).isSome

theorem hasValue_of_portType {node : Node} {k : PortKind} {vt : ValueType}
    (h : portType node k = some vt) : hasValue node := by
  cases node <;> cases k <;> first | rfl | exact nomatch h

/-! ## Values -/

/-- The operation of a `binary_arith`. -/
def mnemonic : BinaryArithOp → Mnemonic
  | .bxor => .XOR
  | .band => .AND
  | .bor => .OR
  | .sub => .SUB
  | .mul => .IMUL
  | _ => .ADD

/-- What a cast makes of a value of `w` bits. -/
def castValue (op : CastOp) (w v : ℕ) : ℕ :=
  if op = .sx then signExtend w v else v

/-- The flag of a port. -/
def flagValue (f : Flags) : PortKind → Bool
  | .zero => f.z
  | .negative => f.s
  | .overflow => f.o
  | .carry => f.c
  | _ => false

/-- The value of a port of a node, from those of the ports it reads. -/
def nodeValue (cpu : Cpu) (pc bp : ℕ) (mem : ℕ → ℕ) (arg : Port → ℕ) : Node → PortKind → ℕ
  | .readReg vt off _ _, _ =>
    Guest.load mem ((bp + off) % 2 ^ 64) (regWidth vt.elementWidth / 8) %
      2 ^ regWidth vt.elementWidth
  | .readMem vt a, _ =>
    Guest.load mem ((arg a + cpu.gsBase) % 2 ^ 64) (vt.elementWidth / 8) %
      2 ^ regWidth vt.elementWidth
  | .constant vt k, _ => k % 2 ^ regWidth vt.elementWidth
  | .readPc, _ => pc % 2 ^ 64
  | .cast op vt v _, _ =>
    castValue op (regWidth v.type.elementWidth) (arg v) % 2 ^ regWidth vt.elementWidth
  | .binaryArith op l r, .value =>
    (cpu.alu (mnemonic op) (regWidth l.type.elementWidth) (arg l) (arg r)).1 %
      2 ^ regWidth l.type.elementWidth
  | .binaryArith op l r, k =>
    if flagValue (cpu.alu (mnemonic op) (regWidth l.type.elementWidth) (arg l) (arg r)).2 k
      then 1 else 0
  | _, _ => 0

theorem nodeValue_congr {cpu : Cpu} {pc bp : ℕ} {mem : ℕ → ℕ} {arg arg' : Port → ℕ} {node : Node}
    {k : PortKind} (h : ∀ o ∈ node.operands, arg o = arg' o) :
    nodeValue cpu pc bp mem arg node k = nodeValue cpu pc bp mem arg' node k := by
  cases node with
  | readMem vt a =>
    have ha := h a List.mem_cons_self
    simp only [nodeValue, ha]
  | cast op vt v ct =>
    have hv := h v List.mem_cons_self
    simp only [nodeValue, hv]
  | binaryArith op l r =>
    have hl := h l List.mem_cons_self
    have hr := h r (List.mem_cons_of_mem l List.mem_cons_self)
    cases k <;> simp only [nodeValue, hl, hr]
  | _ => rfl

/-- A node that does not read memory has the same value in any. -/
theorem nodeValue_mem {cpu : Cpu} {pc bp : ℕ} {mem mem' : ℕ → ℕ} {arg : Port → ℕ} {node : Node}
    {k : PortKind} (hreg : ∀ vt off idx name, node ≠ .readReg vt off idx name)
    (hmem : ∀ vt a, node ≠ .readMem vt a) :
    nodeValue cpu pc bp mem arg node k = nodeValue cpu pc bp mem' arg node k := by
  cases node with
  | readReg vt off idx name => exact absurd rfl (hreg vt off idx name)
  | readMem vt a => exact absurd rfl (hmem vt a)
  | binaryArith op l r => cases k <;> rfl
  | _ => rfl

/-- The value of a port in its virtual register. -/
def portValue (nodes : List Node) (c : Context) (s : State) (n : NodeId) (k : PortKind) : ℕ :=
  match c.ports (n, k), nodes[n]?.bind (portType · k) with
  | some v, some vt => (s.regs (.vreg v)).toNat % 2 ^ regWidth vt.elementWidth
  | _, _ => 0

theorem portValue_of_ports {nodes : List Node} {c : Context} {s : State} {n : NodeId} {k : PortKind}
    {v : ℕ} {node : Node} {vt : ValueType} (hv : c.ports (n, k) = some v)
    (hnode : nodes[n]? = some node) (hvt : portType node k = some vt) :
    portValue nodes c s n k = (s.regs (.vreg v)).toNat % 2 ^ regWidth vt.elementWidth := by
  unfold portValue
  rw [hv, hnode, Option.bind_some, hvt]

/-- The value is kept with the register. -/
theorem portValue_congr {nodes : List Node} {c c' : Context} {s s' : State} {n : NodeId}
    {k : PortKind} (hports : c'.ports (n, k) = c.ports (n, k))
    (hregs : ∀ v, c.ports (n, k) = some v → s'.regs (.vreg v) = s.regs (.vreg v)) :
    portValue nodes c' s' n k = portValue nodes c s n k := by
  unfold portValue
  rw [hports]
  cases hv : c.ports (n, k) with
  | none => rfl
  | some v =>
    cases nodes[n]?.bind (portType · k) with
    | none => rfl
    | some vt => exact congrArg (fun r => BitVec.toNat r % _) (hregs v hv)

/-! ## Instructions -/

/-- The port is one that its node has. -/
def HasPort (nodes : List Node) (o : Port) : Prop :=
  ∃ node vt, nodes[o.owner]? = some node ∧ portType node o.kind = some vt

/-- The widths of a move. -/
abbrev moveWidths : List ℕ :=
  [8, 16, 32, 64]

/-- There are instructions for the node. -/
def Encodable (nodes : List Node) : Node → Prop
  | .readReg vt .. | .constant vt _ => regWidth vt.elementWidth ∈ moveWidths
  | .readPc => True
  | .readMem vt a => HasPort nodes a ∧ vt.elementWidth ∈ moveWidths
  | .cast op vt v _ => HasPort nodes v ∧ ∃ f i, castOp op = .ok f ∧
    f (.vreg 0 vt.elementWidth) (.vreg 0 v.type.elementWidth) = .ok i
  | .binaryArith op l r => HasPort nodes l ∧ HasPort nodes r ∧
    regWidth l.type.elementWidth = regWidth r.type.elementWidth ∧
      regWidth l.type.elementWidth ∈ moveWidths ∧ ∃ f i, arithOp op = .ok f ∧
        f (.vreg 0 l.type.elementWidth) (.vreg 0 r.type.elementWidth) = .ok i
  | .writeReg _ _ _ v => regWidth v.type.elementWidth ∈ moveWidths ∧
    ((∃ vt k, nodes[v.owner]? = some (.constant vt k)) ∨ HasPort nodes v)
  | .writeMem a v => HasPort nodes a ∧ HasPort nodes v ∧
    regWidth v.type.elementWidth = v.type.elementWidth ∧ v.type.elementWidth ∈ moveWidths
  | .writePc v _ _ => HasPort nodes v ∧
    regWidth v.type.elementWidth = v.type.elementWidth ∧ v.type.elementWidth ∈ moveWidths
  | _ => False

/-- An instruction that is emitted is run, and the code does not end with it. -/
def Emitted (i : Instruction) : Prop :=
  i.dead = false ∧ i.opcode ≠ .ret

theorem run_append_of_emitted {cpu : Cpu} {code : List Instruction} (h : ∀ i ∈ code, Emitted i)
    (code' : List Instruction) (s : State) :
    run cpu (code ++ code') s = run cpu code' (run cpu code s) := by
  induction code generalizing s with
  | nil => rfl
  | cons i code ih =>
    obtain ⟨halive, hret⟩ := h i List.mem_cons_self
    rw [List.cons_append, run, run, if_neg (by rw [halive]; decide), if_neg hret,
      if_neg (by rw [halive]; decide), if_neg hret]
    exact ih (fun j hj => h j (List.mem_cons_of_mem i hj)) _

theorem run_singleton {cpu : Cpu} {i : Instruction} (h : Emitted i) (s : State) :
    run cpu [i] s = exec cpu i s := by
  rw [run, if_neg (by rw [h.1]; decide), if_neg h.2, run]

/-- A write leaves the low bits. -/
theorem toNat_merge {w : ℕ} (hw : w ∈ [8, 16, 32, 64]) (old : BitVec 64) (v : ℕ) :
    (merge w old v).toNat % 2 ^ w = v % 2 ^ w := by
  by_cases hle : 32 ≤ w
  · have hle64 : w ≤ 64 := by
      simp only [List.mem_cons, List.not_mem_nil, or_false] at hw
      omega
    have hpow : 2 ^ w ≤ 2 ^ 64 := Nat.pow_le_pow_right (by decide) hle64
    have hlt : v % 2 ^ w < 2 ^ w := Nat.mod_lt _ (Nat.two_pow_pos w)
    rw [merge, if_pos hle, BitVec.toNat_ofNat, Nat.mod_eq_of_lt (hlt.trans_le hpow), Nat.mod_mod]
  · exact toNat_merge_mod hle old v

/-- Of the registers and memory, it changes at most this register. -/
def WritesReg (cpu : Cpu) (r : Reg) (i : Instruction) : Prop :=
  ∀ s, (exec cpu i s).mem = s.mem ∧ ∀ r', r' ≠ r → (exec cpu i s).regs r' = s.regs r'

section Exec

variable {cpu : Cpu} {dst src : Operand} {i : Instruction}

/-- The widths that a `MOV` or an operation has. -/
def Widths (dst src : Operand) : Prop :=
  dst.width = src.width ∧ dst.width ∈ [8, 16, 32, 64]

theorem exec_mov (h : Instruction.mov dst src = .ok i) (s : State) :
    Emitted i ∧ Widths dst src ∧
      exec cpu i s = dst.kind.write cpu dst.width (src.kind.read cpu dst.width s) s := by
  unfold Instruction.mov Instruction.std at h
  split_ifs at h with hok
  obtain rfl := Except.ok.inj h
  exact ⟨⟨rfl, nofun⟩, ⟨hok.1, hok.2.1⟩, rfl⟩

theorem exec_std {m : Mnemonic} (hm : m ≠ .MOV) (h : Instruction.std m .asUseDef dst src = .ok i)
    (s : State) : Emitted i ∧ Widths dst src ∧
      exec cpu i s = dst.kind.write cpu dst.width
        (cpu.alu m dst.width (dst.kind.read cpu dst.width s) (src.kind.read cpu dst.width s)).1
        { s with flags := (cpu.alu m dst.width (dst.kind.read cpu dst.width s)
          (src.kind.read cpu dst.width s)).2 } := by
  unfold Instruction.std at h
  split_ifs at h with hok
  obtain rfl := Except.ok.inj h
  refine ⟨⟨rfl, nofun⟩, ⟨hok.1, hok.2.1⟩, ?_⟩
  cases m with
  | MOV => exact absurd rfl hm
  | _ => rfl

theorem exec_arithOp {op : BinaryArithOp} {f : Operand → Operand → Except String Instruction}
    (hf : arithOp op = .ok f) (h : f dst src = .ok i) (s : State) :
    Emitted i ∧ Widths dst src ∧
      exec cpu i s = dst.kind.write cpu dst.width
        (cpu.alu (mnemonic op) dst.width (dst.kind.read cpu dst.width s)
          (src.kind.read cpu dst.width s)).1
        { s with flags := (cpu.alu (mnemonic op) dst.width (dst.kind.read cpu dst.width s)
          (src.kind.read cpu dst.width s)).2 } := by
  cases op <;> cases hf
  case mul =>
    unfold Instruction.mul at h
    split_ifs at h with hok
    obtain rfl := Except.ok.inj h
    rw [hok.1]
    exact ⟨⟨rfl, nofun⟩, ⟨hok.1.trans hok.2.1.symm, by rw [hok.1]; decide⟩, rfl⟩
  all_goals exact exec_std (by decide) h s

/-- Whether there is an instruction does not depend on the registers. -/
theorem castOp_vreg {op : CastOp} {f : Operand → Operand → Except String Instruction}
    (hf : castOp op = .ok f) {a b w w' : ℕ} (h : f (.vreg a w) (.vreg b w') = .ok i) (a' b' : ℕ) :
    ∃ j, f (.vreg a' w) (.vreg b' w') = .ok j := by
  cases op <;> cases hf
  case zx =>
    unfold Instruction.movz at h ⊢
    split_ifs at h with hform hform'
    · exact ⟨_, if_pos hform⟩
    · exact ⟨_, (if_neg hform).trans (if_pos hform')⟩
  case sx =>
    unfold Instruction.movs at h ⊢
    split_ifs at h with hform
    exact ⟨_, if_pos hform⟩
  case bitcast =>
    unfold Instruction.mov Instruction.std at h ⊢
    split_ifs at h with hform
    exact ⟨_, if_pos hform⟩

theorem arithOp_vreg {op : BinaryArithOp} {f : Operand → Operand → Except String Instruction}
    (hf : arithOp op = .ok f) {a b w w' : ℕ} (h : f (.vreg a w) (.vreg b w') = .ok i) (a' b' : ℕ) :
    ∃ j, f (.vreg a' w) (.vreg b' w') = .ok j := by
  have hstd : ∀ {m : Mnemonic}, Instruction.std m .asUseDef (.vreg a w) (.vreg b w') = .ok i →
      ∃ j, Instruction.std m .asUseDef (.vreg a' w) (.vreg b' w') = .ok j := by
    intro m h
    unfold Instruction.std at h ⊢
    split_ifs at h with hform
    exact ⟨_, if_pos hform⟩
  cases op <;> cases hf
  case mul =>
    unfold Instruction.mul at h ⊢
    split_ifs at h with hform
    exact ⟨_, if_pos hform⟩
  all_goals exact hstd h

theorem exec_setcc {k : Cond} (h : Instruction.setcc k dst = .ok i) (s : State) :
    Emitted i ∧ exec cpu i s = dst.kind.write cpu 8 (if s.flags.get k then 1 else 0) s := by
  unfold Instruction.setcc at h
  split_ifs at h
  obtain rfl := Except.ok.inj h
  exact ⟨⟨rfl, nofun⟩, rfl⟩

/-- An instruction that writes a register. -/
theorem writesReg_of_exec {r : Reg}
    (h : ∀ s, ∃ w v f, exec cpu i s = (OperandKind.reg r).write cpu w v { s with flags := f }) :
    WritesReg cpu r i := by
  intro s
  obtain ⟨w, v, f, hexec⟩ := h s
  rw [hexec]
  exact ⟨rfl, fun r' hne => Function.update_of_ne hne ..⟩

/-- The register after a write. -/
theorem toNat_write {r : Reg} {w : ℕ} (hw : w ∈ [8, 16, 32, 64]) (v : ℕ) (s : State) :
    (((OperandKind.reg r).write cpu w v s).regs r).toNat % 2 ^ w = v % 2 ^ w := by
  have hself : ((OperandKind.reg r).write cpu w v s).regs r = merge w (s.regs r) v :=
    Function.update_self ..
  rw [hself, toNat_merge hw]

theorem exec_castOp {op : CastOp} {f : Operand → Operand → Except String Instruction} {v w : ℕ}
    (hf : castOp op = .ok f) (h : f (.vreg v w) src = .ok i) :
    Emitted i ∧ WritesReg cpu (.vreg v) i ∧
      ∀ s, ((exec cpu i s).regs (.vreg v)).toNat % 2 ^ regWidth w =
        castValue op src.width (src.kind.read cpu src.width s) % 2 ^ regWidth w := by
  cases op <;> cases hf
  case zx =>
    unfold Instruction.movz at h
    split_ifs at h with hform hform'
    · obtain rfl := Except.ok.inj h
      have hw : (Operand.vreg v w).width ∈ [8, 16, 32, 64] := by
        have hforms := hform.2
        simp only [Instruction.extendForms, List.mem_cons, Prod.mk.injEq, List.not_mem_nil,
          or_false] at hforms ⊢
        omega
      exact ⟨⟨rfl, by simp⟩, writesReg_of_exec fun s => ⟨_, _, s.flags, rfl⟩,
        fun s => @toNat_write cpu _ _ hw _ s⟩
    · obtain rfl := Except.ok.inj h
      obtain ⟨hdst, hsrc, hkind⟩ : (Operand.vreg v w).width = 64 ∧ src.width = 32 ∧
          src.kind.form = .r := by simpa using hform'.2
      refine ⟨⟨rfl, by simp⟩, writesReg_of_exec fun s => ⟨_, _, s.flags, rfl⟩, fun s => ?_⟩
      obtain ⟨r | m | k, ws, use, defn⟩ := src
      · obtain rfl : ws = 32 := hsrc
        have hlt : (s.regs r).toNat % 2 ^ 32 < 2 ^ 32 := Nat.mod_lt _ (by decide)
        show (Function.update s.regs (.vreg v) _ (.vreg v)).toNat % _ = _
        rw [Function.update_self, show regWidth w = 64 from hdst]
        show (BitVec.ofNat 64 ((s.regs r).toNat % 2 ^ 32 % 2 ^ 32)).toNat % 2 ^ 64 =
          (s.regs r).toNat % 2 ^ 32 % 2 ^ 64
        rw [BitVec.toNat_ofNat, Nat.mod_mod, Nat.mod_mod]
      · cases hkind
      · cases hkind
  case sx =>
    unfold Instruction.movs at h
    split_ifs at h with hform
    obtain rfl := Except.ok.inj h
    have hw : (Operand.vreg v w).width ∈ [8, 16, 32, 64] := by
      have hforms := hform.2
      simp only [Instruction.extendForms, List.cons_append, List.nil_append, List.mem_cons,
        Prod.mk.injEq, List.not_mem_nil, or_false] at hforms ⊢
      omega
    exact ⟨⟨rfl, by simp⟩, writesReg_of_exec fun s => ⟨_, _, s.flags, rfl⟩,
      fun s => @toNat_write cpu _ _ hw _ s⟩
  case bitcast =>
    have hexec := fun s => @exec_mov cpu _ _ _ h s
    obtain ⟨hemitted, hwidths, -⟩ := hexec ⟨fun _ => 0, fun _ => 0, ⟨false, false, false, false⟩⟩
    refine ⟨hemitted, writesReg_of_exec fun s => ⟨_, _, s.flags, (hexec s).2.2⟩, fun s => ?_⟩
    rw [(hexec s).2.2, ← hwidths.1]
    exact toNat_write hwidths.2 _ _

end Exec

/-! ## Contexts -/

/-- The registers of ports are of nodes with a value, and were allocated before. A node that is
materialised has one for each port. -/
structure Placed (g : Graph) (c : Context) : Prop where
  lt : ∀ n k v, c.ports (n, k) = some v → v < c.next
  typed : ∀ n k v, c.ports (n, k) = some v →
    ∃ node vt, g.nodes[n]? = some node ∧ portType node k = some vt
  full : ∀ n ∈ c.materialised, ∀ node, g.nodes[n]? = some node →
    ∀ k vt, portType node k = some vt → ∃ v, c.ports (n, k) = some v

/-- A context grows : code is appended, and what has been materialised stays as it is. -/
structure Grows (c c' : Context) : Prop where
  builder : ∃ code, c'.builder = c.builder ++ code ∧ ∀ i ∈ code, Emitted i
  pc : c'.thisPc = c.thisPc
  next_le : c.next ≤ c'.next
  ports : ∀ p, c'.ports p = c.ports p ∨ ∃ v, c'.ports p = some v ∧ c.next ≤ v
  keep : ∀ n ∈ c.materialised, ∀ k, c'.ports (n, k) = c.ports (n, k)
  sub : c.materialised ⊆ c'.materialised

namespace Grows

variable {c c₁ c₂ : Context}

theorem refl (c : Context) : Grows c c where
  builder := ⟨[], (List.append_nil _).symm, nofun⟩
  pc := rfl
  next_le := le_rfl
  ports := fun _ => .inl rfl
  keep := fun _ _ _ => rfl
  sub := List.Subset.refl _

theorem trans (h : Grows c c₁) (h' : Grows c₁ c₂) : Grows c c₂ where
  builder := by
    obtain ⟨code, hcode, hemitted⟩ := h.builder
    obtain ⟨code', hcode', hemitted'⟩ := h'.builder
    refine ⟨code ++ code', by rw [hcode', hcode, List.append_assoc], fun i hi => ?_⟩
    exact (List.mem_append.1 hi).elim (hemitted i) (hemitted' i)
  pc := h'.pc.trans h.pc
  next_le := h.next_le.trans h'.next_le
  ports := by
    intro p
    rcases h'.ports p with heq | ⟨v, hv, hle⟩
    · rw [heq]
      exact h.ports p
    · exact .inr ⟨v, hv, h.next_le.trans hle⟩
  keep := fun n hn k => (h'.keep n (h.sub hn) k).trans (h.keep n hn k)
  sub := fun _ hn => h'.sub (h.sub hn)

/-- Append an instruction. -/
theorem emit {i : Instruction} (hi : Emitted i) :
    Grows c { c with builder := c.builder ++ [i] } where
  builder := ⟨[i], rfl, fun _ hj => List.mem_singleton.1 hj ▸ hi⟩
  pc := rfl
  next_le := le_rfl
  ports := fun _ => .inl rfl
  keep := fun _ _ _ => rfl
  sub := List.Subset.refl _

/-- A new register for a port of a node that is not materialised yet. -/
theorem allocVreg {n : NodeId} (hn : n ∉ c.materialised) (k : PortKind) :
    Grows c (c.allocVreg n k).2 where
  builder := ⟨[], (List.append_nil _).symm, nofun⟩
  pc := rfl
  next_le := Nat.le_succ _
  ports := by
    intro p
    show Function.update c.ports (n, k) _ p = _ ∨ ∃ v, Function.update c.ports (n, k) _ p = _ ∧ _
    rcases eq_or_ne p (n, k) with rfl | hne
    · exact .inr ⟨c.next, Function.update_self .., le_rfl⟩
    · exact .inl (Function.update_of_ne hne ..)
  keep := fun m hm j => Function.update_of_ne
    (fun heq : (m, j) = (n, k) => hn ((Prod.mk.inj heq).1 ▸ hm)) ..
  sub := List.Subset.refl _

/-- The node is materialised. -/
theorem done (n : NodeId) : Grows c { c with materialised := n :: c.materialised } where
  builder := ⟨[], (List.append_nil _).symm, nofun⟩
  pc := rfl
  next_le := le_rfl
  ports := fun _ => .inl rfl
  keep := fun _ _ _ => rfl
  sub := List.subset_cons_self ..

end Grows

theorem Placed.allocVreg {g : Graph} {c : Context} (h : Placed g c) {n : NodeId} {k : PortKind}
    {node : Node} {vt : ValueType} (hnode : g.nodes[n]? = some node)
    (hvt : portType node k = some vt) : Placed g (c.allocVreg n k).2 := by
  have hports : ∀ m j v, (c.allocVreg n k).2.ports (m, j) = some v →
      (m, j) = (n, k) ∧ v = c.next ∨ c.ports (m, j) = some v := by
    intro m j v hv
    change Function.update c.ports (n, k) _ (m, j) = some v at hv
    rcases eq_or_ne (m, j) (n, k) with heq | hne
    · rw [heq, Function.update_self] at hv
      exact .inl ⟨heq, (Option.some.inj hv).symm⟩
    · rw [Function.update_of_ne hne] at hv
      exact .inr hv
  refine ⟨fun m j v hv => ?_, fun m j v hv => ?_, fun m hm node' hnode' j vt' hvt' => ?_⟩
  · rcases hports m j v hv with ⟨-, rfl⟩ | hv
    · exact Nat.lt_succ_self c.next
    · exact Nat.lt_succ_of_lt (h.lt m j v hv)
  · rcases hports m j v hv with ⟨heq, -⟩ | hv
    · obtain ⟨rfl, rfl⟩ := Prod.mk.inj heq
      exact ⟨node, vt, hnode, hvt⟩
    · exact h.typed m j v hv
  · show ∃ v, Function.update c.ports (n, k) _ (m, j) = some v
    rcases eq_or_ne (m, j) (n, k) with heq | hne
    · exact ⟨c.next, by rw [heq, Function.update_self]⟩
    · rw [Function.update_of_ne hne]
      exact h.full m hm node' hnode' j vt' hvt'

/-- Run what has been appended. -/
def after (cpu : Cpu) (c c' : Context) (s : State) : State :=
  run cpu (c'.builder.drop c.builder.length) s

section After

variable {cpu : Cpu} {c c₁ c₂ : Context} {s : State}

theorem after_of_builder {code : List Instruction} (h : c₁.builder = c.builder ++ code) :
    after cpu c c₁ s = run cpu code s := by
  unfold after
  rw [h, List.drop_left]

theorem after_of_eq (h : c₁.builder = c.builder) : after cpu c c₁ s = s := by
  unfold after
  rw [h, List.drop_length]
  rfl

theorem after_trans (h : Grows c c₁) (h' : Grows c₁ c₂) :
    after cpu c c₂ s = after cpu c₁ c₂ (after cpu c c₁ s) := by
  obtain ⟨code, hcode, hemitted⟩ := h.builder
  obtain ⟨code', hcode', -⟩ := h'.builder
  have happend : c₂.builder = c.builder ++ (code ++ code') := by
    rw [hcode', hcode, List.append_assoc]
  rw [after_of_builder hcode, after_of_builder hcode', after_of_builder happend,
    run_append_of_emitted hemitted]

theorem after_emit {i : Instruction} (hi : Emitted i) (h : c₁.builder = c.builder ++ [i]) :
    after cpu c c₁ s = exec cpu i s := by
  rw [after_of_builder h, run_singleton hi]

theorem after_concat {i : Instruction} (h : Grows c c₁) (hi : Emitted i) :
    after cpu c { c₁ with builder := c₁.builder ++ [i] } s = exec cpu i (after cpu c c₁ s) := by
  rw [after_trans h (.emit hi), after_emit hi rfl]

end After

/-! ## Nodes that have been computed -/

/-- The values of the ports that a node reads. -/
def args (nodes : List Node) (c : Context) (s : State) (o : Port) : ℕ :=
  portValue nodes c s o.owner o.kind

section Evaluation

variable (g : Graph) (cpu : Cpu) (fold : ℕ → Port → Option ℕ)

/-- Between two contexts a node has been computed, in the memory that was there at the first one. -/
structure Computed (c c' : Context) (m : NodeId) : Prop where
  node : ∃ node, g.nodes[m]? = some node ∧ hasValue node ∧ Encodable g.nodes node ∧
    ∀ o ∈ node.operands, o.owner ∈ c'.materialised
  value : ∀ node, g.nodes[m]? = some node → ∀ k vt, portType node k = some vt → ∀ s,
    portValue g.nodes c' (after cpu c c' s) m k =
      nodeValue cpu c.thisPc (s.regs (.preg .BP)).toNat s.mem
        (args g.nodes c' (after cpu c c' s)) node k

/-- Between two contexts nodes with values have been computed, and of the virtual registers those
below `lo` are kept. -/
structure Evaluates (lo : ℕ) (c c' : Context) : Prop where
  mem : ∀ s, (after cpu c c' s).mem = s.mem
  regs : ∀ s r, (∀ v, r = .vreg v → v < lo) → (after cpu c c' s).regs r = s.regs r
  new : ∀ m ∈ c'.materialised, m ∉ c.materialised → Computed g cpu c c' m

/-- Nodes that node `n` reads are materialised, those of `ds` and what is for them. -/
structure Stage (lo n : ℕ) (ds : List NodeId) (c c' : Context) : Prop where
  grows : Grows c c'
  placed : Placed g c'
  new : ∀ m ∈ c'.materialised, m ∉ c.materialised →
    m < n ∧ ∃ d ∈ ds, Reaches fold g.nodes d m
  above : ∀ m k, n ≤ m → c'.ports (m, k) = c.ports (m, k)
  evaluates : Evaluates g cpu lo c c'

/-- Node `n` is materialised. -/
structure Resolves (n : NodeId) (c c' : Context) : Prop where
  grows : Grows c c'
  placed : Placed g c'
  self : n ∈ c'.materialised
  new : ∀ m ∈ c'.materialised, m ∉ c.materialised → m ≤ n ∧ Reaches fold g.nodes n m
  above : ∀ m k, n < m → c'.ports (m, k) = c.ports (m, k)
  evaluates : ∀ node, g.nodes[n]? = some node → hasValue node → Evaluates g cpu c.next c c'

/-- A way to materialise a node. -/
def Resolver (mat : NodeId → Context → Except String Context) (n : NodeId) : Prop :=
  ∀ c c', Placed g c → mat n c = .ok c' → Resolves g cpu fold n c c'

/-- The registers of node `n` have been allocated. -/
structure Opened (n : NodeId) (c c₀ : Context) : Prop where
  grows : Grows c c₀
  placed : Placed g c₀
  builder : c₀.builder = c.builder
  materialised : c₀.materialised = c.materialised
  others : ∀ m k, m ≠ n → c₀.ports (m, k) = c.ports (m, k)

end Evaluation

section Steps

variable {g : Graph} {cpu : Cpu} {fold : ℕ → Port → Option ℕ} {c c₀ c₁ c₂ : Context} {lo n : ℕ}
  {ds : List NodeId}

/-- What a node that is materialised has computed is kept. -/
theorem Evaluates.portValue_eq (h : Evaluates g cpu c.next c c₁) (hplaced : Placed g c)
    (hgrows : Grows c c₁) {m : NodeId} (hm : m ∈ c.materialised) (k : PortKind) (s : State) :
    portValue g.nodes c₁ (after cpu c c₁ s) m k = portValue g.nodes c s m k := by
  refine portValue_congr (hgrows.keep m hm k) fun v hv => h.regs s _ fun u hu => ?_
  obtain rfl := Reg.vreg.inj hu
  exact hplaced.lt m k v hv

theorem Evaluates.refl : Evaluates g cpu lo c c where
  mem := fun s => by rw [after_of_eq rfl]
  regs := fun s r _ => by rw [after_of_eq rfl]
  new := fun _ hm hm' => absurd hm hm'

/-- More code, that keeps what has been computed. -/
theorem Evaluates.step (h : Evaluates g cpu lo c c₁) (hgrows : Grows c c₁) (hgrows' : Grows c₁ c₂)
    (hmem : ∀ s, (after cpu c₁ c₂ s).mem = s.mem)
    (hregs : ∀ s r, (∀ v, r = .vreg v → v < lo) → (after cpu c₁ c₂ s).regs r = s.regs r)
    (hkeep : ∀ m ∈ c₁.materialised, ∀ k s,
      portValue g.nodes c₂ (after cpu c₁ c₂ s) m k = portValue g.nodes c₁ s m k)
    (hnew : ∀ m ∈ c₂.materialised, m ∉ c₁.materialised → Computed g cpu c₁ c₂ m) :
    Evaluates g cpu lo c c₂ where
  mem := fun s => by rw [after_trans hgrows hgrows', hmem, h.mem]
  regs := fun s r hr => by rw [after_trans hgrows hgrows', hregs _ r hr, h.regs s r hr]
  new := by
    intro m hm hnot
    by_cases hm₁ : m ∈ c₁.materialised
    · have hcomputed := h.new m hm₁ hnot
      obtain ⟨node, hnode, hvalue, hfits, hoperands⟩ := hcomputed.node
      refine ⟨⟨node, hnode, hvalue, hfits, fun o ho => hgrows'.sub (hoperands o ho)⟩, ?_⟩
      intro node' hnode' k vt hvt s
      obtain rfl := Option.some.inj (hnode.symm.trans hnode')
      rw [after_trans hgrows hgrows', hkeep m hm₁, hcomputed.value node hnode k vt hvt s]
      exact nodeValue_congr fun o ho => (hkeep o.owner (hoperands o ho) o.kind _).symm
    · have hcomputed := hnew m hm hm₁
      refine ⟨hcomputed.node, fun node hnode k vt hvt s => ?_⟩
      rw [after_trans hgrows hgrows', hcomputed.value node hnode k vt hvt, h.mem, hgrows.pc,
        h.regs s (.preg .BP) nofun]

theorem Stage.refl (hplaced : Placed g c) : Stage g cpu fold lo n ds c c where
  grows := .refl c
  placed := hplaced
  new := fun _ hm hm' => absurd hm hm'
  above := fun _ _ _ => rfl
  evaluates := .refl

/-- A port that has a register is of a node with a value. -/
theorem Placed.hasValue (h : Placed g c) {p : Port} {v : ℕ}
    (hv : c.ports (p.owner, p.kind) = some v) :
    ∃ node, g.nodes[p.owner]? = some node ∧ X86Host.hasValue node := by
  obtain ⟨node, vt, hnode, hvt⟩ := h.typed _ _ v hv
  exact ⟨node, hnode, hasValue_of_portType hvt⟩

theorem ports_of_vregForPort {p : Port} {v : ℕ} (h : c.vregForPort p = .ok v) :
    c.ports (p.owner, p.kind) = some v := by
  unfold Context.vregForPort at h
  split at h
  · next u hu =>
    obtain rfl := Except.ok.inj h
    exact hu
  · exact nomatch h

/-- One more operand. -/
theorem Stage.operand {mat : NodeId → Context → Except String Context} {p : Port} {v : ℕ}
    (h : Stage g cpu fold lo n ds c c₁) (hlo : lo ≤ c₁.next)
    (hmat : Resolver g cpu fold mat p.owner) (hlt : p.owner < n) (hd : p.owner ∈ ds)
    (hc₂ : mat p.owner c₁ = .ok c₂) (hv : c₂.vregForPort p = .ok v) :
    Stage g cpu fold lo n ds c c₂ ∧ Grows c₁ c₂ ∧ Evaluates g cpu c₁.next c₁ c₂ ∧
      p.owner ∈ c₂.materialised ∧ c₂.ports (p.owner, p.kind) = some v := by
  have hports := ports_of_vregForPort hv
  obtain ⟨hgrows, hplaced, hself, hnew, habove, hvalue⟩ := hmat c₁ c₂ h.placed hc₂
  obtain ⟨node, hnode, hhas⟩ := hplaced.hasValue hports
  have hevaluates := hvalue node hnode hhas
  refine ⟨⟨h.grows.trans hgrows, hplaced, fun m hm hnot => ?_, fun m k hle => ?_, ?_⟩,
    hgrows, hevaluates, hself, hports⟩
  · by_cases hm₁ : m ∈ c₁.materialised
    · exact h.new m hm₁ hnot
    · obtain ⟨hle, hreaches⟩ := hnew m hm hm₁
      exact ⟨hle.trans_lt hlt, p.owner, hd, hreaches⟩
  · rw [habove m k (hlt.trans_le hle), h.above m k hle]
  · refine h.evaluates.step h.grows hgrows hevaluates.mem (fun s r hr => ?_)
      (fun m hm k s => hevaluates.portValue_eq h.placed hgrows hm k s) hevaluates.new
    exact hevaluates.regs s r fun u hu => (hr u hu).trans_le hlo

/-- One more instruction, to a register that is of no node that has been computed. -/
theorem Stage.emit {i : Instruction} {v : ℕ} (h : Stage g cpu fold lo n ds c c₁) (hi : Emitted i)
    (hwrites : WritesReg cpu (.vreg v) i) (hlo : lo ≤ v)
    (hfree : ∀ m ∈ c₁.materialised, ∀ k, c₁.ports (m, k) ≠ some v) :
    Stage g cpu fold lo n ds c { c₁ with builder := c₁.builder ++ [i] } := by
  have hafter : ∀ s, after cpu c₁ { c₁ with builder := c₁.builder ++ [i] } s = exec cpu i s :=
    fun s => after_emit hi rfl
  refine ⟨h.grows.trans (.emit hi), ⟨h.placed.lt, h.placed.typed, h.placed.full⟩, h.new, h.above,
    h.evaluates.step h.grows (.emit hi) (fun s => ?_) (fun s r hr => ?_) (fun m hm k s => ?_)
      fun m hm hnot => absurd hm hnot⟩
  · rw [hafter]
    exact (hwrites s).1
  · rw [hafter]
    refine (hwrites s).2 r ?_
    rintro rfl
    exact absurd (hr v rfl) hlo.not_gt
  · rw [hafter]
    refine portValue_congr rfl fun u hu => (hwrites s).2 _ ?_
    rintro heq
    obtain rfl := Reg.vreg.inj heq
    exact hfree m hm k hu

theorem Opened.refl (hplaced : Placed g c) : Opened g n c c :=
  ⟨.refl c, hplaced, rfl, rfl, fun _ _ _ => rfl⟩

theorem Opened.alloc (h : Opened g n c c₀) (hn : n ∉ c.materialised) {k : PortKind} {node : Node}
    {vt : ValueType} (hnode : g.nodes[n]? = some node) (hvt : portType node k = some vt) :
    Opened g n c (c₀.allocVreg n k).2 where
  grows := h.grows.trans (.allocVreg (h.materialised ▸ hn) k)
  placed := h.placed.allocVreg hnode hvt
  builder := h.builder
  materialised := h.materialised
  others := fun m j hne => by
    rw [← h.others m j hne]
    exact Function.update_of_ne (fun heq : (m, j) = (n, k) => hne (Prod.mk.inj heq).1) ..

/-- The registers of a node are of no node that has been computed for it. -/
theorem Stage.free (h : Stage g cpu fold lo n ds c₀ c₁) (hopened : Opened g n c c₀)
    (hplaced : Placed g c) (hn : n ∉ c.materialised) {v : ℕ} (hlo : c.next ≤ v)
    (hlt : v < c₀.next) {m : NodeId} (hm : m ∈ c₁.materialised) (k : PortKind) :
    c₁.ports (m, k) ≠ some v := by
  intro hv
  have hne : m ≠ n := by
    rintro rfl
    have hnot : m ∉ c₀.materialised := hopened.materialised ▸ hn
    exact absurd (h.new m hm hnot).1 (lt_irrefl m)
  rcases h.grows.ports (m, k) with heq | ⟨u, hu, hle⟩
  · rw [heq, hopened.others m k hne] at hv
    exact absurd (hplaced.lt m k v hv) hlo.not_gt
  · obtain rfl := Option.some.inj (hu.symm.trans hv)
    exact absurd hlt hle.not_gt

/-- The last step for a node with a value. -/
theorem Stage.finish (h : Stage g cpu fold c.next n ds c₀ c₁) (hopened : Opened g n c c₀)
    {node : Node} (hnode : g.nodes[n]? = some node) (hhas : hasValue node)
    (hdeps : ∀ d ∈ ds, d ∈ deps fold g.nodes node)
    (hoperands : ∀ o ∈ node.operands, o.owner ∈ c₁.materialised) (hfits : Encodable g.nodes node)
    (hports : ∀ k vt, portType node k = some vt → ∃ v, c₁.ports (n, k) = some v)
    (hvalue : ∀ k vt, portType node k = some vt → ∀ s,
      portValue g.nodes c₁ (after cpu c₀ c₁ s) n k =
        nodeValue cpu c₀.thisPc (s.regs (.preg .BP)).toNat s.mem
          (args g.nodes c₁ (after cpu c₀ c₁ s)) node k) :
    Resolves g cpu fold n c { c₁ with materialised := n :: c₁.materialised } := by
  have hgrows := hopened.grows.trans h.grows
  have hafter : ∀ s, after cpu c { c₁ with materialised := n :: c₁.materialised } s =
      after cpu c₀ c₁ s := by
    intro s
    unfold after
    rw [hopened.builder]
  refine ⟨hgrows.trans (.done n), ⟨h.placed.lt, h.placed.typed, ?_⟩, List.mem_cons_self, ?_, ?_,
    ?_⟩
  · intro m hm node' hnode'
    rcases List.mem_cons.1 hm with rfl | hm
    · obtain rfl := Option.some.inj (hnode.symm.trans hnode')
      exact hports
    · exact h.placed.full m hm node' hnode'
  · intro m hm hnot
    rcases List.mem_cons.1 hm with rfl | hm
    · exact ⟨le_rfl, .refl⟩
    · obtain ⟨hlt, d, hd, hreaches⟩ := h.new m hm (hopened.materialised ▸ hnot)
      exact ⟨hlt.le, .head ⟨node, hnode, hdeps d hd⟩ hreaches⟩
  · intro m k hlt
    show c₁.ports (m, k) = c.ports (m, k)
    rw [h.above m k hlt.le, hopened.others m k hlt.ne']
  · intro _ _ _
    refine ⟨fun s => ?_, fun s r hr => ?_, fun m hm hnot => ?_⟩
    · rw [hafter, h.evaluates.mem]
    · rw [hafter, h.evaluates.regs s r hr]
    · rcases List.mem_cons.1 hm with rfl | hm
      · refine ⟨⟨node, hnode, hhas, hfits,
          fun o ho => List.mem_cons_of_mem _ (hoperands o ho)⟩, ?_⟩
        intro node' hnode' k vt hvt s
        obtain rfl := Option.some.inj (hnode.symm.trans hnode')
        rw [hafter, ← hopened.grows.pc]
        exact hvalue k vt hvt s
      · obtain ⟨⟨node', hnode', hhas', hfits', hoperands'⟩, hcomputed⟩ :=
          h.evaluates.new m hm (hopened.materialised ▸ hnot)
        refine ⟨⟨node', hnode', hhas', hfits',
          fun o ho => List.mem_cons_of_mem _ (hoperands' o ho)⟩, ?_⟩
        intro node'' hnode'' k vt hvt s
        rw [hafter, ← hopened.grows.pc]
        exact hcomputed node'' hnode'' k vt hvt s

/-- A port that is read has its value in its register. -/
theorem Placed.read_vreg (h : Placed g c) {node : Node} (hnode : g.nodes[n]? = some node) {p : Port}
    (hp : p ∈ node.operands) {v : ℕ} (hv : c.ports (p.owner, p.kind) = some v) (s : State) :
    (s.regs (.vreg v)).toNat % 2 ^ regWidth p.type.elementWidth = args g.nodes c s p := by
  obtain ⟨m, vt, hm, hvt⟩ := h.typed _ _ v hv
  unfold args
  rw [portValue_of_ports hv hm hvt, g.typed n node hnode p hp m vt hm hvt]

theorem vregOperand_eq_ok {mat : NodeId → Context → Except String Context} {p : Port}
    {r : Operand × Context} (h : vregOperand mat p c = .ok r) :
    ∃ v, mat p.owner c = .ok r.2 ∧ r.2.vregForPort p = .ok v ∧
      r.1 = .vreg v p.type.elementWidth := by
  obtain ⟨c', hc', h⟩ := bind_eq_ok.1 h
  obtain ⟨v, hv, h⟩ := bind_eq_ok.1 h
  obtain rfl := pure_eq_ok.1 h
  exact ⟨v, hc', hv, rfl⟩

/-- The registers of a node have their values after its last instruction, which writes the one of
its value. -/
theorem Stage.finish_value (hplaced : Placed g c) (hn : n ∉ c.materialised) {node : Node}
    {vt : ValueType} (hnode : g.nodes[n]? = some node) (hvt : portType node .value = some vt)
    (honly : ∀ k vt', portType node k = some vt' → k = .value)
    (h : Stage g cpu fold c.next n ds (c.allocVreg n .value).2 c₁)
    (hdeps : ∀ d ∈ ds, d ∈ deps fold g.nodes node)
    (hoperands : ∀ o ∈ node.operands, o.owner ∈ c₁.materialised) (hfits : Encodable g.nodes node)
    {i : Instruction} (hi : Emitted i) (hwrites : WritesReg cpu (.vreg c.next) i)
    (hvalue : ∀ s, ((exec cpu i s).regs (.vreg c.next)).toNat % 2 ^ regWidth vt.elementWidth =
      nodeValue cpu c.thisPc (s.regs (.preg .BP)).toNat s.mem (args g.nodes c₁ s) node .value) :
    Resolves g cpu fold n c
      { c₁ with builder := c₁.builder ++ [i], materialised := n :: c₁.materialised } := by
  have hopened : Opened g n c (c.allocVreg n .value).2 :=
    (Opened.refl hplaced).alloc hn hnode hvt
  have hfree : ∀ m ∈ c₁.materialised, ∀ k, c₁.ports (m, k) ≠ some c.next :=
    fun m hm k => h.free hopened hplaced hn le_rfl (Nat.lt_succ_self c.next) hm k
  have hstage := h.emit hi hwrites le_rfl hfree
  have hports : ({ c₁ with builder := c₁.builder ++ [i] } : Context).ports (n, .value) =
      some c.next := by
    show c₁.ports (n, .value) = some c.next
    rw [h.above n .value le_rfl]
    exact Function.update_self ..
  refine hstage.finish hopened hnode (hasValue_of_portType hvt) hdeps hoperands hfits
    (fun k vt' hvt' => ⟨c.next, honly k vt' hvt' ▸ hports⟩) ?_
  intro k vt' hvt' s
  obtain rfl := honly k vt' hvt'
  obtain rfl := Option.some.inj (hvt.symm.trans hvt')
  rw [after_concat h.grows hi, portValue_of_ports hports hnode hvt,
    hvalue, h.evaluates.mem, h.evaluates.regs s (.preg .BP) nofun]
  refine nodeValue_congr fun o ho => (portValue_congr rfl fun u hu => ?_).symm
  refine (hwrites _).2 _ fun heq => ?_
  obtain rfl := Reg.vreg.inj heq
  exact hfree o.owner (hoperands o ho) o.kind hu

variable {mat : NodeId → Context → Except String Context}

/-- A move to the register of a value. -/
theorem exec_mov_vreg {v w : ℕ} {src : Operand} {i : Instruction}
    (h : Instruction.mov (.vreg v w) src = .ok i) :
    Emitted i ∧ WritesReg cpu (.vreg v) i ∧
      (regWidth w = src.width ∧ regWidth w ∈ moveWidths) ∧
        ∀ s, ((exec cpu i s).regs (.vreg v)).toNat % 2 ^ regWidth w =
          src.kind.read cpu (regWidth w) s % 2 ^ regWidth w := by
  have hexec := fun s => @exec_mov cpu _ _ _ h s
  obtain ⟨hemitted, hwidths, -⟩ := hexec ⟨fun _ => 0, fun _ => 0, ⟨false, false, false, false⟩⟩
  refine ⟨hemitted, writesReg_of_exec fun s => ⟨_, _, s.flags, (hexec s).2.2⟩, hwidths,
    fun s => ?_⟩
  rw [(hexec s).2.2]
  exact toNat_write hwidths.2 _ _

/-- A node with one move, of something that is there. -/
theorem resolves_leaf {node : Node} {vt : ValueType} {w : ℕ} {src : Operand}
    (hplaced : Placed g c) (hn : n ∉ c.materialised) (hnode : g.nodes[n]? = some node)
    (hvt : portType node .value = some vt)
    (honly : ∀ k vt', portType node k = some vt' → k = .value) (hleaf : node.operands = [])
    (hw : regWidth w = regWidth vt.elementWidth)
    (hfits : regWidth vt.elementWidth ∈ moveWidths → Encodable g.nodes node)
    (hvalue : ∀ s, src.kind.read cpu (regWidth w) s % 2 ^ regWidth w =
      nodeValue cpu c.thisPc (s.regs (.preg .BP)).toNat s.mem (args g.nodes c s) node .value)
    (h : (c.allocVreg n .value).2.append (Instruction.mov (.vreg c.next w) src) = .ok c') :
    Resolves g cpu fold n c { c' with materialised := n :: c'.materialised } := by
  obtain ⟨i, hi, rfl⟩ := append_eq_ok.1 h
  obtain ⟨hemitted, hwrites, hwidths, hexec⟩ := @exec_mov_vreg cpu _ _ _ _ hi
  have hstage : Stage g cpu fold c.next n [] (c.allocVreg n .value).2 (c.allocVreg n .value).2 :=
    .refl ((Opened.refl hplaced).alloc hn hnode hvt).placed
  refine hstage.finish_value hplaced hn hnode hvt honly nofun (hleaf ▸ nofun)
    (hfits (hw ▸ hwidths.2)) hemitted hwrites fun s => ?_
  rw [← hw, hexec, hvalue]
  exact nodeValue_congr (hleaf ▸ nofun)

theorem resolves_readReg {vt : ValueType} {off idx : ℕ} {name : String} (hplaced : Placed g c)
    (hn : n ∉ c.materialised) (hnode : g.nodes[n]? = some (.readReg vt off idx name))
    (h : materialiseReadReg n vt off c = .ok c') :
    Resolves g cpu fold n c { c' with materialised := n :: c'.materialised } := by
  have hw : regWidth (if vt.elementWidth = 1 then 8 else vt.elementWidth) =
      regWidth vt.elementWidth := regWidth_regWidth vt.elementWidth
  refine resolves_leaf hplaced hn hnode rfl (fun k _ hk => by cases k <;> first | rfl | cases hk)
    rfl hw id (fun s => ?_) h
  rw [hw]
  rfl

theorem resolves_constant {vt : ValueType} {val : ℕ} (hplaced : Placed g c)
    (hn : n ∉ c.materialised) (hnode : g.nodes[n]? = some (.constant vt val))
    (h : materialiseConstant n vt val c = .ok c') :
    Resolves g cpu fold n c { c' with materialised := n :: c'.materialised } :=
  resolves_leaf hplaced hn hnode rfl (fun k _ hk => by cases k <;> first | rfl | cases hk) rfl rfl
    id (fun _ => Nat.mod_mod ..) h

theorem resolves_readPc (hplaced : Placed g c) (hn : n ∉ c.materialised)
    (hnode : g.nodes[n]? = some .readPc) (h : materialiseReadPc n c = .ok c') :
    Resolves g cpu fold n c { c' with materialised := n :: c'.materialised } :=
  resolves_leaf hplaced hn hnode rfl (fun k _ hk => by cases k <;> first | rfl | cases hk) rfl rfl
    (fun _ => trivial) (fun _ => Nat.mod_mod ..) h

theorem resolves_cast (hmat : ∀ m, Resolver g cpu fold mat m) {op : CastOp} {vt : ValueType}
    {source : Port} {convert : FpConvertType} (hplaced : Placed g c) (hn : n ∉ c.materialised)
    (hnode : g.nodes[n]? = some (.cast op vt source convert))
    (h : materialiseCast mat n op vt source c = .ok c') :
    Resolves g cpu fold n c { c' with materialised := n :: c'.materialised } := by
  obtain ⟨f, hf, h⟩ := bind_eq_ok.1 h
  obtain ⟨r, hr, h⟩ := bind_eq_ok.1 h
  obtain ⟨i, hi, rfl⟩ := append_eq_ok.1 h
  obtain ⟨v, hc₁, hv, hoperand⟩ := vregOperand_eq_ok hr
  have hstage : Stage g cpu fold c.next n [source.owner] (c.allocVreg n .value).2
      (c.allocVreg n .value).2 := .refl ((Opened.refl hplaced).alloc hn hnode rfl).placed
  obtain ⟨hstage₁, -, -, hmem, hports⟩ := hstage.operand (Nat.le_succ _) (hmat source.owner)
    (g.operand_lt n _ hnode source List.mem_cons_self) List.mem_cons_self hc₁ hv
  rw [hoperand] at hi
  obtain ⟨hemitted, hwrites, hexec⟩ := @exec_castOp cpu _ _ _ _ _ _ hf hi
  refine hstage₁.finish_value hplaced hn hnode rfl
    (fun k _ hk => by cases k <;> first | rfl | cases hk) (fun d hd => hd)
    (List.forall_mem_singleton.2 hmem)
    ⟨hstage₁.placed.typed _ _ _ hports, f, (castOp_vreg hf hi 0 0).imp fun _ hj => ⟨hf, hj⟩⟩
    hemitted hwrites fun s => ?_
  rw [hexec]
  exact congrArg (castValue op _ · % _)
    (hstage₁.placed.read_vreg hnode List.mem_cons_self hports s)

theorem resolves_readMem (hmat : ∀ m, Resolver g cpu fold mat m) {vt : ValueType} {address : Port}
    (hplaced : Placed g c) (hn : n ∉ c.materialised)
    (hnode : g.nodes[n]? = some (.readMem vt address))
    (h : materialiseReadMem mat n vt address c = .ok c') :
    Resolves g cpu fold n c { c' with materialised := n :: c'.materialised } := by
  obtain ⟨c₁, hc₁, h⟩ := bind_eq_ok.1 h
  obtain ⟨v, hv, h⟩ := bind_eq_ok.1 h
  obtain ⟨i, hi, rfl⟩ := append_eq_ok.1 h
  have hstage : Stage g cpu fold c.next n [address.owner] (c.allocVreg n .value).2
      (c.allocVreg n .value).2 := .refl ((Opened.refl hplaced).alloc hn hnode rfl).placed
  obtain ⟨hstage₁, -, -, hmem, hports⟩ := hstage.operand (Nat.le_succ _) (hmat address.owner)
    (g.operand_lt n _ hnode address List.mem_cons_self) List.mem_cons_self hc₁ hv
  obtain ⟨hemitted, hwrites, ⟨hwidth, hwidths⟩, hexec⟩ := @exec_mov_vreg cpu _ _ _ _ hi
  have hw : regWidth vt.elementWidth = vt.elementWidth := hwidth
  refine hstage₁.finish_value hplaced hn hnode rfl
    (fun k _ hk => by cases k <;> first | rfl | cases hk) (fun d hd => hd)
    (List.forall_mem_singleton.2 hmem) ⟨hstage₁.placed.typed _ _ _ hports, hw ▸ hwidths⟩
    hemitted hwrites fun s => ?_
  have hbase : args g.nodes c₁ s address = (s.regs (.vreg v)).toNat := by
    rw [← hstage₁.placed.read_vreg hnode List.mem_cons_self hports s,
      g.address n address (.inl ⟨vt, hnode⟩)]
    exact Nat.mod_eq_of_lt (s.regs (.vreg v)).isLt
  rw [hexec, nodeValue, hbase, hw]
  rfl

/-! ## Arithmetic -/

/-- An instruction keeps what has been computed, if its register is of no node that has been. -/
theorem portValue_emit {i : Instruction} {v : ℕ} (hwrites : WritesReg cpu (.vreg v) i)
    (hfree : ∀ m ∈ c.materialised, ∀ k, c.ports (m, k) ≠ some v) {m : NodeId}
    (hm : m ∈ c.materialised) (k : PortKind) (s : State) :
    portValue g.nodes { c with builder := c.builder ++ [i] } (exec cpu i s) m k =
      portValue g.nodes c s m k := by
  refine portValue_congr rfl fun u hu => (hwrites s).2 _ fun heq => ?_
  obtain rfl := Reg.vreg.inj heq
  exact hfree m hm k hu

/-- The instruction for a flag. -/
theorem exec_setcc_vreg {k : Cond} {v : ℕ} {i : Instruction}
    (h : Instruction.setcc k (.vreg v 8) = .ok i) :
    Emitted i ∧ WritesReg cpu (.vreg v) i ∧ ∀ s, (exec cpu i s).flags = s.flags ∧
      ((exec cpu i s).regs (.vreg v)).toNat % 2 ^ 8 = if s.flags.get k then 1 else 0 := by
  have hexec := fun s => @exec_setcc cpu _ _ _ h s
  refine ⟨(hexec ⟨fun _ => 0, fun _ => 0, ⟨false, false, false, false⟩⟩).1,
    writesReg_of_exec fun s => ⟨_, _, s.flags, (hexec s).2⟩, fun s => ?_⟩
  rw [(hexec s).2]
  refine ⟨rfl, (toNat_write (by decide) _ _).trans ?_⟩
  cases s.flags.get k <;> rfl

/-- The context with registers for the ports of a `binary_arith`. -/
def openArith (n : NodeId) (c : Context) : Context :=
  (((((c.allocVreg n .value).2.allocVreg n .zero).2.allocVreg n .negative).2.allocVreg
    n .overflow).2.allocVreg n .carry).2

theorem opened_openArith {op : BinaryArithOp} {l r : Port} (hplaced : Placed g c)
    (hn : n ∉ c.materialised) (hnode : g.nodes[n]? = some (.binaryArith op l r)) :
    Opened g n c (openArith n c) :=
  (((((Opened.refl hplaced).alloc hn hnode rfl).alloc hn hnode rfl).alloc hn hnode rfl).alloc
    hn hnode rfl).alloc hn hnode rfl

/-- The register of a port of a `binary_arith`, from the first one on. -/
def arithReg : PortKind → ℕ
  | .zero => 1
  | .negative => 2
  | .overflow => 3
  | .carry => 4
  | _ => 0

theorem ports_openArith {op : BinaryArithOp} {l r : Port} {k : PortKind} {vt : ValueType}
    (hvt : portType (.binaryArith op l r) k = some vt) :
    (openArith n c).ports (n, k) = some (c.next + arithReg k) := by
  unfold openArith Context.allocVreg
  cases k <;> first | (simp [arithReg]; done) | exact nomatch hvt

/-- The registers of the flags, and that of the value, after the four `setcc`. -/
theorem exec_setccs {v : ℕ} {i₃ i₄ i₅ i₆ : Instruction}
    (h₃ : Instruction.setcc .Z (.vreg (v + 1) 8) = .ok i₃)
    (h₄ : Instruction.setcc .O (.vreg (v + 3) 8) = .ok i₄)
    (h₅ : Instruction.setcc .C (.vreg (v + 4) 8) = .ok i₅)
    (h₆ : Instruction.setcc .S (.vreg (v + 2) 8) = .ok i₆) (s : State) :
    (exec cpu i₆ (exec cpu i₅ (exec cpu i₄ (exec cpu i₃ s)))).regs (.vreg v) = s.regs (.vreg v) ∧
      ∀ k, arithReg k ≠ 0 →
        ((exec cpu i₆ (exec cpu i₅ (exec cpu i₄ (exec cpu i₃ s)))).regs
          (.vreg (v + arithReg k))).toNat % 2 ^ 8 = if flagValue s.flags k then 1 else 0 := by
  obtain ⟨-, hw₃, he₃⟩ := @exec_setcc_vreg cpu _ _ _ h₃
  obtain ⟨-, hw₄, he₄⟩ := @exec_setcc_vreg cpu _ _ _ h₄
  obtain ⟨-, hw₅, he₅⟩ := @exec_setcc_vreg cpu _ _ _ h₅
  obtain ⟨-, hw₆, he₆⟩ := @exec_setcc_vreg cpu _ _ _ h₆
  have hne : ∀ {a b : ℕ}, a ≠ b → Reg.vreg a ≠ Reg.vreg b := fun h heq => h (Reg.vreg.inj heq)
  constructor
  · rw [(hw₆ _).2 _ (hne (by omega)), (hw₅ _).2 _ (hne (by omega)), (hw₄ _).2 _ (hne (by omega)),
      (hw₃ _).2 _ (hne (by omega))]
  · intro k hk
    cases k with
    | zero =>
      rw [arithReg, (hw₆ _).2 _ (hne (by omega)), (hw₅ _).2 _ (hne (by omega)),
        (hw₄ _).2 _ (hne (by omega))]
      exact (he₃ s).2
    | negative =>
      refine ((he₆ _).2).trans ?_
      rw [(he₅ _).1, (he₄ _).1, (he₃ _).1]
      rfl
    | overflow =>
      rw [arithReg, (hw₆ _).2 _ (hne (by omega)), (hw₅ _).2 _ (hne (by omega))]
      refine ((he₄ _).2).trans ?_
      rw [(he₃ _).1]
      rfl
    | carry =>
      rw [arithReg, (hw₆ _).2 _ (hne (by omega))]
      refine ((he₅ _).2).trans ?_
      rw [(he₄ _).1, (he₃ _).1]
      rfl
    | value | constant | operationValue => exact absurd rfl hk

theorem resolves_binaryArith (hmat : ∀ m, Resolver g cpu fold mat m) {op : BinaryArithOp}
    {l r : Port} (hplaced : Placed g c) (hn : n ∉ c.materialised)
    (hnode : g.nodes[n]? = some (.binaryArith op l r))
    (h : materialiseBinaryArith mat n op l r c = .ok c') :
    Resolves g cpu fold n c { c' with materialised := n :: c'.materialised } := by
  have hopened := opened_openArith hplaced hn hnode
  obtain ⟨rl, hrl, h⟩ := bind_eq_ok.1 h
  obtain ⟨c₂, hc₂, h⟩ := bind_eq_ok.1 h
  obtain ⟨f, hf, h⟩ := bind_eq_ok.1 h
  obtain ⟨rr, hrr, h⟩ := bind_eq_ok.1 h
  obtain ⟨c₄, hc₄, h⟩ := bind_eq_ok.1 h
  obtain ⟨c₅, hc₅, h⟩ := bind_eq_ok.1 h
  obtain ⟨c₆, hc₆, h⟩ := bind_eq_ok.1 h
  obtain ⟨c₇, hc₇, h⟩ := bind_eq_ok.1 h
  obtain ⟨vl, hc₁, hvl, hl⟩ := vregOperand_eq_ok hrl
  obtain ⟨vr, hc₃, hvr, hr⟩ := vregOperand_eq_ok hrr
  obtain ⟨i₁, hi₁, rfl⟩ := append_eq_ok.1 hc₂
  obtain ⟨i₂, hi₂, rfl⟩ := append_eq_ok.1 hc₄
  obtain ⟨i₃, hi₃, rfl⟩ := append_eq_ok.1 hc₅
  obtain ⟨i₄, hi₄, rfl⟩ := append_eq_ok.1 hc₆
  obtain ⟨i₅, hi₅, rfl⟩ := append_eq_ok.1 hc₇
  obtain ⟨i₆, hi₆, rfl⟩ := append_eq_ok.1 h
  change Instruction.setcc .Z (.vreg (c.next + 1) 8) = .ok i₃ at hi₃
  change Instruction.setcc .O (.vreg (c.next + 3) 8) = .ok i₄ at hi₄
  change Instruction.setcc .C (.vreg (c.next + 4) 8) = .ok i₅ at hi₅
  change Instruction.setcc .S (.vreg (c.next + 2) 8) = .ok i₆ at hi₆
  have hlt : ∀ o ∈ (Node.binaryArith op l r).operands, o.owner < n :=
    g.operand_lt n _ hnode
  have hlmem : l ∈ (Node.binaryArith op l r).operands := List.mem_cons_self
  have hrmem : r ∈ (Node.binaryArith op l r).operands :=
    List.mem_cons_of_mem l List.mem_cons_self
  have hfree : ∀ {c₁ : Context}, Stage g cpu fold c.next n [l.owner, r.owner] (openArith n c) c₁ →
      ∀ j < 5, ∀ m ∈ c₁.materialised, ∀ k, c₁.ports (m, k) ≠ some (c.next + j) :=
    fun h j hj m hm k => h.free hopened hplaced hn (Nat.le_add_right ..)
      (Nat.add_lt_add_left hj c.next) hm k
  -- the left operand, and its copy to the register of the value
  obtain ⟨hstage₁, -, -, hlin, hlports⟩ :=
    (Stage.refl hopened.placed : Stage g cpu fold c.next n [l.owner, r.owner] _ _).operand
      (Nat.le_add_right c.next 5) (hmat l.owner) (hlt l hlmem) List.mem_cons_self hc₁ hvl
  rw [hl] at hi₁
  obtain ⟨he₁, hw₁, -, hx₁⟩ := @exec_mov_vreg cpu _ _ _ _ hi₁
  have hstage₂ := hstage₁.emit he₁ hw₁ le_rfl (hfree hstage₁ 0 (by decide))
  -- the right operand, and the operation
  have hnext : c.next + 5 ≤ rl.2.next := hstage₁.grows.next_le
  obtain ⟨hstage₃, hgrows₃, heval₃, hrin, hrports⟩ := hstage₂.operand
    (show c.next ≤ rl.2.next by omega) (hmat r.owner) (hlt r hrmem)
    (List.mem_cons_of_mem _ List.mem_cons_self) hc₃ hvr
  rw [hr] at hi₂
  have hx₂ := fun s => @exec_arithOp cpu _ _ _ _ _ hf hi₂ s
  obtain ⟨he₂, hwidths, -⟩ := hx₂ ⟨fun _ => 0, fun _ => 0, ⟨false, false, false, false⟩⟩
  have hw₂ : WritesReg cpu (.vreg (c.next + 0)) i₂ :=
    writesReg_of_exec fun s => ⟨_, _, _, (hx₂ s).2.2⟩
  have hstage₄ := hstage₃.emit he₂ hw₂ le_rfl (hfree hstage₃ 0 (by decide))
  -- the flags
  obtain ⟨he₃, hw₃, -⟩ := @exec_setcc_vreg cpu _ _ _ hi₃
  have hstage₅ := hstage₄.emit he₃ hw₃ (Nat.le_add_right ..) (hfree hstage₄ 1 (by decide))
  obtain ⟨he₄, hw₄, -⟩ := @exec_setcc_vreg cpu _ _ _ hi₄
  have hstage₆ := hstage₅.emit he₄ hw₄ (Nat.le_add_right ..) (hfree hstage₅ 3 (by decide))
  obtain ⟨he₅, hw₅, -⟩ := @exec_setcc_vreg cpu _ _ _ hi₅
  have hstage₇ := hstage₆.emit he₅ hw₅ (Nat.le_add_right ..) (hfree hstage₆ 4 (by decide))
  obtain ⟨he₆, hw₆, -⟩ := @exec_setcc_vreg cpu _ _ _ hi₆
  have hstage₈ := hstage₇.emit he₆ hw₆ (Nat.le_add_right ..) (hfree hstage₇ 2 (by decide))
  refine hstage₈.finish hopened hnode rfl (fun d hd => hd)
    (List.forall_mem_cons.2 ⟨hgrows₃.sub hlin, List.forall_mem_singleton.2 hrin⟩)
    ⟨hstage₁.placed.typed _ _ _ hlports, hstage₃.placed.typed _ _ _ hrports, hwidths.1, hwidths.2,
      f, (arithOp_vreg hf hi₂ 0 0).imp fun _ hj => ⟨hf, hj⟩⟩
    (fun k vt hvt => ⟨_, (hstage₈.above n k le_rfl).trans (ports_openArith hvt)⟩) ?_
  intro k vt hvt s
  have hstate : after cpu (openArith n c) { rr.2 with
      builder := rr.2.builder ++ [i₂] ++ [i₃] ++ [i₄] ++ [i₅] ++ [i₆] } s =
      exec cpu i₆ (exec cpu i₅ (exec cpu i₄ (exec cpu i₃ (exec cpu i₂ (after cpu
        { rl.2 with builder := rl.2.builder ++ [i₁] } rr.2
          (exec cpu i₁ (after cpu (openArith n c) rl.2 s))))))) := by
    rw [after_concat hstage₇.grows he₆, after_concat hstage₆.grows he₅,
      after_concat hstage₅.grows he₄, after_concat hstage₄.grows he₃,
      after_concat hstage₃.grows he₂, after_trans hstage₂.grows hgrows₃,
      after_concat hstage₁.grows he₁]
  rw [hstate]
  set s₁ := after cpu (openArith n c) rl.2 s with hs₁
  set s₃ := after cpu { rl.2 with builder := rl.2.builder ++ [i₁] } rr.2 (exec cpu i₁ s₁) with hs₃
  -- what the operands are at the end
  have hargs : ∀ o ∈ (Node.binaryArith op l r).operands, args g.nodes { rr.2 with
      builder := rr.2.builder ++ [i₂] ++ [i₃] ++ [i₄] ++ [i₅] ++ [i₆] }
        (exec cpu i₆ (exec cpu i₅ (exec cpu i₄ (exec cpu i₃ (exec cpu i₂ s₃))))) o =
          args g.nodes rr.2 s₃ o := by
    intro o ho
    have hin : o.owner ∈ rr.2.materialised := by
      rcases List.mem_cons.1 ho with rfl | ho
      · exact hgrows₃.sub hlin
      · obtain rfl := List.mem_singleton.1 ho
        exact hrin
    exact (portValue_emit hw₆ (hfree hstage₇ 2 (by decide)) hin _ _).trans <|
      (portValue_emit hw₅ (hfree hstage₆ 4 (by decide)) hin _ _).trans <|
      (portValue_emit hw₄ (hfree hstage₅ 3 (by decide)) hin _ _).trans <|
      (portValue_emit hw₃ (hfree hstage₄ 1 (by decide)) hin _ _).trans <|
      portValue_emit hw₂ (hfree hstage₃ 0 (by decide)) hin _ _
  have hargl : args g.nodes rr.2 s₃ l = args g.nodes rl.2 s₁ l :=
    (heval₃.portValue_eq hstage₂.placed hgrows₃ hlin _ _).trans
      (portValue_emit hw₁ (hfree hstage₁ 0 (by decide)) hlin _ _)
  -- what the operation reads
  have hreadl : (s₃.regs (.vreg c.next)).toNat % 2 ^ regWidth l.type.elementWidth =
      args g.nodes rr.2 s₃ l := by
    have hkept : s₃.regs (.vreg c.next) = (exec cpu i₁ s₁).regs (.vreg c.next) := by
      refine heval₃.regs _ _ fun u hu => ?_
      obtain rfl := Reg.vreg.inj hu
      show c.next < rl.2.next
      omega
    have hread := hstage₁.placed.read_vreg hnode hlmem hlports s₁
    rw [hargl, hkept, hx₁, ← hread]
    exact Nat.mod_mod ..
  have hreadr : (s₃.regs (.vreg vr)).toNat % 2 ^ regWidth l.type.elementWidth =
      args g.nodes rr.2 s₃ r := by
    have hw : regWidth l.type.elementWidth = regWidth r.type.elementWidth := hwidths.1
    rw [hw]
    exact hstage₃.placed.read_vreg hnode hrmem hrports s₃
  set alu := cpu.alu (mnemonic op) (regWidth l.type.elementWidth) (args g.nodes rr.2 s₃ l)
    (args g.nodes rr.2 s₃ r) with halu
  have hexec : exec cpu i₂ s₃ = (OperandKind.reg (.vreg c.next)).write cpu
      (regWidth l.type.elementWidth) alu.1 { s₃ with flags := alu.2 } := by
    rw [halu, ← hreadl, ← hreadr]
    exact (hx₂ s₃).2.2
  obtain ⟨hvalue, hflags⟩ := @exec_setccs cpu _ _ _ _ _ hi₃ hi₄ hi₅ hi₆ (exec cpu i₂ s₃)
  have hports : ({ rr.2 with
      builder := rr.2.builder ++ [i₂] ++ [i₃] ++ [i₄] ++ [i₅] ++ [i₆] } : Context).ports (n, k) =
        some (c.next + arithReg k) :=
    (hstage₈.above n k le_rfl).trans (ports_openArith hvt)
  rw [portValue_of_ports hports hnode hvt, nodeValue_congr hargs]
  have hset : (exec cpu i₂ s₃).flags = alu.2 := by
    rw [hexec]
    rfl
  rw [hset] at hflags
  cases k with
  | value =>
    obtain rfl := Option.some.inj hvt
    show (State.regs _ (.vreg c.next)).toNat % _ = _
    rw [hvalue, hexec]
    exact toNat_write hwidths.2 _ _
  | zero | negative | overflow | carry =>
    obtain rfl := Option.some.inj hvt
    exact hflags _ (by decide)
  | constant | operationValue => exact nomatch hvt

/-! ## Actions -/

/-- What a `write_reg` writes : a difference with what is there, a constant, or the value of the
port. -/
def writtenValue (cpu : Cpu) (fold : ℕ → Port → Option ℕ) (nodes : List Node) (arg : Port → ℕ)
    (old regoff : ℕ) (value : Port) : ℕ :=
  let w := regWidth value.type.elementWidth
  match fold regoff value, nodes[value.owner]? with
  | some k, _ => (cpu.alu .SUB w old (k % 2 ^ w)).1
  | none, some (.constant _ k) => k % 2 ^ w
  | none, _ => arg value

/-- The address of a guest register. -/
def regAddress (s : State) (regoff : ℕ) : ℕ :=
  ((s.regs (.preg .BP)).toNat + regoff) % 2 ^ 64

/-- What an action does with memory and the registers of the host. -/
def effect (cpu : Cpu) (fold : ℕ → Port → Option ℕ) (nodes : List Node) (arg : Port → ℕ)
    (s : State) : Node → State
  | .writeReg off _ _ v =>
    let bytes := regWidth v.type.elementWidth / 8
    { s with
      mem := Guest.store s.mem (regAddress s off)
        (writtenValue cpu fold nodes arg (Guest.load s.mem (regAddress s off) bytes) off v) bytes }
  | .writeMem a v =>
    { s with
      mem := Guest.store s.mem ((arg a + cpu.gsBase) % 2 ^ 64) (arg v) (v.type.elementWidth / 8) }
  | .writePc v _ _ =>
    { s with
      regs := Function.update s.regs (.preg .R15)
        (merge v.type.elementWidth (s.regs (.preg .R15)) (arg v)) }
  | _ => s

theorem effect_vreg {nodes : List Node} {arg : Port → ℕ} {s : State} {node : Node} (v : ℕ) :
    (effect cpu fold nodes arg s node).regs (.vreg v) = s.regs (.vreg v) := by
  cases node with
  | writePc value brType target =>
    have hne : Reg.vreg v ≠ .preg .R15 := nofun
    simp only [effect, Function.update_of_ne hne]
  | _ => rfl

section WriteReg

variable {nodes : List Node} {arg : Port → ℕ} {old off idx : ℕ} {name : String} {value : Port}

theorem deps_of_fold {k : ℕ} (h : fold off value = some k) :
    deps fold nodes (.writeReg off idx name value) = [] := by
  simp only [deps, h]

theorem writtenValue_of_fold {k : ℕ} (h : fold off value = some k) :
    writtenValue cpu fold nodes arg old off value =
      (cpu.alu .SUB (regWidth value.type.elementWidth) old
        (k % 2 ^ regWidth value.type.elementWidth)).1 := by
  simp only [writtenValue, h]

theorem deps_of_constant (h : fold off value = none) {vt : ValueType} {k : ℕ}
    (hconst : nodes[value.owner]? = some (.constant vt k)) :
    deps fold nodes (.writeReg off idx name value) = [] := by
  simp only [deps, h, hconst]

theorem writtenValue_of_constant (h : fold off value = none) {vt : ValueType} {k : ℕ}
    (hconst : nodes[value.owner]? = some (.constant vt k)) :
    writtenValue cpu fold nodes arg old off value = k % 2 ^ regWidth value.type.elementWidth := by
  simp only [writtenValue, h, hconst]

theorem deps_of_ne_constant (h : fold off value = none)
    (hconst : ∀ vt k, nodes[value.owner]? ≠ some (.constant vt k)) :
    deps fold nodes (.writeReg off idx name value) = [value.owner] := by
  simp only [deps, h]

theorem writtenValue_of_ne_constant (h : fold off value = none)
    (hconst : ∀ vt k, nodes[value.owner]? ≠ some (.constant vt k)) :
    writtenValue cpu fold nodes arg old off value = arg value := by
  simp only [writtenValue, h]

end WriteReg

/-- An action has been lowered : what it reads, and an instruction with its effect. -/
def Acts (g : Graph) (cpu : Cpu) (fold : ℕ → Port → Option ℕ) (n : NodeId) (node : Node)
    (c c' : Context) : Prop :=
  ∃ c₁ i, Stage g cpu fold c.next n (deps fold g.nodes node) c c₁ ∧ Emitted i ∧
    c' = { c₁ with builder := c₁.builder ++ [i], materialised := n :: c₁.materialised } ∧
    (∀ d ∈ deps fold g.nodes node, d ∈ c₁.materialised) ∧
    ((∀ off v, fold off v = none) → Encodable g.nodes node) ∧
    ∀ s, (exec cpu i s).mem = (effect cpu fold g.nodes (args g.nodes c₁ s) s node).mem ∧
      (exec cpu i s).regs = (effect cpu fold g.nodes (args g.nodes c₁ s) s node).regs

theorem Acts.resolves {node : Node} (h : Acts g cpu fold n node c c')
    (hnode : g.nodes[n]? = some node) (hhas : hasValue node = false) :
    Resolves g cpu fold n c c' := by
  obtain ⟨c₁, i, hstage, hemitted, rfl, -⟩ := h
  refine ⟨(hstage.grows.trans (.emit hemitted)).trans (.done n),
    ⟨hstage.placed.lt, hstage.placed.typed, fun m hm node' hnode' k vt hvt => ?_⟩,
    List.mem_cons_self, fun m hm hnot => ?_, fun m k hlt => hstage.above m k hlt.le,
    fun node' hnode' hhas' => ?_⟩
  · rcases List.mem_cons.1 hm with rfl | hm
    · obtain rfl := Option.some.inj (hnode.symm.trans hnode')
      exact absurd (hhas.symm.trans (hasValue_of_portType hvt)) (by decide)
    · exact hstage.placed.full m hm node' hnode' k vt hvt
  · rcases List.mem_cons.1 hm with rfl | hm
    · exact ⟨le_rfl, .refl⟩
    · obtain ⟨hlt, d, hd, hreaches⟩ := hstage.new m hm hnot
      exact ⟨hlt.le, .head ⟨node, hnode, hd⟩ hreaches⟩
  · obtain rfl := Option.some.inj (hnode.symm.trans hnode')
    exact absurd (hhas.symm.trans hhas') (by decide)

theorem acts_writeReg (hmat : ∀ m, Resolver g cpu fold mat m) {off idx : ℕ} {name : String}
    {value : Port} (hplaced : Placed g c)
    (hnode : g.nodes[n]? = some (.writeReg off idx name value))
    (h : materialiseWriteRegBy fold g.nodes mat off value c = .ok c') :
    Acts g cpu fold n (.writeReg off idx name value) c
      { c' with materialised := n :: c'.materialised } := by
  unfold materialiseWriteRegBy at h
  cases hfold : fold off value with
  | some k =>
    rw [hfold] at h
    obtain ⟨i, hi, rfl⟩ := append_eq_ok.1 h
    have hexec := fun s => @exec_std cpu _ _ _ _ (by decide) hi s
    obtain ⟨hemitted, -, -⟩ := hexec ⟨fun _ => 0, fun _ => 0, ⟨false, false, false, false⟩⟩
    rw [Acts, deps_of_fold hfold]
    refine ⟨c, i, .refl hplaced, hemitted, rfl, fun d hd => absurd hd List.not_mem_nil,
      fun h => (nomatch hfold.symm.trans (h off value)), fun s => ?_⟩
    rw [(hexec s).2.2, effect, writtenValue_of_fold hfold]
    exact ⟨rfl, rfl⟩
  | none =>
    rw [hfold] at h
    by_cases hconst : ∃ vt k, g.nodes[value.owner]? = some (.constant vt k)
    · obtain ⟨vt, k, hconst⟩ := hconst
      rw [hconst] at h
      obtain ⟨i, hi, rfl⟩ := append_eq_ok.1 h
      have hexec := fun s => @exec_mov cpu _ _ _ hi s
      obtain ⟨hemitted, hwidths, -⟩ :=
        hexec ⟨fun _ => 0, fun _ => 0, ⟨false, false, false, false⟩⟩
      rw [Acts, deps_of_constant hfold hconst]
      refine ⟨c, i, .refl hplaced, hemitted, rfl, fun d hd => absurd hd List.not_mem_nil,
        fun _ => ⟨hwidths.2, .inl ⟨vt, k, hconst⟩⟩, fun s => ?_⟩
      rw [(hexec s).2.2, effect, writtenValue_of_constant hfold hconst]
      exact ⟨rfl, rfl⟩
    · have hne : ∀ vt k, g.nodes[value.owner]? ≠ some (.constant vt k) :=
        fun vt k heq => hconst ⟨vt, k, heq⟩
      dsimp only at h
      split at h
      · next vt k heq => exact absurd heq (hne vt k)
      obtain ⟨r, hr, h⟩ := bind_eq_ok.1 h
      obtain ⟨i, hi, rfl⟩ := append_eq_ok.1 h
      obtain ⟨v, hc₁, hv, hoperand⟩ := vregOperand_eq_ok hr
      rw [hoperand] at hi
      have hexec := fun s => @exec_mov cpu _ _ _ hi s
      obtain ⟨hemitted, hwidths, -⟩ :=
        hexec ⟨fun _ => 0, fun _ => 0, ⟨false, false, false, false⟩⟩
      obtain ⟨hstage, -, -, hmem, hports⟩ :=
        (Stage.refl hplaced : Stage g cpu fold c.next n [value.owner] c c).operand le_rfl
          (hmat value.owner) (g.operand_lt n _ hnode value List.mem_cons_self) List.mem_cons_self
          hc₁ hv
      rw [Acts, deps_of_ne_constant hfold hne]
      refine ⟨r.2, i, hstage, hemitted, rfl, List.forall_mem_singleton.2 hmem,
        fun _ => ⟨hwidths.2, .inr (hstage.placed.typed _ _ _ hports)⟩, fun s => ?_⟩
      rw [(hexec s).2.2, effect, writtenValue_of_ne_constant hfold hne,
        ← hstage.placed.read_vreg hnode List.mem_cons_self hports s]
      exact ⟨rfl, rfl⟩

theorem acts_writePc (hmat : ∀ m, Resolver g cpu fold mat m) {value : Port} {brType : BrType}
    {target : ℕ} (hplaced : Placed g c)
    (hnode : g.nodes[n]? = some (.writePc value brType target))
    (h : materialiseWritePc mat value c = .ok c') :
    Acts g cpu fold n (.writePc value brType target) c
      { c' with materialised := n :: c'.materialised } := by
  obtain ⟨r, hr, h⟩ := bind_eq_ok.1 h
  obtain ⟨i, hi, rfl⟩ := append_eq_ok.1 h
  obtain ⟨v, hc₁, hv, hoperand⟩ := vregOperand_eq_ok hr
  rw [hoperand] at hi
  have hexec := fun s => @exec_mov cpu _ _ _ hi s
  obtain ⟨hemitted, hwidths, -⟩ := hexec ⟨fun _ => 0, fun _ => 0, ⟨false, false, false, false⟩⟩
  obtain ⟨hstage, -, -, hmem, hports⟩ :=
    (Stage.refl hplaced : Stage g cpu fold c.next n [value.owner] c c).operand le_rfl
      (hmat value.owner) (g.operand_lt n _ hnode value List.mem_cons_self) List.mem_cons_self
      hc₁ hv
  have hw : regWidth value.type.elementWidth = value.type.elementWidth := hwidths.1.symm
  refine ⟨r.2, i, hstage, hemitted, rfl, List.forall_mem_singleton.2 hmem,
    fun _ => ⟨hstage.placed.typed _ _ _ hports, hw, hwidths.2⟩, fun s => ?_⟩
  rw [(hexec s).2.2, effect, ← hstage.placed.read_vreg hnode List.mem_cons_self hports s, hw]
  exact ⟨rfl, rfl⟩

theorem acts_writeMem (hmat : ∀ m, Resolver g cpu fold mat m) {address value : Port}
    (hplaced : Placed g c) (hnode : g.nodes[n]? = some (.writeMem address value))
    (h : materialiseWriteMem mat address value c = .ok c') :
    Acts g cpu fold n (.writeMem address value) c
      { c' with materialised := n :: c'.materialised } := by
  obtain ⟨c₁, hc₁, h⟩ := bind_eq_ok.1 h
  obtain ⟨a, ha, h⟩ := bind_eq_ok.1 h
  obtain ⟨r, hr, h⟩ := bind_eq_ok.1 h
  obtain ⟨i, hi, rfl⟩ := append_eq_ok.1 h
  obtain ⟨v, hc₂, hv, hoperand⟩ := vregOperand_eq_ok hr
  rw [hoperand] at hi
  have hexec := fun s => @exec_mov cpu _ _ _ hi s
  obtain ⟨hemitted, hwidths, -⟩ := hexec ⟨fun _ => 0, fun _ => 0, ⟨false, false, false, false⟩⟩
  have haddress : address ∈ (Node.writeMem address value).operands := List.mem_cons_self
  have hvalue : value ∈ (Node.writeMem address value).operands :=
    List.mem_cons_of_mem address List.mem_cons_self
  obtain ⟨hstage₁, -, -, hmem₁, hports₁⟩ :=
    (Stage.refl hplaced :
      Stage g cpu fold c.next n [address.owner, value.owner] c c).operand le_rfl
        (hmat address.owner) (g.operand_lt n _ hnode address haddress) List.mem_cons_self hc₁ ha
  obtain ⟨hstage₂, hgrows₂, -, hmem₂, hports₂⟩ :=
    hstage₁.operand hstage₁.grows.next_le (hmat value.owner)
      (g.operand_lt n _ hnode value hvalue) (List.mem_cons_of_mem _ List.mem_cons_self) hc₂ hv
  have hw : regWidth value.type.elementWidth = value.type.elementWidth := hwidths.1.symm
  refine ⟨r.2, i, hstage₂, hemitted, rfl,
    List.forall_mem_cons.2 ⟨hgrows₂.sub hmem₁, List.forall_mem_singleton.2 hmem₂⟩,
    fun _ => ⟨hstage₁.placed.typed _ _ _ hports₁, hstage₂.placed.typed _ _ _ hports₂, hw,
      hwidths.2⟩, fun s => ?_⟩
  have hports₁' : r.2.ports (address.owner, address.kind) = some a := by
    rw [hgrows₂.keep address.owner hmem₁, hports₁]
  have hbase : args g.nodes r.2 s address = (s.regs (.vreg a)).toNat := by
    rw [← hstage₂.placed.read_vreg hnode haddress hports₁' s,
      g.address n address (.inr ⟨value, hnode⟩)]
    exact Nat.mod_eq_of_lt (s.regs (.vreg a)).isLt
  rw [(hexec s).2.2, effect, hbase, ← hstage₂.placed.read_vreg hnode hvalue hports₂ s, hw]
  exact ⟨rfl, rfl⟩

/-! ## All nodes -/

theorem Resolves.refl (hplaced : Placed g c) (hn : n ∈ c.materialised) :
    Resolves g cpu fold n c c where
  grows := .refl c
  placed := hplaced
  self := hn
  new := fun _ hm hnot => absurd hm hnot
  above := fun _ _ _ => rfl
  evaluates := fun _ _ _ => .refl

/-- A node that has no value is one of the three actions. -/
theorem acts_of_materialiseNodeBy (hmat : ∀ m, Resolver g cpu fold mat m) {node : Node}
    (hplaced : Placed g c) (hnode : g.nodes[n]? = some node) (hhas : hasValue node = false)
    (h : materialiseNodeBy fold g.nodes mat n (some node) c = .ok c') :
    Acts g cpu fold n node c { c' with materialised := n :: c'.materialised } := by
  cases node with
  | writeReg off idx name value => exact acts_writeReg hmat hplaced hnode h
  | writeMem address value => exact acts_writeMem hmat hplaced hnode h
  | writePc value brType target => exact acts_writePc hmat hplaced hnode h
  | readReg | readMem | constant | readPc | cast | binaryArith => exact nomatch hhas
  | _ => exact nomatch h

theorem resolves_of_materialiseNodeBy (hmat : ∀ m, Resolver g cpu fold mat m) (hplaced : Placed g c)
    (hn : n ∉ c.materialised) (h : materialiseNodeBy fold g.nodes mat n g.nodes[n]? c = .ok c') :
    Resolves g cpu fold n c { c' with materialised := n :: c'.materialised } := by
  cases hnode : g.nodes[n]? with
  | none =>
    rw [hnode] at h
    exact nomatch h
  | some node =>
    rw [hnode] at h
    cases hhas : hasValue node with
    | false => exact (acts_of_materialiseNodeBy hmat hplaced hnode hhas h).resolves hnode hhas
    | true =>
      cases node with
      | readReg vt off idx name => exact resolves_readReg hplaced hn hnode h
      | constant vt val => exact resolves_constant hplaced hn hnode h
      | readPc => exact resolves_readPc hplaced hn hnode h
      | cast op vt source convert => exact resolves_cast hmat hplaced hn hnode h
      | readMem vt address => exact resolves_readMem hmat hplaced hn hnode h
      | binaryArith op l r => exact resolves_binaryArith hmat hplaced hn hnode h
      | _ => exact nomatch hhas

theorem resolver_materialiseBy : ∀ depth n, Resolver g cpu fold (materialiseBy fold g.nodes depth) n
  | 0, _, _, _, _, h => nomatch h
  | depth + 1, n, c, c', hplaced, h => by
    rw [materialiseBy] at h
    split_ifs at h with hn
    · obtain rfl := Except.ok.inj h
      exact .refl hplaced hn
    · obtain ⟨c₁, hc₁, h⟩ := bind_eq_ok.1 h
      obtain rfl := pure_eq_ok.1 h
      exact resolves_of_materialiseNodeBy (resolver_materialiseBy depth) hplaced hn hc₁

/-- An action of a packet. -/
theorem acts_of_materialiseBy {node : Node} (hplaced : Placed g c) (hn : n ∉ c.materialised)
    (hnode : g.nodes[n]? = some node) (hhas : hasValue node = false) {depth : ℕ}
    (h : materialiseBy fold g.nodes depth n c = .ok c') : Acts g cpu fold n node c c' := by
  cases depth with
  | zero => exact nomatch h
  | succ depth =>
    rw [materialiseBy, if_neg hn] at h
    obtain ⟨c₁, hc₁, h⟩ := bind_eq_ok.1 h
    obtain rfl := pure_eq_ok.1 h
    rw [hnode] at hc₁
    exact acts_of_materialiseNodeBy (resolver_materialiseBy depth) hplaced hnode hhas hc₁

/-! ## Nodes that can be materialised -/

theorem exists_mov {dst src : Operand} (c : Context) (hwidth : dst.width = src.width)
    (hwidths : dst.width ∈ moveWidths) (hdst : dst.kind.form ≠ .i)
    (hsrc : dst.kind.form = .r ∨ src.kind.form ≠ .m) :
    ∃ c', c.append (Instruction.mov dst src) = .ok c' := by
  have hform : (dst.kind.form, src.kind.form) ∈
      [(Form.r, Form.r), (.r, .m), (.m, .r), (.r, .i), (.m, .i)] := by
    revert hdst hsrc
    cases dst.kind.form <;> cases src.kind.form <;> decide
  have hok : Instruction.mov dst src = .ok _ := if_pos ⟨hwidth, hwidths, hform⟩
  exact ⟨_, append_eq_ok.2 ⟨_, hok, rfl⟩⟩

theorem exists_append {i : Except String Instruction} (h : ∃ j, i = .ok j) (c : Context) :
    ∃ c', c.append i = .ok c' := by
  obtain ⟨j, rfl⟩ := h
  exact ⟨_, rfl⟩

theorem regWidth_of_mem {w : ℕ} (h : w ∈ moveWidths) : regWidth w = w := by
  unfold regWidth
  rw [if_neg]
  rintro rfl
  exact absurd h (by decide)

/-- The node is not a `write_reg` that is done in place. -/
def Ordinary (fold : ℕ → Port → Option ℕ) (node : Node) : Prop :=
  ∀ off idx name v, node = .writeReg off idx name v → fold off v = none

theorem ordinary_of_hasValue {node : Node} (h : hasValue node) : Ordinary fold node := by
  rintro off idx name v rfl
  exact nomatch h

/-- An operand whose node can be materialised. -/
theorem exists_vregForPort (hmat : Resolver g cpu fold mat n) (hplaced : Placed g c) {o : Port}
    (ho : o.owner = n) (hport : HasPort g.nodes o) (hok : ∃ c', mat n c = .ok c') :
    ∃ c' v, mat o.owner c = .ok c' ∧ c'.vregForPort o = .ok v ∧ Placed g c' := by
  obtain ⟨c', hc'⟩ := hok
  obtain ⟨-, hplaced', hself, -⟩ := hmat c c' hplaced hc'
  obtain ⟨node, vt, hnode, hvt⟩ := hport
  obtain rfl := ho
  obtain ⟨v, hv⟩ := hplaced'.full o.owner hself node hnode o.kind vt hvt
  refine ⟨c', v, hc', ?_, hplaced'⟩
  unfold Context.vregForPort
  rw [hv]

theorem exists_vregOperand {o : Port} {v : ℕ} (hc' : mat o.owner c = .ok c')
    (hv : c'.vregForPort o = .ok v) :
    vregOperand mat o c = .ok (.vreg v o.type.elementWidth, c') :=
  bind_eq_ok.2 ⟨c', hc', bind_eq_ok.2 ⟨v, hv, rfl⟩⟩

theorem exists_materialiseNodeBy (hmat : ∀ m, Resolver g cpu fold mat m) {node : Node}
    (hplaced : Placed g c) (hn : n ∉ c.materialised) (hnode : g.nodes[n]? = some node)
    (hordinary : Ordinary fold node) (hfits : Encodable g.nodes node)
    (hok : ∀ c, Placed g c → ∀ o ∈ node.operands, o.owner ∈ deps fold g.nodes node →
      HasPort g.nodes o → ∃ c', mat o.owner c = .ok c') :
    ∃ c', materialiseNodeBy fold g.nodes mat n (some node) c = .ok c' := by
  cases node with
  | readReg vt off idx name =>
    have hw : regWidth (regWidth vt.elementWidth) = regWidth vt.elementWidth :=
      regWidth_regWidth vt.elementWidth
    have hwidths : regWidth (regWidth vt.elementWidth) ∈ moveWidths := by
      rw [hw]
      exact hfits
    exact exists_mov _ rfl hwidths nofun (.inl rfl)
  | constant vt k => exact exists_mov _ rfl hfits nofun (.inl rfl)
  | readPc => exact exists_mov _ rfl (by decide : 64 ∈ moveWidths) nofun (.inl rfl)
  | readMem vt a =>
    obtain ⟨hport, hwidths⟩ := hfits
    have hplaced₁ : Placed g (c.allocVreg n .value).2 :=
      ((Opened.refl hplaced).alloc hn hnode rfl).placed
    obtain ⟨c₁, v, hc₁, hv, -⟩ := exists_vregForPort (hmat a.owner) hplaced₁ rfl hport
      (hok _ hplaced₁ a List.mem_cons_self List.mem_cons_self hport)
    have hw := regWidth_of_mem hwidths
    obtain ⟨c', hc'⟩ : ∃ c', c₁.append (Instruction.mov (.vreg c.next vt.elementWidth)
        (.guestmem v vt.elementWidth)) = .ok c' :=
      exists_mov c₁ hw (hw.symm ▸ hwidths : regWidth vt.elementWidth ∈ _) nofun (.inl rfl)
    exact ⟨c', bind_eq_ok.2 ⟨c₁, hc₁, bind_eq_ok.2 ⟨v, hv, hc'⟩⟩⟩
  | cast op vt o convert =>
    obtain ⟨hport, f, i, hf, hi⟩ := hfits
    have hplaced₁ : Placed g (c.allocVreg n .value).2 :=
      ((Opened.refl hplaced).alloc hn hnode rfl).placed
    obtain ⟨c₁, v, hc₁, hv, -⟩ := exists_vregForPort (hmat o.owner) hplaced₁ rfl hport
      (hok _ hplaced₁ o List.mem_cons_self List.mem_cons_self hport)
    obtain ⟨c', hc'⟩ := exists_append (castOp_vreg hf hi c.next v) c₁
    exact ⟨c', bind_eq_ok.2 ⟨f, hf, bind_eq_ok.2 ⟨_, exists_vregOperand hc₁ hv, hc'⟩⟩⟩
  | binaryArith op l r =>
    obtain ⟨hportl, hportr, hwr, hwidths, f, i, hf, hi⟩ := hfits
    have hplaced₀ := (opened_openArith hplaced hn hnode).placed
    obtain ⟨c₁, vl, hc₁, hvl, hplaced₁⟩ := exists_vregForPort (hmat l.owner) hplaced₀ rfl hportl
      (hok _ hplaced₀ l List.mem_cons_self List.mem_cons_self hportl)
    obtain ⟨c₂, hc₂⟩ : ∃ c₂, c₁.append (Instruction.mov (.vreg c.next l.type.elementWidth)
        (.vreg vl l.type.elementWidth)) = .ok c₂ := exists_mov c₁ rfl hwidths nofun (.inl rfl)
    have hplaced₂ : Placed g c₂ := by
      obtain ⟨j, -, rfl⟩ := append_eq_ok.1 hc₂
      exact ⟨hplaced₁.lt, hplaced₁.typed, hplaced₁.full⟩
    obtain ⟨c₃, vr, hc₃, hvr, -⟩ := exists_vregForPort (hmat r.owner) hplaced₂ rfl hportr
      (hok _ hplaced₂ r (List.mem_cons_of_mem l List.mem_cons_self)
        (List.mem_cons_of_mem l.owner List.mem_cons_self) hportr)
    obtain ⟨c₄, hc₄⟩ := exists_append (arithOp_vreg hf hi c.next vr) c₃
    exact ⟨_, bind_eq_ok.2 ⟨_, exists_vregOperand hc₁ hvl, bind_eq_ok.2 ⟨c₂, hc₂,
      bind_eq_ok.2 ⟨f, hf, bind_eq_ok.2 ⟨_, exists_vregOperand hc₃ hvr,
        bind_eq_ok.2 ⟨c₄, hc₄, rfl⟩⟩⟩⟩⟩⟩
  | writeReg off idx name value =>
    obtain ⟨hwidths, hvalue⟩ := hfits
    have hfold := hordinary off idx name value rfl
    show ∃ c', materialiseWriteRegBy fold g.nodes mat off value c = .ok c'
    unfold materialiseWriteRegBy
    rw [hfold]
    dsimp only
    split
    · exact exists_mov c rfl hwidths nofun (.inr nofun)
    · next hconst =>
      have hport := hvalue.resolve_left fun ⟨vt, k, h⟩ => hconst vt k h
      have hdeps : value.owner ∈ deps fold g.nodes (.writeReg off idx name value) := by
        rw [deps_of_ne_constant hfold hconst]
        exact List.mem_cons_self
      obtain ⟨c₁, v, hc₁, hv, -⟩ := exists_vregForPort (hmat value.owner) hplaced rfl hport
        (hok _ hplaced value List.mem_cons_self hdeps hport)
      obtain ⟨c', hc'⟩ : ∃ c', c₁.append (Instruction.mov
          (.guestreg value.type.elementWidth off) (.vreg v value.type.elementWidth)) = .ok c' :=
        exists_mov c₁ rfl hwidths nofun (.inr nofun)
      exact ⟨c', bind_eq_ok.2 ⟨_, exists_vregOperand hc₁ hv, hc'⟩⟩
  | writeMem a value =>
    obtain ⟨hporta, hportv, hw, hwidths⟩ := hfits
    obtain ⟨c₁, va, hc₁, hva, hplaced₁⟩ := exists_vregForPort (hmat a.owner) hplaced rfl hporta
      (hok _ hplaced a List.mem_cons_self List.mem_cons_self hporta)
    obtain ⟨c₂, v, hc₂, hv, -⟩ := exists_vregForPort (hmat value.owner) hplaced₁ rfl hportv
      (hok _ hplaced₁ value (List.mem_cons_of_mem a List.mem_cons_self)
        (List.mem_cons_of_mem a.owner List.mem_cons_self) hportv)
    obtain ⟨c', hc'⟩ : ∃ c', c₂.append (Instruction.mov
        (.guestmem va value.type.elementWidth) (.vreg v value.type.elementWidth)) = .ok c' :=
      exists_mov c₂ hw.symm hwidths nofun (.inr nofun)
    exact ⟨c', bind_eq_ok.2 ⟨c₁, hc₁, bind_eq_ok.2 ⟨va, hva,
      bind_eq_ok.2 ⟨_, exists_vregOperand hc₂ hv, hc'⟩⟩⟩⟩
  | writePc value brType target =>
    obtain ⟨hport, hw, hwidths⟩ := hfits
    obtain ⟨c₁, v, hc₁, hv, -⟩ := exists_vregForPort (hmat value.owner) hplaced rfl hport
      (hok _ hplaced value List.mem_cons_self List.mem_cons_self hport)
    obtain ⟨c', hc'⟩ : ∃ c', c₁.append (Instruction.mov
        (.preg .R15 value.type.elementWidth) (.vreg v value.type.elementWidth)) = .ok c' :=
      exists_mov c₁ hw.symm hwidths nofun (.inl rfl)
    exact ⟨c', bind_eq_ok.2 ⟨_, exists_vregOperand hc₁ hv, hc'⟩⟩
  | _ => exact hfits.elim

/-- A node can be materialised when all that is for it has instructions. -/
theorem exists_materialiseBy (cpu : Cpu) : ∀ depth n c node, n < depth → Placed g c →
    g.nodes[n]? = some node → Ordinary fold node →
      (∀ m node, Reaches fold g.nodes n m → g.nodes[m]? = some node → Encodable g.nodes node) →
        ∃ c', materialiseBy fold g.nodes depth n c = .ok c'
  | 0, _, _, _, h, _, _, _, _ => absurd h (Nat.not_lt_zero _)
  | depth + 1, n, c, node, hlt, hplaced, hnode, hordinary, hreach => by
    rw [materialiseBy]
    split_ifs with hn
    · exact ⟨c, rfl⟩
    have hfits := hreach n node .refl hnode
    have hok : ∀ c, Placed g c → ∀ o ∈ node.operands, o.owner ∈ deps fold g.nodes node →
        HasPort g.nodes o → ∃ c', materialiseBy fold g.nodes depth o.owner c = .ok c' := by
      rintro c hplaced o ho hdeps ⟨m, vt, hm, hvt⟩
      have howner := g.operand_lt n node hnode o ho
      refine exists_materialiseBy cpu depth o.owner c m
        (howner.trans_le (Nat.le_of_lt_succ hlt)) hplaced hm
        (ordinary_of_hasValue (hasValue_of_portType hvt)) fun m' node' hreaches hnode' => ?_
      exact hreach m' node' (.head ⟨node, hnode, hdeps⟩ hreaches) hnode'
    obtain ⟨c', hc'⟩ := exists_materialiseNodeBy
      (@resolver_materialiseBy g cpu fold depth) hplaced hn hnode hordinary hfits hok
    exact ⟨_, bind_eq_ok.2 ⟨c', hnode ▸ hc', rfl⟩⟩

end Steps

end Arancini.X86Host
