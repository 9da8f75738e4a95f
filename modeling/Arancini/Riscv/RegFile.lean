import Arancini.X86.EvalOrder

/-!
# The register file of the RISC-V back-end

A block keeps the registers of the guest in two places. `RAX` to `RDI` live in host
registers, `x16` to `x23`, across blocks. `R8` to `R15` and the flags live in the CPU
state, and a block maps those it uses to virtual registers : it loads one before the
first instruction that reads it, and stores all it has written back when it writes the PC
or asks for a helper. Whether a register is loaded, and whether it is written, are notes of
the translator. It takes them down once, in the order of the code, whatever the path
through that code is.

`translate` is the translation of a block as far as the mapped registers go. The value
nodes and the other actions do what their operations do, on the registers the code finds.
`Track` follows a run and keeps book of the registers that really were loaded or written
on its path. `returns_iff_of_synced` : if the code reads and stores no other, and stores
what it writes before the block ends, the block leaves the guest the IR does.
-/

namespace Arancini.Riscv

open Ir

/-! ## Mapped registers -/

/-- A mapped register : a general register, or a flag. Its virtual register comes that many
after `FUNCTIONAL_BASE`. -/
abbrev Mapped := Fin 24

instance Mapped.neZero : NeZero 24 :=
  ⟨by decide⟩

instance Mapped.lawfulBEq : LawfulBEq Mapped :=
  inferInstance

/-- The slot of a mapped register in the CPU state. -/
def slot (i : Mapped) : ℕ :=
  if i.val < 16 then 8 * i + 8 else Reg.ZF.offset + (i - 16)

/-- The mapped register of a slot. -/
def mappedAt (off : ℕ) : Option Mapped :=
  (List.finRange 24).find? (slot · == off)

/-- `x16` to `x23` hold it between blocks. -/
def Mapped.fixed (i : Mapped) : Bool :=
  i.val < 8

/-- The host, as far as it holds the guest : the mapped registers, the CPU state, and the
memory. -/
structure Host where
  vregs : Mapped → ℕ
  cpu : ℕ → ℕ
  mem : ℕ → ℕ

namespace Host

/-- The registers as the code of a block finds them. -/
def guest (h : Host) : Guest where
  regs off :=
    match mappedAt off with
    | some i => h.vregs i
    | none => h.cpu off
  mem := h.mem

/-- After an action of the block that takes the registers it finds to those of `g`. -/
def put (h : Host) (g : Guest) : Host where
  vregs i := g.regs (slot i)
  cpu off := if (mappedAt off).isSome then h.cpu off else g.regs off
  mem := g.mem

/-- The guest between two blocks. -/
def held (h : Host) : Guest where
  regs off :=
    match mappedAt off with
    | some i => if i.fixed then h.vregs i else h.cpu off
    | none => h.cpu off
  mem := h.mem

end Host

/-- An instruction between a mapped register and its slot. -/
inductive RegInstr
  | load (i : Mapped)
  | store (i : Mapped)
  deriving DecidableEq, Repr

namespace RegInstr

def run (h : Host) : RegInstr → Host
  | load i => { h with vregs := Function.update h.vregs i (h.cpu (slot i)) }
  | store i => { h with cpu := Function.update h.cpu (slot i) (h.vregs i) }

end RegInstr

/-! ## Translation -/

/-- `reg_loaded_` and `flag_loaded_`, `reg_written_` and `flag_written_`. -/
structure Notes where
  loaded : List Mapped
  written : List Mapped

/-- At `begin_block`. -/
def beginBlock : Notes :=
  ⟨(List.finRange 24).filter Mapped.fixed, []⟩

/-- `get_or_load_mapped_register`. -/
def getOrLoad (i : Mapped) (s : Notes) : List RegInstr × Notes :=
  if i ∈ s.loaded then ([], s) else ([.load i], { s with loaded := i :: s.loaded })

/-- `get_or_assign_mapped_register`. -/
def getOrAssign (i : Mapped) (s : Notes) : Notes :=
  ⟨i :: s.loaded, i :: s.written⟩

/-- `write_back_registers`. -/
def writeBack (s : Notes) : List RegInstr :=
  ((List.finRange 24).filter fun i => !i.fixed ∧ i ∈ s.written).map .store

/-- The mapped register of an index. -/
def mappedOf (idx : ℕ) : Mapped :=
  Fin.ofNat 24 (idx - 1)

/-- `register_used_visitor` : the mapped registers the actions depend on. -/
def usedRegs (nodes : List Node) (actions : List NodeId) : List Mapped :=
  (List.finRange 24).filter fun i => (actions.flatMap (uses nodes)).any fun n =>
    match nodes[n]? with
    | some (.readReg _ _ idx _) => 1 ≤ idx ∧ idx ≤ 24 ∧ mappedOf idx = i
    | _ => false

def isGpr (vt : ValueType) : Bool :=
  (vt.elementWidth ∈ [8, 16, 32, 64]) && vt.nrElements == 1 &&
    (vt.typeClass == .signedInteger || vt.typeClass == .unsignedInteger)

def isFlag (vt : ValueType) : Bool :=
  vt.elementWidth == 1

/-- The functions an internal call may name. -/
def helpers : List String :=
  ["handle_syscall", "handle_int", "hlt"]

/-- The code of an action, apart from what the action does. Each register the action
reads has been loaded at the start of the instruction. -/
def materialise (nodes : List Node) (node : Node) (s : Notes) :
    Except String (List RegInstr × Notes) :=
  match node with
  | .writeReg _ idx _ v =>
    if isGpr v.type then
      if idx > Reg.R15.idx ∨ idx < Reg.RAX.idx then .ok ([], s)
      else .ok ([], getOrAssign (mappedOf idx) s)
    else if isFlag v.type then .ok ([], getOrAssign (mappedOf idx) s)
    else .ok ([], s)
  | .writePc v _ _ =>
    if isGpr v.type then .ok (writeBack s, s)
    else .error "unsupported width on write pc operation"
  | .internalCall fn _ _ =>
    if fn ∈ helpers then .ok (writeBack s, s) else .error "unsupported internal call"
  | .ternaryAtomic .cmpxchg _ acc _ =>
    match nodes[acc.owner]? with
    | some (.readReg _ _ idx _) => .ok ([], getOrAssign (mappedOf idx) s)
    | _ => .ok ([], s)
  | .ternaryAtomic .. => .error "unsupported ternary atomic operation"
  | .unaryAtomic .. => .error "unsupported node"
  | _ => .ok ([], s)

/-- The instructions on mapped registers in the code of a packet : those at its start, and
those of its actions. -/
structure PacketCode where
  loads : List RegInstr
  stores : List (NodeId × List RegInstr)

/-- `get_or_load_mapped_register` of each register. -/
def loadAll : List Mapped → Notes → List RegInstr × Notes
  | [], s => ([], s)
  | i :: l, s =>
    let (code, s) := getOrLoad i s
    let (rest, s) := loadAll l s
    (code ++ rest, s)

/-- `materialise` of each action. -/
def materialiseAll (nodes : List Node) :
    List NodeId → Notes → Except String (List (NodeId × List RegInstr) × Notes)
  | [], s => .ok ([], s)
  | a :: l, s =>
    match nodes[a]? with
    | none => .error "RISC-V DBT received NULL pointer to node"
    | some node => do
      let (code, s) ← materialise nodes node s
      let (rest, s) ← materialiseAll nodes l s
      return ((a, code) :: rest, s)

/-- `end_instruction`. -/
def endInstruction (p : Packet) (s : Notes) : Except String (PacketCode × Notes) := do
  let (loads, s) := loadAll (usedRegs p.nodes p.actions) s
  let (stores, s) ← materialiseAll p.nodes p.actions s
  return (⟨loads, stores⟩, s)

/-- The code of the instructions of a block, from the first on. -/
def translateFrom : List Packet → Notes → Except String (List PacketCode)
  | [], _ => .ok []
  | p :: ps, s => do
    let (code, s) ← endInstruction p s
    return code :: (← translateFrom ps s)

def translate (c : Chunk) : Except String (List PacketCode) :=
  translateFrom c.packets beginBlock

/-! ## The order of evaluation -/

/-- Number of uses of the value of a node. -/
def targetCount (p : Packet) (n : NodeId) : ℕ :=
  p.targets.countP fun t => t.1 == n && t.2.1 == .value

/-- The node stands for the register it reads, or one of its operands does : its value is in
that register, and each use finds what the register has then. -/
def borrows (known : List NodeId) (count : ℕ) : Node → Bool
  | .readReg vt _ idx _ =>
    count == 1 && (vt.width == 64 && isGpr vt && idx ≤ Reg.R15.idx || isFlag vt)
  | .readLocal .. => true
  | .cast .bitcast _ v _ | .cast .sx _ v _ => v.owner ∈ known
  | .cast .zx vt v _ =>
    v.owner ∈ known &&
      if vt.elementWidth = 128 then v.type.elementWidth == 64 && count ≤ 1 else isFlag v.type
  | .cast .trunc vt v _ =>
    v.owner ∈ known && vt.elementWidth == 64 && (v.type.elementWidth ≤ 64 || count ≤ 1)
  | .bitExtract v _ len => v.owner ∈ known && v.type.elementWidth == 128 && len == 64 && count ≤ 1
  | .bitInsert v bits _ len =>
    (v.owner ∈ known || len == 64 && bits.owner ∈ known) && v.type.elementWidth == 128 && count ≤ 1
  | .vectorExtract v _ => v.owner ∈ known && v.type.elementWidth == 64 && count ≤ 1
  | .vectorInsert v _ bits =>
    if v.type.elementWidth = 128 then bits.owner ∈ known
    else (v.owner ∈ known || v.type.elementWidth == 64 && bits.owner ∈ known) && count ≤ 1
  | _ => false

/-- The nodes without a register of their own. -/
def borrowers (p : Packet) : List NodeId :=
  (List.range p.nodes.length).foldl
    (fun known n =>
      if p.nodes[n]?.any fun node => borrows known (targetCount p n) node then known ++ [n]
      else known) []

/-- The order the code of a block evaluates nodes in : at the first use, but at each use where
a node has no register of its own. -/
def plan (c : Chunk) : Plan where
  evals k n :=
    match c.packets[k]? with
    | some p =>
      (if n = 0 then knowns p.nodes else []) ++
        if n ∈ p.actions then
          (uses p.nodes n).filter fun m =>
            m ∉ knowns p.nodes ∧ (m ∈ firstUses p.nodes p.actions n ∨ m ∈ borrowers p)
        else []
    | none => []
  active k n :=
    match c.packets[k]? with
    | some p => n ∈ p.actions
    | none => false

/-! ## Running a block -/

section Run

variable (ops : Ops) (c : Chunk) (code : List PacketCode)

/-- A helper an action asks for runs when the block has been left. -/
def deferred : Ops :=
  { ops with call := fun _ _ g => (g, 0) }

/-- Where the code of a block stands. -/
structure HostConfig where
  pkt : ℕ
  pos : NodeId
  host : Host
  locals : ℕ → ℕ
  env : Env

namespace HostConfig

/-- What the code of the nodes finds. -/
def found (s : HostConfig) : Config :=
  ⟨s.pkt, s.pos, s.host.guest, s.locals, s.env⟩

/-- After the code of a node that takes what it finds to `d`, and after the instructions on
mapped registers that belong to the node. -/
def resume (s : HostConfig) (d : Config) (instrs : List RegInstr) : HostConfig :=
  ⟨d.pkt, d.pos, instrs.foldl RegInstr.run (s.host.put d.guest), d.locals, d.env⟩

end HostConfig

/-- The instructions on mapped registers at the start of packet `k`. -/
def loadsAt (k : ℕ) : List RegInstr :=
  (code[k]?.map (·.loads)).getD []

/-- The instructions on mapped registers that belong to action `n` of packet `k`. -/
def storesAt (k : ℕ) (n : NodeId) : List RegInstr :=
  (code[k]?.bind (·.stores.lookup n)).getD []

/-- At the start of the code of a packet. -/
def HostConfig.enter (k : ℕ) (h : Host) : HostConfig :=
  ⟨k, 0, (loadsAt code k).foldl RegInstr.run h, ops.local₀, fun _ => none⟩

/-- The code of the block. -/
def hostMachine : Machine HostConfig (Option Guest) where
  step s :=
    match c.graphs[s.pkt]? with
    | none => .inr none
    | some p =>
      match p.nodes[s.pos]? with
      | none =>
        match c.flow false s.pkt (s.host.guest.regs Reg.PC.offset) with
        | some k => .inl (.enter ops code k s.host)
        | none => .inr (some s.host.held)
      | some node =>
        let d := s.found.eval (deferred ops) (plan c) p
        if (plan c).active s.pkt s.pos then
          moveOn ((act (deferred ops) node d).map fun d => s.resume d (storesAt code s.pkt s.pos))
        else .inl (s.resume { d with pos := s.pos + 1 } [])

/-- The block, each read where the translator inserted it. -/
def irMachine : Machine Config (Option Guest) :=
  machine (deferred ops) (c.flow false) c.graphs (eagerPlan c.code)

/-- The block, each node evaluated when its code is. -/
def planned : Machine Config (Option Guest) :=
  machine (deferred ops) (c.flow false) c.graphs (plan c)

/-! ## Keeping book of a path -/

/-- A run of the block, the mapped registers loaded or written on its path, and those written
since they were last stored. -/
structure Track where
  cfg : Config
  valid : List Mapped
  dirty : List Mapped

/-- The mapped register an action writes. -/
def assigns : Node → List Mapped
  | .writeReg off _ _ _ => (mappedAt off).toList
  | _ => []

/-- The mapped register a node reads. -/
def reads (node : Node) : List Mapped :=
  (node.readsReg.bind mappedAt).toList

namespace Track

def afterInstr (t : Track) : RegInstr → Track
  | .load i => { t with valid := i :: t.valid }
  | .store i => { t with dirty := t.dirty.filter (· ≠ i) }

/-- After an action of the path, and the instructions on mapped registers that belong to it. -/
def after (t : Track) (node : Node) (instrs : List RegInstr) (d : Config) : Track :=
  instrs.foldl afterInstr ⟨d, assigns node ++ t.valid, assigns node ++ t.dirty⟩

/-- At the start of a packet. -/
def enter (k : ℕ) (g : Guest) (valid dirty : List Mapped) : Track :=
  (loadsAt code k).foldl afterInstr ⟨.enter ops k g, valid, dirty⟩

/-- At the start of a block. -/
def start (g : Guest) : Track :=
  enter ops code 0 g ((List.finRange 24).filter Mapped.fixed) []

/-- The run with its book. -/
def machine : Machine Track (Option Guest) where
  step t :=
    match c.graphs[t.cfg.pkt]? with
    | none => .inr none
    | some p =>
      match p.nodes[t.cfg.pos]? with
      | none =>
        match c.flow false t.cfg.pkt (t.cfg.guest.regs Reg.PC.offset) with
        | some k => .inl (enter ops code k t.cfg.guest t.valid t.dirty)
        | none => .inr (some t.cfg.guest)
      | some node =>
        let d := t.cfg.eval (deferred ops) (plan c) p
        if (plan c).active t.cfg.pkt t.cfg.pos then
          moveOn ((act (deferred ops) node d).map
            (t.after node (storesAt code t.cfg.pkt t.cfg.pos)))
        else .inl { t with cfg := { d with pos := t.cfg.pos + 1 } }

/-- The code reads and stores only registers that the path has loaded or written. It leaves
the block when all that were written are stored. -/
def synced (t : Track) : Bool :=
  match c.graphs[t.cfg.pkt]? with
  | none => true
  | some p =>
    match p.nodes[t.cfg.pos]? with
    | none =>
      (c.flow false t.cfg.pkt (t.cfg.guest.regs Reg.PC.offset)).isSome || t.dirty.all (·.fixed)
    | some _ =>
      (((plan c).evals t.cfg.pkt t.cfg.pos).all fun n =>
        p.nodes[n]?.all fun m => (reads m).all (· ∈ t.valid)) &&
      (!(plan c).active t.cfg.pkt t.cfg.pos ||
        (storesAt code t.cfg.pkt t.cfg.pos).all fun
          | .load _ => true
          | .store i => i ∈ t.valid)

end Track

/-- All along the run, the code finds the registers it reads and stores loaded or written,
and none it wrote is left behind. -/
def Synced (g : Guest) : Prop :=
  ∀ t, (Track.machine ops c code).Visits (.start ops code g) t → t.synced c code

/-- All along the run, what a node reads is not written between the place of the node and a
use of it. -/
def InOrder (g : Guest) : Prop :=
  ∀ s, (Shadow.machine (deferred ops) (c.flow false) c.graphs (eagerPlan c.code) (plan c)).Visits
    (.enter (deferred ops) 0 g []) s →
    s.sound (deferred ops) (c.flow false) c.graphs (eagerPlan c.code) (plan c)

end Run

end Arancini.Riscv
