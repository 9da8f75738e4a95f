import Arancini.Arm64.BitField

/-!
# Loads and stores of the guest

`read_reg` and `write_reg` address the guest's registers from the context block on, `read_mem` and
`write_mem` the guest's memory. A value in several registers has one access for each. The offset of
an access is a count of bits, although the memory counts bytes, and a load from memory leaves out
the base of the guest's memory, which a store adds.

A wide value that is stored in guest registers is loaded again (`regs_of_readWrite`), but its parts
are far apart, and other registers of the guest are between them and after them. `not_access_right`
says that no wide access does all that it should.
-/

namespace Arancini.Arm64

open Ir (ValueType TypeClass PortKind)

variable {assigned : ℕ → ℕ}

/-! ## Addresses -/

/-- `context_block_reg`. -/
def contextBlockReg : RegisterOperand :=
  ⟨29, .u 64⟩

/-- `memory_base_reg`. -/
def memoryBaseReg : RegisterOperand :=
  ⟨18, .u 64⟩

/-- `immediate_operand` of a type with this width. -/
def immediateOperand (v width : ℕ) : Except String ℕ :=
  if v < 2 ^ width then .ok v
  else .error s!"specified immediate {v} does not fit in width {width}"

/-- `memory_operand`. -/
structure MemoryOperand where
  base : RegisterOperand
  offset : ℕ

namespace Context

variable (c : Context)

/-- `guestreg_memory_operand`. -/
def guestregMemoryOperand (regoff : ℕ) : Except String (MemoryOperand × Context) :=
  if regoff > 255 then do
    let (baseVreg, c) := c.allocateType (.u 64)
    let imm ← immediateOperand regoff 32
    let c := c.emit (.mov baseVreg (.imm imm))
    let c := c.emit (.arith .add baseVreg contextBlockReg (.reg baseVreg) none)
    return (⟨baseVreg, 0⟩, c)
  else .ok (⟨contextBlockReg, regoff⟩, c)

/-- `add_membase`. -/
def addMembase (addr : RegisterOperand) : RegisterOperand × Context :=
  let (memAddrVreg, c) := c.allocateType (.u 64)
  (memAddrVreg, c.emit (.arith .add memAddrVreg memoryBaseReg (.reg addr) none))

end Context

/-- The operand of a part of a memory access. -/
def memOperand (base : RegisterOperand) (offset : ℕ) (c : Context) :
    Except String (MemoryOperand × Context) := do
  let offset ← immediateOperand offset 12
  return (⟨base, offset⟩, c)

/-! ## The lowering -/

/-- The access for a register of this width. -/
def accessWidth (message : String) (width : ℕ) : Except String MemWidth :=
  match width with
  | 1 | 8 => .ok .byte
  | 16 => .ok .half
  | 32 | 64 => .ok .full
  | _ => .error message

/-- The loop over the registers of a value, from the part with the number `i` on. -/
def accessParts (operand : ℕ → Context → Except String (MemoryOperand × Context))
    (access : MemWidth → RegisterOperand → MemoryOperand → Instr) (message : String) :
    ℕ → List RegisterOperand → Context → Except String Context
  | _, [], c => .ok c
  | i, r :: rs, c => do
    let (mem, c) ← operand (i * r.type.width) c
    let width ← accessWidth message r.type.width
    accessParts operand access message (i + 1) rs (c.emit (access width r mem))

/-- `ldrb`, `ldrh` and `ldr`. -/
def loadInstr (width : MemWidth) (r : RegisterOperand) (mem : MemoryOperand) : Instr :=
  .ldr width r mem.base mem.offset

/-- `strb`, `strh` and `str`. -/
def storeInstr (width : MemWidth) (r : RegisterOperand) (mem : MemoryOperand) : Instr :=
  .str width r mem.base mem.offset

/-- The check of vectors. -/
def checkElements (message : String) (type : ValueType) : Except String Unit :=
  if type.nrElements > 1 ∧ type.elementWidth > baseWidth then .error message else .ok ()

/-- `materialise_read_reg`. -/
def materialiseReadReg (regoff : ℕ) (type : ValueType) (c : Context) :
    Except String (List RegisterOperand × Context) := do
  checkElements "Cannot load vectors with individual elements larger than 64-bits" type
  let (dest, c) := c.allocate type
  let c ← accessParts (fun off c => c.guestregMemoryOperand (regoff + off)) loadInstr
    "cannot load individual register values larger than 64-bits" 0 dest c
  return (dest, c)

/-- `is_flag_port`. -/
def isFlagPort (kind : PortKind) (type : ValueType) : Bool :=
  type.width = 1 ∨ kind = .zero ∨ kind = .carry ∨ kind = .negative ∨ kind = .overflow

/-- The registers of the flags, by the offsets of the flags. -/
abbrev FlagMap : Type :=
  ℕ → Option RegisterOperand

/-- A register that is wider than the value is copied to one of the type of the value. -/
def downCast (type : ValueType) (r : RegisterOperand) (c : Context) : RegisterOperand × Context :=
  if r.type.width > type.width ∧ type.width ≤ baseWidth then c.cast r type else (r, c)

/-- The registers that are stored for a value. -/
def downCasts (type : ValueType) : List RegisterOperand → Context → List RegisterOperand × Context
  | [], c => ([], c)
  | r :: rs, c =>
    let (r, c) := downCast type r c
    let (rs, c) := downCasts type rs c
    (r :: rs, c)

/-- `materialise_write_reg`, of a value in these registers. -/
def materialiseWriteReg (flagMap : FlagMap) (regoff : ℕ) (kind : PortKind) (type : ValueType)
    (src : List RegisterOperand) (c : Context) : Except String Context := do
  checkElements "Cannot store vectors with individual elements larger than 64-bits" type
  if isFlagPort kind type then
    match flagMap regoff with
    | none => .error "_Map_base::at"
    | some srcVreg => do
      let (mem, c) ← c.guestregMemoryOperand regoff
      return c.emit (storeInstr .byte srcVreg mem)
  else
    let (src, c) := downCasts type src c
    accessParts (fun off c => c.guestregMemoryOperand (regoff + off)) storeInstr
      "Cannot write individual register values larger than 64-bits" 0 src c

/-- `materialise_read_mem`. -/
def materialiseReadMem (addr : RegisterOperand) (type : ValueType) (c : Context) :
    Except String (List RegisterOperand × Context) := do
  checkElements
    "Cannot load vectors from memory with individual elements larger than 64-bits" type
  let (dest, c) := c.allocate type
  let c ← accessParts (memOperand addr) loadInstr
    "Cannot load individual memory values larger than 64-bits" 0 dest c
  return (dest, c)

/-- `materialise_write_mem`. -/
def materialiseWriteMem (addr : RegisterOperand) (type : ValueType) (src : List RegisterOperand)
    (c : Context) : Except String Context := do
  checkElements "Larger than 64-bit integers in vectors not supported by backend" type
  let (address, c) := c.addMembase addr
  accessParts (memOperand address) storeInstr
    "cannot write individual memory values larger than 64-bits" 0 src c

/-! ## Operands -/

/-- The operands stand for the addresses from `base` on, which depends on registers below `bound`
only, and their code writes new registers only. -/
structure Addresses (assigned : ℕ → ℕ) (bound : ℕ)
    (operand : ℕ → Context → Except String (MemoryOperand × Context)) (base : State → ℕ) :
    Prop where
  congr {s t : State} (h : ∀ x < bound, t.regs x = s.regs x) : base t = base s
  spec {off : ℕ} {c c' : Context} {mem : MemoryOperand} (hc : bound ≤ c.next)
    (h : operand off c = .ok (mem, c')) : c.next ≤ c'.next ∧
      ∃ new, c'.code = c.code ++ new ∧ ∀ s t, run assigned new s = .ok t → t.mem = s.mem ∧
        (∀ x < c.next, t.regs x = s.regs x) ∧
        (address mem.base mem.offset t) % 2 ^ 64 = (base s + off) % 2 ^ 64

theorem immediateOperand_eq_ok {v width x : ℕ} :
    immediateOperand v width = .ok x ↔ v < 2 ^ width ∧ v = x := by
  rw [immediateOperand]
  split_ifs with h
  · rw [Except.ok.injEq, and_iff_right h]
  · exact iff_of_false nofun fun hx => h hx.1

/-- A sum of addresses. -/
theorem exec_add {d r : ℕ} {r' : RegisterOperand} {s t : State}
    (h : exec assigned (.arith .add ⟨d, .u 64⟩ ⟨r, .u 64⟩ (.reg r') none) s = .ok t) :
    t = s.set ⟨d, .u 64⟩ (s.regs r + s.regs r'.index) := by
  obtain ⟨n, hn, h⟩ := bind_eq_ok.1 h
  have hwidth : operandWidth [wideReg .unsignedInteger d, wideReg .unsignedInteger r, r'] =
      .ok n := hn
  rw [operandWidth_wideReg] at hwidth
  split_ifs at hwidth
  obtain rfl := Except.ok.inj hwidth
  obtain rfl := Except.ok.inj h
  have hsum : (ArithOp.add.eval (s.regs r) (s.regs r'.index) s.flags.c).1 =
      s.regs r + s.regs r'.index := BitVec.add_zero _
  rw [← hsum]
  simp only [State.get, RegOrImm.value, BitVec.setWidth_eq, Option.elim]
  rfl

/-- The constant of an address. -/
theorem exec_mov_imm {d v : ℕ} {s t : State}
    (h : exec assigned (.mov ⟨d, .u 64⟩ (.imm v)) s = .ok t) :
    t = s.set ⟨d, .u 64⟩ (BitVec.ofNat 64 v) := by
  obtain ⟨n, hn, h⟩ := bind_eq_ok.1 h
  have hwidth : operandWidth [wideReg .unsignedInteger d] = .ok n := hn
  rw [operandWidth_wideReg] at hwidth
  split_ifs at hwidth
  obtain rfl := Except.ok.inj hwidth
  split_ifs at h
  exact (Except.ok.inj h).symm

theorem addresses_guestreg (bound : ℕ) (hbound : 29 < bound) (regoff : ℕ) :
    Addresses assigned bound (fun off c => c.guestregMemoryOperand (regoff + off))
      fun s => (s.regs 29).toNat + regoff where
  congr h := by rw [h 29 hbound]
  spec {off c c' mem} hc h := by
    rw [Context.guestregMemoryOperand] at h
    split_ifs at h with hfar
    · obtain ⟨imm, himm, h⟩ := bind_eq_ok.1 h
      obtain ⟨-, rfl⟩ := immediateOperand_eq_ok.1 himm
      obtain ⟨rfl, rfl⟩ := Prod.mk.inj (Except.ok.inj h)
      refine ⟨Nat.le_succ _, [_, _], List.append_assoc .., fun s t ht => ?_⟩
      obtain ⟨u, hu, ht⟩ := bind_eq_ok.1 ht
      obtain ⟨v, hv, ht⟩ := bind_eq_ok.1 ht
      obtain rfl := Except.ok.inj ht
      obtain rfl := exec_mov_imm hu
      obtain rfl := exec_add hv
      have hkept : ∀ x < c.next, (s.set ⟨c.next, .u 64⟩ (BitVec.ofNat 64 (regoff + off))).regs x =
          s.regs x := fun x hx =>
        State.regs_set_of_ne (r := ⟨c.next, .u 64⟩) hx.ne _
      refine ⟨rfl, fun x hx => ?_, ?_⟩
      · exact (State.regs_set_of_ne (r := ⟨c.next, .u 64⟩) hx.ne _).trans
          (hkept x hx)
      · rw [address, Nat.add_zero, State.regs_set_self, BitVec.setWidth_eq, State.regs_set_self,
          BitVec.setWidth_eq, hkept 29 (by omega), BitVec.toNat_add, BitVec.toNat_ofNat]
        omega
    · obtain ⟨rfl, rfl⟩ := Prod.mk.inj (Except.ok.inj h)
      refine ⟨le_rfl, [], (List.append_nil _).symm, fun s t ht => ?_⟩
      obtain rfl := Except.ok.inj ht
      refine ⟨rfl, fun _ _ => rfl, ?_⟩
      rw [address, Nat.add_assoc]
      rfl

theorem addresses_mem (bound : ℕ) {base : RegisterOperand} (hbound : base.index < bound) :
    Addresses assigned bound (memOperand base) fun s => (s.regs base.index).toNat where
  congr h := by rw [h _ hbound]
  spec {off c c' mem} hc h := by
    obtain ⟨imm, himm, h⟩ := bind_eq_ok.1 h
    obtain ⟨-, rfl⟩ := immediateOperand_eq_ok.1 himm
    obtain ⟨rfl, rfl⟩ := Prod.mk.inj (Except.ok.inj h)
    refine ⟨le_rfl, [], (List.append_nil _).symm, fun s t ht => ?_⟩
    obtain rfl := Except.ok.inj ht
    exact ⟨rfl, fun _ _ => rfl, rfl⟩

/-! ## The loops -/

/-- The registers of the parts from the one with the number `i` on. -/
def partRegs (cls : TypeClass) (first i n : ℕ) : List RegisterOperand :=
  (List.range' i n).map fun j => wideReg cls (first + j)

theorem partRegs_succ (cls : TypeClass) (first i n : ℕ) :
    partRegs cls first i (n + 1) = wideReg cls (first + i) :: partRegs cls first (i + 1) n :=
  rfl

theorem sequence_eq_partRegs {first : ℕ} {type : ValueType} (h : 64 < type.width) :
    sequence first type = partRegs type.typeClass first 0 (type.width / 64) := by
  rw [sequence_of_lt h, List.range_eq_range']
  rfl

/-- Memory after the stores of the parts from the one with the number `i` on. -/
def storeParts (base first : ℕ) (regs : ℕ → BitVec 64) : ℕ → ℕ → (ℕ → ℕ) → ℕ → ℕ
  | _, 0, mem => mem
  | i, n + 1, mem => storeParts base first regs (i + 1) n
      (Ir.Guest.store mem (base + 64 * i) (regs (first + i)).toNat 8)

theorem storeParts_congr {base first : ℕ} {regs regs' : ℕ → BitVec 64} : ∀ {n i : ℕ} {mem : ℕ → ℕ},
    (∀ j, i ≤ j → j < i + n → regs (first + j) = regs' (first + j)) →
    storeParts base first regs i n mem = storeParts base first regs' i n mem
  | 0, _, _, _ => rfl
  | n + 1, i, mem, h => by
    rw [storeParts, storeParts, h i le_rfl (by omega)]
    exact storeParts_congr fun j hj hj' => h j (by omega) (by omega)

theorem bytes_wideReg {cls : TypeClass} {r len : ℕ}
    (h : MemWidth.full.bytes (wideReg cls r) = .ok len) : len = 8 := by
  cases cls with
  | none => exact nomatch h
  | signedInteger | unsignedInteger | floatingPoint => exact (Except.ok.inj h).symm

theorem exec_storeInstr {cls : TypeClass} {r : ℕ} {mem : MemoryOperand} {s t : State}
    (h : exec assigned (storeInstr .full (wideReg cls r) mem) s = .ok t) :
    t = { s with
      mem := Ir.Guest.store s.mem (address mem.base mem.offset s) (s.regs r).toNat 8 } := by
  rw [storeInstr, exec] at h
  split_ifs at h
  obtain ⟨len, hlen, h⟩ := bind_eq_ok.1 h
  obtain rfl := bytes_wideReg hlen
  exact (Except.ok.inj h).symm

theorem exec_loadInstr {cls : TypeClass} {r : ℕ} {mem : MemoryOperand} {s t : State}
    (h : exec assigned (loadInstr .full (wideReg cls r) mem) s = .ok t) :
    t = s.set (wideReg cls r)
      (BitVec.ofNat 64 (Ir.Guest.load s.mem (address mem.base mem.offset s) 8)) := by
  rw [loadInstr, exec] at h
  split_ifs at h
  obtain ⟨len, hlen, h⟩ := bind_eq_ok.1 h
  obtain rfl := bytes_wideReg hlen
  exact (Except.ok.inj h).symm

section Loops

variable {bound : ℕ} {operand : ℕ → Context → Except String (MemoryOperand × Context)}
  {base : State → ℕ} {cls : TypeClass} {first : ℕ} {message : String}

/-- A pass. -/
theorem accessParts_inv {access : MemWidth → RegisterOperand → MemoryOperand → Instr} {i n : ℕ}
    {c c' : Context}
    (h : accessParts operand access message i (partRegs cls first i (n + 1)) c = .ok c') :
    ∃ mem d, operand (64 * i) c = .ok (mem, d) ∧
      accessParts operand access message (i + 1) (partRegs cls first (i + 1) n)
        (d.emit (access .full (wideReg cls (first + i)) mem)) = .ok c' := by
  rw [partRegs_succ, accessParts] at h
  obtain ⟨⟨mem, d⟩, hmem, h⟩ := bind_eq_ok.1 h
  rw [Nat.mul_comm 64]
  exact ⟨mem, d, hmem, h⟩

theorem run_stores (hop : Addresses assigned bound operand base) :
    ∀ {n i : ℕ} {c c' : Context}, first + i + n ≤ bound → bound ≤ c.next →
      accessParts operand storeInstr message i (partRegs cls first i n) c = .ok c' →
      bound ≤ c'.next ∧ ∃ new, c'.code = c.code ++ new ∧ ∀ s t, run assigned new s = .ok t →
        (∀ x < bound, t.regs x = s.regs x) ∧
        t.mem = storeParts (base s) first s.regs i n s.mem
  | 0, i, c, c', _, hc, h => by
    obtain rfl := Except.ok.inj h
    refine ⟨hc, [], (List.append_nil _).symm, fun s t ht => ?_⟩
    obtain rfl := Except.ok.inj ht
    exact ⟨fun _ _ => rfl, rfl⟩
  | n + 1, i, c, c', hfirst, hc, h => by
    obtain ⟨mem, d, hmem, h⟩ := accessParts_inv h
    obtain ⟨hd, new, hnew, hspec⟩ := hop.spec hc hmem
    obtain ⟨hc', new', hnew', hrest⟩ := run_stores hop (by omega)
      (by exact hc.trans hd) h
    refine ⟨hc', new ++ storeInstr .full (wideReg cls (first + i)) mem :: new', ?_, ?_⟩
    · rw [hnew', Context.emit, hnew]
      simp only [List.append_assoc, List.cons_append, List.nil_append]
    · intro s t ht
      rw [run_append] at ht
      obtain ⟨u, hu, ht⟩ := bind_eq_ok.1 ht
      obtain ⟨v, hv, ht⟩ := bind_eq_ok.1 ht
      obtain ⟨hmemory, hregs, haddress⟩ := hspec s u hu
      obtain rfl := exec_storeInstr hv
      obtain ⟨hregs', hmemory'⟩ := hrest _ t ht
      have hkept : ∀ x < bound, u.regs x = s.regs x := fun x hx => hregs x (hx.trans_le hc)
      refine ⟨fun x hx => (hregs' x hx).trans (hkept x hx), ?_⟩
      have hbase : base { u with
          mem := Ir.Guest.store u.mem (address mem.base mem.offset u)
            (u.regs (first + i)).toNat 8 } = base s := hop.congr hkept
      rw [hmemory', storeParts, hbase, Ir.Guest.store_congr haddress, hmemory,
        hkept (first + i) (by omega)]
      exact storeParts_congr fun j hj hj' => hkept (first + j) (by omega)

/-- The registers that are loaded, and those below the new ones that are not. -/
theorem run_loads (hop : Addresses assigned bound operand base) :
    ∀ {n i : ℕ} {c c' : Context}, bound ≤ first → first + i + n ≤ c.next →
      accessParts operand loadInstr message i (partRegs cls first i n) c = .ok c' →
      ∃ new, c'.code = c.code ++ new ∧ ∀ s t, run assigned new s = .ok t → t.mem = s.mem ∧
        (∀ x < c.next, x < first + i ∨ first + i + n ≤ x → t.regs x = s.regs x) ∧
        ∀ j, i ≤ j → j < i + n →
          t.regs (first + j) = BitVec.ofNat 64 (Ir.Guest.load s.mem (base s + 64 * j) 8)
  | 0, i, c, c', _, _, h => by
    obtain rfl := Except.ok.inj h
    refine ⟨[], (List.append_nil _).symm, fun s t ht => ?_⟩
    obtain rfl := Except.ok.inj ht
    exact ⟨rfl, fun _ _ _ => rfl, fun j hj hj' => by omega⟩
  | n + 1, i, c, c', hfirst, hc, h => by
    obtain ⟨mem, d, hmem, h⟩ := accessParts_inv h
    obtain ⟨hd, new, hnew, hspec⟩ := hop.spec (by omega) hmem
    obtain ⟨new', hnew', hrest⟩ := run_loads hop hfirst
      (by exact (by omega : first + (i + 1) + n ≤ d.next)) h
    refine ⟨new ++ loadInstr .full (wideReg cls (first + i)) mem :: new', ?_, ?_⟩
    · rw [hnew', Context.emit, hnew]
      simp only [List.append_assoc, List.cons_append, List.nil_append]
    · intro s t ht
      rw [run_append] at ht
      obtain ⟨u, hu, ht⟩ := bind_eq_ok.1 ht
      obtain ⟨v, hv, ht⟩ := bind_eq_ok.1 ht
      obtain ⟨hmemory, hregs, haddress⟩ := hspec s u hu
      obtain rfl := exec_loadInstr hv
      obtain ⟨hmemory', hkept', hload⟩ := hrest _ t ht
      have hother : ∀ x ≠ first + i, (u.set (wideReg cls (first + i)) (BitVec.ofNat 64
          (Ir.Guest.load u.mem (address mem.base mem.offset u) 8))).regs x = u.regs x :=
        fun x hx => State.regs_set_of_ne (r := wideReg cls (first + i)) hx _
      have hbase : base (u.set (wideReg cls (first + i)) (BitVec.ofNat 64
          (Ir.Guest.load u.mem (address mem.base mem.offset u) 8))) = base s :=
        hop.congr fun x hx => (hother x (by omega)).trans (hregs x (by omega))
      refine ⟨hmemory'.trans hmemory, fun x hx hout => ?_, fun j hj hj' => ?_⟩
      · rw [hkept' x (by exact hx.trans_le hd) (by omega), hother x (by omega), hregs x hx]
      · rcases Nat.lt_or_ge i j with hlt | hge
        · rw [hload j hlt (by omega), hbase]
          exact congrArg (fun m => BitVec.ofNat 64 (Ir.Guest.load m _ 8)) hmemory
        · obtain rfl : j = i := by omega
          rw [hkept' _ (by exact (by omega : first + j < d.next)) (.inl (by omega)),
            State.regs_set_self, BitVec.setWidth_eq, Ir.Guest.load_congr haddress, hmemory]

end Loops

/-! ## What is stored -/

section Stored

variable {base first : ℕ} {regs : ℕ → BitVec 64}

/-- A load that no part overlaps. -/
theorem load_storeParts_of_apart {x len : ℕ} : ∀ {n i : ℕ} {mem : ℕ → ℕ},
    (∀ j, i ≤ j → j < i + n → ∀ b < len, ∀ b' < 8,
      (base + 64 * j + b') % 2 ^ 64 ≠ (x + b) % 2 ^ 64) →
    Ir.Guest.load (storeParts base first regs i n mem) x len = Ir.Guest.load mem x len
  | 0, _, _, _ => rfl
  | n + 1, i, mem, h => by
    rw [storeParts, load_storeParts_of_apart fun j hj hj' => h j (by omega) (by omega)]
    exact Ir.load_store _ fun b' hb' b hb => h i le_rfl (by omega) b hb b' hb'

/-- Each part is loaded again. -/
theorem load_storeParts {j : ℕ} : ∀ {n i : ℕ} {mem : ℕ → ℕ}, 64 * (i + n) ≤ 2 ^ 64 →
    i ≤ j → j < i + n →
    Ir.Guest.load (storeParts base first regs i n mem) (base + 64 * j) 8 = (regs (first + j)).toNat
  | 0, i, mem, _, hj, hj' => absurd hj' hj.not_gt
  | n + 1, i, mem, hn, hj, hj' => by
    rw [storeParts]
    rcases Nat.lt_or_ge i j with hlt | hge
    · exact load_storeParts (by omega) hlt (by omega)
    · obtain rfl : j = i := by omega
      rw [load_storeParts_of_apart fun j' hlt hle b hb b' hb' => by omega,
        Ir.Guest.load_store_self (by decide)]
      exact Nat.mod_eq_of_lt (regs (first + j)).isLt

theorem load_zero (x : ℕ) : ∀ len, Ir.Guest.load (fun _ => 0) x len = 0
  | 0 => rfl
  | len + 1 => by rw [Ir.Guest.load, load_zero (x + 1) len]

end Stored

/-! ## Accesses -/

/-- Guest registers from an offset on, or memory from the address in a register on. -/
inductive Place
  | reg (regoff : ℕ)
  | mem (addr : RegisterOperand)

/-- A wide value that is stored and loaded again. `next` is the number of the next register. -/
structure Access where
  place : Place
  source : RegValue
  next : ℕ
  wide : 64 < source.type.width
  stop_le : source.stop ≤ next
  virtual : 32 < next
  addr_lt : ∀ addr, place = .mem addr → addr.index < next

namespace Access

variable (a : Access)

def write (flagMap : FlagMap) (c : Context) : Except String Context :=
  match a.place with
  | .reg regoff => materialiseWriteReg flagMap regoff .value a.source.type a.source.regs c
  | .mem addr => materialiseWriteMem addr a.source.type a.source.regs c

def read (c : Context) : Except String (List RegisterOperand × Context) :=
  match a.place with
  | .reg regoff => materialiseReadReg regoff a.source.type c
  | .mem addr => materialiseReadMem addr a.source.type c

/-- The address of the value. -/
def base (s : State) : ℕ :=
  match a.place with
  | .reg regoff => (s.regs contextBlockReg.index).toNat + regoff
  | .mem addr => (s.regs memoryBaseReg.index + s.regs addr.index).toNat

/-- The parts are next to each other, and the bytes around the value are as before. -/
def Stored (s t : State) : Prop :=
  (∀ i < a.source.type.width / 64,
    Ir.Guest.load t.mem (a.base s + 8 * i) 8 = (s.regs (a.source.first + i)).toNat) ∧
  ∀ x, (∀ i < (a.source.type.width + 7) / 8, (a.base s + i) % 2 ^ 64 ≠ x) → t.mem x = s.mem x

/-- The parts are loaded from the same address. -/
def Loaded (dest : List RegisterOperand) (t s' : State) : Prop :=
  ∀ i r, dest[i]? = some r →
    (s'.regs r.index).toNat = Ir.Guest.load t.mem (a.base t + 8 * i) 8

/-- The store and the load are accepted and right for all contents of registers and memory. -/
def Right (assigned : ℕ → ℕ) (flagMap : FlagMap) : Prop :=
  ∃ c dest c', a.write flagMap ⟨a.next, []⟩ = .ok c ∧ a.read ⟨c.next, []⟩ = .ok (dest, c') ∧
    ∀ s, ∃ t s', run assigned c.code s = .ok t ∧ run assigned c'.code t = .ok s' ∧
      a.Stored s t ∧ a.Loaded dest t s' ∧
      ∀ i < a.source.type.width, ∃ b, bitAt dest s' i = some b ∧ bitAt a.source.regs s i = some b

variable {a}

theorem downCasts_of_lt {type : ValueType} (h : 64 < type.width) :
    ∀ (rs : List RegisterOperand) (c : Context), downCasts type rs c = (rs, c)
  | [], _ => rfl
  | r :: rs, c => by
    have hr : downCast type r c = (r, c) := if_neg fun hr => h.not_ge hr.2
    rw [downCasts, hr]
    dsimp only
    rw [downCasts_of_lt h rs c]

theorem not_isFlagPort_value {type : ValueType} (h : 64 < type.width) :
    isFlagPort .value type = false := by
  rw [isFlagPort, decide_eq_false_iff_not]
  rintro (hone | h | h | h | h)
  · omega
  all_goals exact nomatch h

/-- What the stores do. -/
theorem run_write (assigned : ℕ → ℕ) {flagMap : FlagMap} {c : Context}
    (h : a.write flagMap ⟨a.next, []⟩ = .ok c) : a.next ≤ c.next ∧
      ∀ s t, run assigned c.code s = .ok t → (∀ x < a.next, t.regs x = s.regs x) ∧
        t.mem = storeParts (a.base s) a.source.first s.regs 0 (a.source.type.width / 64) s.mem := by
  obtain ⟨place, source, next, wide, hstop, hvirtual, haddr⟩ := a
  have hsource : source.first + 0 + source.type.width / 64 ≤ next := by
    rw [RegValue.stop, RegValue.regs, length_sequence_of_lt wide] at hstop
    exact hstop
  cases place with
  | reg regoff =>
    have hwrite : materialiseWriteReg flagMap regoff .value source.type source.regs ⟨next, []⟩ =
        .ok c := h
    rw [materialiseWriteReg, not_isFlagPort_value wide, downCasts_of_lt wide] at hwrite
    obtain ⟨-, -, hparts⟩ := bind_eq_ok.1 hwrite
    rw [if_neg (by decide), RegValue.regs, sequence_eq_partRegs wide] at hparts
    obtain ⟨hnext, new, hnew, hrun⟩ := run_stores (addresses_guestreg next (by omega) regoff)
      hsource le_rfl hparts
    refine ⟨hnext, fun s t ht => hrun s t ?_⟩
    rw [hnew] at ht
    exact ht
  | mem addr =>
    have hwrite : materialiseWriteMem addr source.type source.regs ⟨next, []⟩ = .ok c := h
    obtain ⟨-, -, hparts⟩ := bind_eq_ok.1 hwrite
    have hparts' : accessParts (memOperand ⟨next, .u 64⟩) storeInstr
        "cannot write individual memory values larger than 64-bits" 0 (sequence source.first
          source.type) ⟨next + 1, [.arith .add ⟨next, .u 64⟩ memoryBaseReg (.reg addr) none]⟩ =
        .ok c := hparts
    rw [sequence_eq_partRegs wide] at hparts'
    obtain ⟨hnext, new, hnew, hrun⟩ := run_stores
      (addresses_mem (next + 1) (Nat.lt_succ_self next)) (by omega) le_rfl hparts'
    refine ⟨Nat.le_of_succ_le hnext, fun s t ht => ?_⟩
    rw [hnew, List.singleton_append] at ht
    obtain ⟨u, hu, ht⟩ := bind_eq_ok.1 ht
    obtain rfl := exec_add hu
    obtain ⟨hregs, hmem⟩ := hrun _ t ht
    have hother : ∀ x < next, (s.set ⟨next, .u 64⟩ (s.regs 18 + s.regs addr.index)).regs x =
        s.regs x := fun x hx =>
      State.regs_set_of_ne (r := ⟨next, .u 64⟩) hx.ne _
    refine ⟨fun x hx => (hregs x (Nat.lt_succ_of_lt hx)).trans (hother x hx), ?_⟩
    rw [hmem, State.regs_set_self, BitVec.setWidth_eq]
    exact storeParts_congr fun j _ hj => hother _ (by omega)

/-- The address that is loaded from. -/
def readBase (a : Access) (s : State) : ℕ :=
  match a.place with
  | .reg regoff => (s.regs contextBlockReg.index).toNat + regoff
  | .mem addr => (s.regs addr.index).toNat

/-- What the loads do. -/
theorem run_read (assigned : ℕ → ℕ) {m : ℕ} {dest : List RegisterOperand} {c : Context}
    (hm : a.next ≤ m) (h : a.read ⟨m, []⟩ = .ok (dest, c)) : dest = sequence m a.source.type ∧
      ∀ s t, run assigned c.code s = .ok t → t.mem = s.mem ∧
        ∀ j < a.source.type.width / 64,
          t.regs (m + j) = BitVec.ofNat 64 (Ir.Guest.load s.mem (a.readBase s + 64 * j) 8) := by
  obtain ⟨place, source, next, wide, hstop, hvirtual, haddr⟩ := a
  have hdest : m + 0 + source.type.width / 64 ≤
      m + (partRegs source.type.typeClass m 0 (source.type.width / 64)).length := by
    rw [partRegs, List.length_map, List.length_range']
    exact le_rfl
  cases place with
  | reg regoff =>
    have hread : materialiseReadReg regoff source.type ⟨m, []⟩ = .ok (dest, c) := h
    obtain ⟨-, -, hread⟩ := bind_eq_ok.1 hread
    obtain ⟨c', hparts, hout⟩ := bind_eq_ok.1 hread
    clear hread h
    obtain ⟨rfl, rfl⟩ := Prod.mk.inj (Except.ok.inj hout)
    have hparts' : accessParts _ loadInstr _ 0 (sequence m source.type) _ = .ok c' := hparts
    rw [sequence_eq_partRegs wide] at hparts'
    obtain ⟨new, hnew, hrun⟩ := run_loads (addresses_guestreg m
      (by exact (Nat.lt_of_le_of_lt (by decide) hvirtual).trans_le hm) regoff) le_rfl
      (by exact hdest) hparts'
    refine ⟨rfl, fun s t ht => ?_⟩
    rw [hnew] at ht
    obtain ⟨hmem, -, hload⟩ := hrun s t ht
    exact ⟨hmem, fun j hj => hload j (Nat.zero_le j) (by rw [Nat.zero_add]; exact hj)⟩
  | mem addr =>
    have hread : materialiseReadMem addr source.type ⟨m, []⟩ = .ok (dest, c) := h
    obtain ⟨-, -, hread⟩ := bind_eq_ok.1 hread
    obtain ⟨c', hparts, hout⟩ := bind_eq_ok.1 hread
    clear hread h
    obtain ⟨rfl, rfl⟩ := Prod.mk.inj (Except.ok.inj hout)
    have hparts' : accessParts _ loadInstr _ 0 (sequence m source.type) _ = .ok c' := hparts
    rw [sequence_eq_partRegs wide] at hparts'
    obtain ⟨new, hnew, hrun⟩ := run_loads (addresses_mem m
      ((haddr addr rfl).trans_le hm)) le_rfl (by exact hdest) hparts'
    refine ⟨rfl, fun s t ht => ?_⟩
    rw [hnew] at ht
    obtain ⟨hmem, -, hload⟩ := hrun s t ht
    exact ⟨hmem, fun j hj => hload j (Nat.zero_le j) (by rw [Nat.zero_add]; exact hj)⟩

/-- A wide value in guest registers is loaded as it has been stored. -/
theorem regs_of_readWrite {flagMap : FlagMap} {regoff : ℕ} (hplace : a.place = .reg regoff)
    (hsize : a.source.type.width ≤ 2 ^ 64) {c c' : Context} {dest : List RegisterOperand}
    (hwrite : a.write flagMap ⟨a.next, []⟩ = .ok c)
    (hread : a.read ⟨c.next, []⟩ = .ok (dest, c')) {s t s' : State}
    (hs : run assigned c.code s = .ok t) (ht : run assigned c'.code t = .ok s') {j : ℕ}
    (hj : j < a.source.type.width / 64) : s'.regs (c.next + j) = s.regs (a.source.first + j) := by
  obtain ⟨hnext, hstored⟩ := run_write assigned hwrite
  obtain ⟨hregs, hmem⟩ := hstored s t hs
  obtain ⟨-, hloaded⟩ := run_read assigned hnext hread
  obtain ⟨-, hload⟩ := hloaded t s' ht
  have hbase : a.readBase t = a.base s := by
    have hreg : t.regs contextBlockReg.index = s.regs contextBlockReg.index :=
      hregs _ (Nat.lt_of_le_of_lt (by decide) a.virtual)
    rw [readBase, base, hplace]
    dsimp only
    rw [hreg]
  rw [hload j hj, hbase, hmem, load_storeParts (by omega) (Nat.zero_le j) (by omega),
    BitVec.ofNat_toNat, BitVec.setWidth_eq]

/-- The second part of a value is not next to the first. -/
theorem not_right_of_two {flagMap : FlagMap} (h : 1 < a.source.type.width / 64) :
    ¬a.Right assigned flagMap := by
  rintro ⟨c, dest, c', hwrite, -, hrun⟩
  obtain ⟨-, hstored⟩ := run_write assigned hwrite
  obtain ⟨t, s', hs, -, ⟨hpart, -⟩, -⟩ := hrun (contents fun x =>
    if x = a.source.first + 1 then 1#64 else 0#64)
  obtain ⟨-, hmem⟩ := hstored _ _ hs
  have hone := hpart 1 h
  rw [hmem, load_storeParts_of_apart (fun j _ _ b hb b' hb' => by omega), regs_contents,
    if_pos rfl] at hone
  exact absurd ((load_zero _ 8).symm.trans hone) (by decide)

/-- The last bits of a value that has no register of its own for them are lost. -/
theorem not_right_of_one {flagMap : FlagMap} (h : a.source.type.width / 64 = 1) :
    ¬a.Right assigned flagMap := by
  rintro ⟨c, dest, c', -, -, hrun⟩
  obtain ⟨t, s', -, -, -, -, hbits⟩ := hrun (contents fun _ => 0)
  obtain ⟨b, -, hb⟩ := hbits (a.source.type.width - 1) (Nat.sub_lt a.source.pos Nat.one_pos)
  rw [bitAt_regs _ a.wide] at hb
  split_ifs at hb
  have := a.wide
  omega

/-- No access of more than 64 bits is right. -/
theorem not_access_right (assigned : ℕ → ℕ) (flagMap : FlagMap) (a : Access) :
    ¬a.Right assigned flagMap := by
  have hwide := a.wide
  rcases Nat.lt_or_ge 1 (a.source.type.width / 64) with h | h
  · exact not_right_of_two h
  · exact not_right_of_one (by omega)

/-- The first vector register of the guest. -/
def xmm0 : Access where
  place := .reg 176
  source := ⟨33, .u 128, by decide⟩
  next := 35
  wide := by decide
  stop_le := by decide
  virtual := by decide
  addr_lt _ h := nomatch h

theorem not_xmm0_right : ¬xmm0.Right id fun _ => none :=
  not_right_of_two (by decide)

end Access

end Arancini.Arm64
