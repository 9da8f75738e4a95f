import Arancini.Arm64.Context

/-!
# Fields of wide values

`bit_extract` and `bit_insert` of a value in several registers. The code divides the position by the
width of all registers of the value instead of the width of one, which gives the first register for
each position, and the register that a pass writes to or reads from is a count of bits instead of a
count of registers. A subscript that is out of range is an error here.

A pass copies a register to one of 64 bits. The assembler takes the copy of a shorter one only where
the allocator has killed it.

`field_right_iff` says that only fields within the first register are right.
-/

namespace Arancini.Arm64

open Ir (ValueType TypeClass)

/-! ## The lowering -/

/-- `total_width`. -/
def totalWidth (regs : List RegisterOperand) : ℕ :=
  regs.length * (regs.head?.elim 0 fun r => r.type.elementWidth)

/-- Where a pass is. -/
structure FieldPos where
  /-- The register of the wide value. -/
  i : ℕ
  /-- The first bit in this register. -/
  idx : ℕ
  /-- The bits of this pass, and of those before. -/
  len : ℕ
  done : ℕ
  /-- The register of the field. -/
  fieldIdx : ℕ

/-- The loop of `materialise_bit_extract`, with at most `fuel` passes. Each pass takes a bit. -/
def extractLoop (src : List RegisterOperand) (length destTotalWidth : ℕ) :
    ℕ → FieldPos → List RegisterOperand → Context → Except String (List RegisterOperand × Context)
  | 0, _, dest, c => .ok (dest, c)
  | fuel + 1, p, dest, c =>
    if p.done < length then do
      let srcVreg ← subscript src p.i
      let destVreg ← subscript dest p.fieldIdx
      let (destVreg, c) := c.cast destVreg srcVreg.type
      let c := c.emit (.bfxil destVreg srcVreg p.idx p.len)
      let done := p.done + p.len
      extractLoop src length destTotalWidth fuel
        ⟨p.i + 1, 0, min (length - done) srcVreg.type.elementWidth, done, done % destTotalWidth⟩
        (dest.set p.fieldIdx destVreg) c
    else .ok (dest, c)

/-- `materialise_bit_extract`. -/
def materialiseBitExtract (src : List RegisterOperand) (start length : ℕ) (c : Context) :
    Except String (List RegisterOperand × Context) := do
  let (dest, c) := c.allocate (.u length)
  if dest.length > src.length then
    .error "Destination cannot be larger than source for bit extract node"
  else
    let srcVreg ← subscript src 0
    let extractIdx := start % srcVreg.type.elementWidth
    extractLoop src length (totalWidth dest) length
      ⟨start / totalWidth src, extractIdx, min (srcVreg.type.elementWidth - extractIdx) length,
        0, 0⟩
      dest c

/-- The loop of `materialise_bit_insert`. -/
def insertLoop (dest : List RegisterOperand) (length bitsTotalWidth : ℕ) :
    ℕ → FieldPos → List RegisterOperand → Context → Except String Context
  | 0, _, _, c => .ok c
  | fuel + 1, p, bits, c =>
    if p.done < length then do
      let bitsVreg ← subscript bits p.fieldIdx
      let bitsVregWidth := bitsVreg.type.elementWidth
      let destVreg ← subscript dest p.i
      let (bitsVreg, c) := c.cast bitsVreg destVreg.type
      let c := c.emit (.bfi destVreg bitsVreg p.idx p.len)
      let done := p.done + p.len
      insertLoop dest length bitsTotalWidth fuel
        ⟨p.i + 1, 0, min (length - done) bitsVregWidth, done, done % bitsTotalWidth⟩
        (bits.set p.fieldIdx bitsVreg) c
    else .ok c

/-- The copies of the source to the destination. -/
def copies (dest src : List RegisterOperand) : List Instr :=
  List.zipWith (fun d s => .mov d (.reg s)) dest src

/-- `materialise_bit_insert`, of a value of this type. -/
def materialiseBitInsert (type : ValueType) (src bits : List RegisterOperand) (toBit length : ℕ)
    (c : Context) : Except String (List RegisterOperand × Context) := do
  let (dest, c) := c.allocate type
  if dest.length ≠ src.length then .error "Source and destination mismatch for bit insert node"
  else
    let c := { c with code := c.code ++ copies dest src }
    let destVreg ← subscript dest 0
    let insertIdx := toBit % destVreg.type.elementWidth
    let c ← insertLoop dest length (totalWidth bits) length
      ⟨toBit / totalWidth dest, insertIdx, min (destVreg.type.elementWidth - insertIdx) length,
        0, 0⟩
      bits c
    return (dest, c)

/-! ## The nodes -/

/-- A field of a value that has more than 64 bits, where the builder accepts the field. `next` is
the number of the next register. What is inserted is another value, or the same. -/
inductive FieldNode
  | extract (next : ℕ) (source : RegValue) (start length : ℕ)
      (h : 64 < source.type.width ∧ source.stop ≤ next)
      (accepted : 0 < start + length ∧ start + length ≤ source.type.width)
  | insert (next : ℕ) (source bits : RegValue) (toBit length : ℕ)
      (h : 64 < source.type.width ∧ source.stop ≤ next ∧ bits.stop ≤ next)
      (apart : bits = source ∨ bits.stop ≤ source.first ∨ source.stop ≤ bits.first)
      (accepted : bits.type.width ≤ source.type.width ∧ length ≤ source.type.width ∧
        0 < toBit + length ∧ toBit + length ≤ source.type.width)

namespace FieldNode

/-- The registers of the result, and the code. -/
def lower : FieldNode → Except String (List RegisterOperand × Context)
  | extract next source start length _ _ =>
    materialiseBitExtract source.regs start length ⟨next, []⟩
  | insert next source bits toBit length _ _ _ =>
    materialiseBitInsert source.type source.regs bits.regs toBit length ⟨next, []⟩

/-- The bit of the result with the number `i` is `b`. -/
def Bit (s : State) (i : ℕ) (b : Bool) : FieldNode → Prop
  | extract _ source start _ _ _ => bitAt source.regs s (start + i) = some b
  | insert _ source bits toBit length _ _ _ =>
    if toBit ≤ i ∧ i < toBit + length then
      if i - toBit < bits.type.width then bitAt bits.regs s (i - toBit) = some b else b = false
    else bitAt source.regs s i = some b

/-- The width of the result. -/
def width : FieldNode → ℕ
  | extract _ _ _ length _ _ => length
  | insert _ source _ _ _ _ _ _ => source.type.width

/-- The code is accepted and gives the result for all contents of the registers. -/
def Right (assigned : ℕ → ℕ) (node : FieldNode) : Prop :=
  ∃ dest c, node.lower = .ok (dest, c) ∧ ∀ s, ∃ s', run assigned c.code s = .ok s' ∧
    ∀ i < node.width, ∃ b, bitAt dest s' i = some b ∧ node.Bit s i b

/-- The field is in the first register, and the copy of a register that is not as long as this one
has been killed. A value that is not a whole number of registers is not there as a whole. -/
def fits (assigned : ℕ → ℕ) : FieldNode → Prop
  | extract next source start length _ _ =>
    length = 0 ∨ (isInteger source.type.typeClass ∧ start + length ≤ 64 ∧
      (32 < length ∨ assigned next = assigned (next + 1)))
  | insert next source bits toBit length _ _ _ =>
    source.type.width % 64 = 0 ∧
      (isInteger source.type.typeClass ∨
        ∀ j < source.type.width / 64, assigned (next + j) = assigned (source.first + j)) ∧
      (length = 0 ∨ (isInteger source.type.typeClass ∧ toBit + length ≤ 64 ∧
        length ≤ bits.type.width ∧
        ∀ r, bits.regs[0]? = some r → r.isFloat = false ∧
          (r.kind = .x ∨ assigned (next + source.type.width / 64) = assigned r.index)))

end FieldNode

/-- A state with these contents. -/
def contents (regs : ℕ → BitVec 64) : State where
  regs
  flags := ⟨false, false, false, false⟩
  mem _ := 0

@[simp]
theorem regs_contents (regs : ℕ → BitVec 64) : (contents regs).regs = regs :=
  rfl

/-! ## Sequences of registers -/

section Sequence

variable {first : ℕ} {type : ValueType}

theorem totalWidth_sequence (h : 64 < type.width) :
    totalWidth (sequence first type) = type.width / 64 * 64 := by
  have hzero := @getElem?_sequence_zero first type
  rw [if_neg h.not_ge] at hzero
  rw [totalWidth, length_sequence_of_lt h, List.head?_eq_getElem?, hzero]
  rfl

theorem subscript_eq_ok {regs : List RegisterOperand} {i : ℕ} {r : RegisterOperand} :
    subscript regs i = .ok r ↔ regs[i]? = some r := by
  rw [subscript]
  cases regs[i]? with
  | none => exact iff_of_false nofun nofun
  | some r' => simp

theorem subscript_sequence_zero (h : 64 < type.width) :
    subscript (sequence first type) 0 = .ok (wideReg type.typeClass first) := by
  rw [subscript_eq_ok, getElem?_sequence_zero, if_neg h.not_ge]

/-- The bits that are there. -/
theorem bitAt_sequence (h : 64 < type.width) (s : State) (i : ℕ) :
    bitAt (sequence first type) s i =
      if i < type.width / 64 * 64 then some ((s.regs (first + i / 64)).getLsbD (i % 64))
      else none := by
  rw [bitAt, getElem?_sequence_of_lt h]
  by_cases hi : i < type.width / 64 * 64
  · rw [if_pos hi, if_pos (by omega)]
    rfl
  · rw [if_neg hi, if_neg (by omega)]
    rfl

theorem bitAt_regs (v : RegValue) (h : 64 < v.type.width) (s : State) (i : ℕ) :
    bitAt v.regs s i = if i < v.type.width / 64 * 64 then
      some ((s.regs (v.first + i / 64)).getLsbD (i % 64)) else none :=
  bitAt_sequence h s i

theorem bitAt_of_getElem? {regs : List RegisterOperand} {s : State} {i : ℕ} {r : RegisterOperand}
    (h : regs[i / 64]? = some r) : bitAt regs s i = some ((s.regs r.index).getLsbD (i % 64)) := by
  rw [bitAt, h]
  rfl

theorem getElem?_of_bitAt {regs : List RegisterOperand} {s : State} {i : ℕ} {b : Bool}
    (h : bitAt regs s i = some b) :
    ∃ r, regs[i / 64]? = some r ∧ b = (s.regs r.index).getLsbD (i % 64) := by
  obtain ⟨r, hr, hb⟩ := Option.map_eq_some_iff.1 h
  exact ⟨r, hr, hb.symm⟩

end Sequence

/-! ## Passes of an extraction -/

section Extract

variable {assigned : ℕ → ℕ} {src : List RegisterOperand} {length total : ℕ}

/-- What all passes emit, and what they leave of the destination. -/
theorem extractLoop_spec : ∀ {fuel : ℕ} {p : FieldPos} {dest dest' : List RegisterOperand}
    {c c' : Context}, extractLoop src length total fuel p dest c = .ok (dest', c') →
      dest'.length = dest.length ∧
      (∃ new, c'.code = c.code ++ new ∧ ∀ i ∈ new, ∀ r < c.next, i.dst ≠ some r) ∧
      (total = length → p.fieldIdx = p.done % length → ∀ j < p.done, dest'[j]? = dest[j]?)
  | 0, p, dest, dest', c, c', h => by
    obtain ⟨rfl, rfl⟩ := Prod.mk.inj (Except.ok.inj h)
    exact ⟨rfl, ⟨[], (List.append_nil _).symm, fun _ hi => absurd hi List.not_mem_nil⟩,
      fun _ _ _ _ => rfl⟩
  | fuel + 1, p, dest, dest', c, c', h => by
    rw [extractLoop] at h
    split_ifs at h with hdone
    · obtain ⟨r, hr, h⟩ := bind_eq_ok.1 h
      obtain ⟨d, hd, h⟩ := bind_eq_ok.1 h
      obtain ⟨hlen, ⟨new, hnew, hdst⟩, hkept⟩ := extractLoop_spec h
      refine ⟨hlen.trans List.length_set, ⟨.mov ⟨c.next, r.type⟩ (.reg d) ::
        .bfxil ⟨c.next, r.type⟩ r p.idx p.len :: new, ?_, ?_⟩, fun htotal hidx j hj => ?_⟩
      · rw [hnew]
        simp only [Context.emit, List.append_assoc, List.cons_append, List.nil_append]
      · intro i hi r hr
        have hnew : some c.next ≠ some r := fun heq => hr.ne' (Option.some.inj heq)
        rcases List.mem_cons.1 hi with rfl | hi
        · exact hnew
        · rcases List.mem_cons.1 hi with rfl | hi
          · exact hnew
          · exact hdst i hi r (hr.trans_le (Nat.le_succ _))
      · subst htotal
        rw [Nat.mod_eq_of_lt hdone] at hidx
        rw [hkept rfl rfl j (hj.trans_le (Nat.le_add_right ..)),
          List.getElem?_set_ne (by omega)]
    · obtain ⟨rfl, rfl⟩ := Prod.mk.inj (Except.ok.inj h)
      exact ⟨rfl, ⟨[], (List.append_nil _).symm, fun _ hi => absurd hi List.not_mem_nil⟩,
      fun _ _ _ _ => rfl⟩

/-- The end of the loop. -/
theorem extractLoop_of_le (fuel : ℕ) {p : FieldPos} (h : length ≤ p.done)
    (dest : List RegisterOperand) (c : Context) :
    extractLoop src length total fuel p dest c = .ok (dest, c) := by
  cases fuel with
  | zero => rfl
  | succ fuel => rw [extractLoop, if_neg h.not_gt]

/-- A pass. -/
theorem extractLoop_pass {fuel : ℕ} {p : FieldPos} {dest : List RegisterOperand} {c : Context}
    {r d : RegisterOperand} (hdone : p.done < length) (hr : src[p.i]? = some r)
    (hd : dest[p.fieldIdx]? = some d) :
    extractLoop src length total (fuel + 1) p dest c =
      extractLoop src length total fuel ⟨p.i + 1, 0,
          min (length - (p.done + p.len)) r.type.elementWidth, p.done + p.len,
          (p.done + p.len) % total⟩
        (dest.set p.fieldIdx ⟨c.next, r.type⟩) ⟨c.next + 1, c.code ++
          [.mov ⟨c.next, r.type⟩ (.reg d), .bfxil ⟨c.next, r.type⟩ r p.idx p.len]⟩ := by
  rw [extractLoop, if_pos hdone, subscript_eq_ok.2 hr, ok_bind, subscript_eq_ok.2 hd, ok_bind]
  simp only [Context.cast, Context.allocateType, Context.emit, List.append_assoc,
    List.cons_append, List.nil_append]

/-- The pass of a loop that has a result. -/
theorem extractLoop_inv {fuel : ℕ} {p : FieldPos} {dest : List RegisterOperand} {c : Context}
    {out : List RegisterOperand × Context} (hdone : p.done < length)
    (h : extractLoop src length total (fuel + 1) p dest c = .ok out) :
    ∃ r d, src[p.i]? = some r ∧ dest[p.fieldIdx]? = some d ∧
      extractLoop src length total fuel ⟨p.i + 1, 0,
          min (length - (p.done + p.len)) r.type.elementWidth, p.done + p.len,
          (p.done + p.len) % total⟩
        (dest.set p.fieldIdx ⟨c.next, r.type⟩) ⟨c.next + 1, c.code ++
          [.mov ⟨c.next, r.type⟩ (.reg d), .bfxil ⟨c.next, r.type⟩ r p.idx p.len]⟩ = .ok out := by
  have hpass := h
  rw [extractLoop, if_pos hdone] at hpass
  obtain ⟨r, hr, hpass⟩ := bind_eq_ok.1 hpass
  obtain ⟨d, hd, -⟩ := bind_eq_ok.1 hpass
  rw [subscript_eq_ok] at hr hd
  rw [extractLoop_pass hdone hr hd] at h
  exact ⟨r, d, hr, hd, h⟩

/-- What the two instructions of a pass do. -/
theorem run_extract_pass {cls : TypeClass} {c r idx len : ℕ} {d : RegisterOperand}
    {code : List Instr} {s s' : State} (hne : r ≠ c)
    (h : run assigned (.mov (wideReg cls c) (.reg d) ::
      .bfxil (wideReg cls c) (wideReg cls r) idx len :: code) s = .ok s') :
    CopyOk assigned cls c d ∧ isInteger cls ∧ ∃ t, run assigned code t = .ok s' ∧
      (∀ x ≠ c, t.regs x = s.regs x) ∧
      t.regs c = insertField (copied cls c d s) 0 len (s.regs r >>> idx) := by
  obtain ⟨t, ht, h⟩ := bind_eq_ok.1 h
  obtain ⟨u, hu, h⟩ := bind_eq_ok.1 h
  have hkept : ∀ x ≠ c, u.regs x = s.regs x := by
    intro x hx
    rw [regs_of_exec hu fun heq => hx (Option.some.inj heq).symm,
      regs_of_exec ht fun heq => hx (Option.some.inj heq).symm]
  rw [exec_mov_wideReg] at ht
  rw [exec_bfxil_wideReg] at hu
  split_ifs at ht with hcopy
  split_ifs at hu with hfield
  obtain rfl := Except.ok.inj ht
  obtain rfl := Except.ok.inj hu
  refine ⟨hcopy, hfield.1.1, _, h, hkept, ?_⟩
  rw [State.regs_set_self, BitVec.setWidth_eq]
  have hself : (s.set (wideReg cls c) (copied cls c d s)).regs c = copied cls c d s :=
    (State.regs_set_self _).trans (BitVec.setWidth_eq _)
  have hother : (s.set (wideReg cls c) (copied cls c d s)).regs r = s.regs r :=
    State.regs_set_of_ne (r := wideReg cls c) hne _
  rw [hself, hother]

/-- A pass that is accepted. -/
theorem run_extract_pass_ok {cls : TypeClass} {c r idx len : ℕ} {d : RegisterOperand}
    (hcopy : CopyOk assigned cls c d) (hint : isInteger cls) (hlen : 0 < len ∧ idx + len ≤ 64)
    (s : State) :
    ∃ s', run assigned [.mov (wideReg cls c) (.reg d),
      .bfxil (wideReg cls c) (wideReg cls r) idx len] s = .ok s' := by
  simp only [run, exec_mov_wideReg, if_pos hcopy, ok_bind, exec_bfxil_wideReg, hint, hlen,
    and_self, if_true]
  exact ⟨_, rfl⟩

end Extract

namespace FieldNode

section Extract

variable {assigned : ℕ → ℕ} {next start length : ℕ} {source : RegValue}

/-- The lowering up to its loop. -/
theorem lower_extract_eq (hwide : 64 < source.type.width)
    (hle : start + length ≤ source.type.width) :
    materialiseBitExtract source.regs start length ⟨next, []⟩ =
      extractLoop source.regs length (totalWidth (sequence next (.u length))) length
        ⟨start / (source.type.width / 64 * 64), start % 64, min (64 - start % 64) length, 0, 0⟩
        (sequence next (.u length)) ⟨next + (sequence next (.u length)).length, []⟩ := by
  have hlen : (sequence next (.u length)).length ≤ source.regs.length := by
    have hw : (ValueType.u length).width = length := Nat.mul_one length
    have hsrc : source.regs.length = source.type.width / 64 := length_sequence_of_lt hwide
    rw [hsrc]
    by_cases h : length ≤ 64
    · rw [sequence_of_le (hw.trans_le h), List.length_singleton]
      omega
    · rw [length_sequence_of_lt (by omega), hw]
      omega
  have hzero : subscript source.regs 0 = .ok (wideReg source.type.typeClass source.first) :=
    subscript_sequence_zero hwide
  have htotal : totalWidth source.regs = source.type.width / 64 * 64 := totalWidth_sequence hwide
  rw [materialiseBitExtract]
  refine (if_neg hlen.not_gt).trans ?_
  rw [hzero, ok_bind, htotal]

variable {h : 64 < source.type.width ∧ source.stop ≤ next}
  {accepted : 0 < start + length ∧ start + length ≤ source.type.width}

/-- A field of the first register. -/
theorem extract_right (hfits : (extract next source start length h accepted).fits assigned) :
    (extract next source start length h accepted).Right assigned := by
  obtain ⟨hwide, hstop⟩ := h
  have hlower := @lower_extract_eq next start length source hwide accepted.2
  rcases Nat.eq_zero_or_pos length with rfl | hpos
  · exact ⟨_, _, hlower, fun s => ⟨s, rfl, nofun⟩⟩
  obtain ⟨hint, hle, hcopy⟩ := hfits.resolve_left hpos.ne'
  have hw : (ValueType.u length).width = length := Nat.mul_one length
  have hdest : sequence next (.u length) = [⟨next, .u length⟩] := sequence_of_le (by omega)
  have hk : 0 < source.type.width / 64 := Nat.div_pos hwide.le (by decide)
  have hsrc : source.regs[0]? = some (wideReg source.type.typeClass source.first) :=
    subscript_eq_ok.1 (subscript_sequence_zero hwide)
  have hmin : min (64 - start % 64) length = length := by omega
  have hdiv : start / (source.type.width / 64 * 64) = 0 := Nat.div_eq_of_lt (by omega)
  have hone : materialiseBitExtract source.regs start length ⟨next, []⟩ =
      .ok ([wideReg source.type.typeClass (next + 1)], ⟨next + 2,
        [.mov (wideReg source.type.typeClass (next + 1)) (.reg ⟨next, .u length⟩),
          .bfxil (wideReg source.type.typeClass (next + 1))
            (wideReg source.type.typeClass source.first) start length]⟩) := by
    obtain ⟨fuel, hfuel⟩ := Nat.exists_eq_succ_of_ne_zero hpos.ne'
    rw [hlower, hdest, hdiv, hmin, Nat.mod_eq_of_lt (by omega : start < 64)]
    conv_lhs => arg 4; rw [hfuel]
    rw [extractLoop_pass hpos hsrc rfl, extractLoop_of_le _ (by exact Nat.le_add_left ..)]
    rfl
  have hfirst : source.first < next := by
    have hlen : 0 < source.regs.length := length_sequence_pos
    exact (Nat.lt_add_of_pos_right hlen).trans_le hstop
  have hcopyOk : CopyOk assigned source.type.typeClass (next + 1) ⟨next, .u length⟩ := by
    refine hcopy.elim (fun hlt => .inr ⟨hint, ?_⟩) fun h => .inl h.symm
    rw [RegisterOperand.kind]
    exact if_pos hlt
  refine ⟨_, _, hone, fun s => ?_⟩
  obtain ⟨s', hs'⟩ := run_extract_pass_ok (r := source.first) hcopyOk hint ⟨hpos, hle⟩ s
  refine ⟨s', hs', fun i hi => ?_⟩
  obtain ⟨-, -, t, ht, -, hreg⟩ := run_extract_pass (by omega) hs'
  obtain rfl := Except.ok.inj ht
  have hi' : i < length := hi
  refine ⟨_, bitAt_of_getElem? (r := wideReg source.type.typeClass (next + 1)) ?_, ?_⟩
  · rw [Nat.div_eq_of_lt (by omega)]
    rfl
  · rw [Bit, bitAt_regs source hwide, if_pos (by omega),
      Nat.div_eq_of_lt (by omega : start + i < 64), Nat.mod_eq_of_lt (by omega : start + i < 64),
      Nat.mod_eq_of_lt (by omega : i < 64)]
    have hbit : (t.regs (next + 1)).getLsbD i = (s.regs source.first).getLsbD (start + i) := by
      rw [hreg, getLsbD_insertField (by omega), if_pos (by omega), Nat.sub_zero,
        BitVec.getLsbD_ushiftRight]
    rw [hbit]
    rfl

theorem first_lt (v : RegValue) (hstop : v.stop ≤ next) : v.first < next := by
  have hlen : 0 < v.regs.length := length_sequence_pos
  exact (Nat.lt_add_of_pos_right hlen).trans_le hstop

/-- The register that the first pass copies to. -/
def firstCopy (next length : ℕ) (source : RegValue) : RegisterOperand :=
  wideReg source.type.typeClass (next + (sequence next (.u length)).length)

/-- The register that the first pass reads. -/
def firstRead (start : ℕ) (source : RegValue) : RegisterOperand :=
  wideReg source.type.typeClass (source.first + start / (source.type.width / 64 * 64))

/-- The rest of a lowering that has a result. -/
theorem extract_inv (hwide : 64 < source.type.width) (hle : start + length ≤ source.type.width)
    (hpos : 0 < length) {out : List RegisterOperand × Context}
    (hlower : materialiseBitExtract source.regs start length ⟨next, []⟩ = .ok out) :
    start / (source.type.width / 64 * 64) < source.type.width / 64 ∧
      ∃ d, (sequence next (.u length))[0]? = some d ∧
        extractLoop source.regs length (totalWidth (sequence next (.u length))) (length - 1)
          ⟨start / (source.type.width / 64 * 64) + 1, 0,
            min (length - min (64 - start % 64) length) 64, min (64 - start % 64) length,
            min (64 - start % 64) length % totalWidth (sequence next (.u length))⟩
          ((sequence next (.u length)).set 0 (firstCopy next length source))
          ⟨(firstCopy next length source).index + 1,
            [.mov (firstCopy next length source) (.reg d),
              .bfxil (firstCopy next length source) (firstRead start source) (start % 64)
                (min (64 - start % 64) length)]⟩ = .ok out := by
  rw [lower_extract_eq hwide hle] at hlower
  obtain ⟨fuel, hfuel⟩ := Nat.exists_eq_succ_of_ne_zero hpos.ne'
  conv at hlower => lhs; arg 4; rw [hfuel]
  obtain ⟨r, d, hr, hd, hloop⟩ := extractLoop_inv hpos hlower
  rw [RegValue.regs, getElem?_sequence_of_lt hwide] at hr
  split_ifs at hr with hi
  obtain rfl := Option.some.inj hr
  simp only [Nat.zero_add, List.nil_append] at hloop
  have hpred : length - 1 = fuel := by omega
  rw [hpred]
  exact ⟨hi, d, hd, hloop⟩

/-- A field of more than 64 bits is not right. -/
theorem length_le_of_right (hright : (extract next source start length h accepted).Right assigned) :
    length ≤ 64 := by
  obtain ⟨hwide, hstop⟩ := h
  obtain ⟨dest, c, hlower, hrun⟩ := hright
  by_contra hlong
  have hw : (ValueType.u length).width = length := Nat.mul_one length
  have hseq : (sequence next (.u length)).length = length / 64 := by
    rw [length_sequence_of_lt (by omega), hw]
  obtain ⟨hi, d, hd, hloop⟩ := extract_inv hwide accepted.2 (by omega) hlower
  obtain ⟨hlen, ⟨new, hcode, hnew⟩, hkept⟩ := extractLoop_spec hloop
  -- the last bit needs a register
  have hmod : length % 64 = 0 := by
    obtain ⟨s', -, hbits⟩ := hrun (contents fun _ => 0)
    obtain ⟨b, hb, -⟩ := hbits (length - 1) (by exact Nat.sub_lt (by omega) Nat.one_pos)
    obtain ⟨r, hr, -⟩ := getElem?_of_bitAt hb
    have hlt := (List.getElem?_eq_some_iff.1 hr).1
    rw [hlen, List.length_set, hseq] at hlt
    omega
  have htotal : totalWidth (sequence next (.u length)) = length := by
    rw [totalWidth_sequence (by omega), hw]
    omega
  have hfirst : ∀ (s : State) (i : ℕ) (b : Bool), bitAt source.regs s i = some b →
      source.first + i / 64 < next ∧ b = (s.regs (source.first + i / 64)).getLsbD (i % 64) := by
    intro s i b hb
    rw [bitAt_regs source hwide] at hb
    split_ifs at hb with hi
    have hstop' : source.first + source.type.width / 64 ≤ next := by
      rw [← @length_sequence_of_lt source.first _ hwide]
      exact hstop
    exact ⟨by omega, (Option.some.inj hb).symm⟩
  rcases Nat.lt_or_ge 1 (min (64 - start % 64) length) with htwo | hone
  · -- the second register of the destination is not written
    have hsecond : dest[1]? = some (wideReg .unsignedInteger (next + 1)) := by
      rw [hkept htotal (by rw [htotal]) 1 htwo, List.getElem?_set_ne (by decide),
        getElem?_sequence_of_lt (by omega), if_pos (by omega)]
      rfl
    obtain ⟨s', hs', hbits⟩ := hrun (contents fun x => if x = next + 1 then 0#64
      else BitVec.allOnes 64)
    obtain ⟨b, hb, hbit⟩ := hbits 64 (Nat.lt_of_not_le hlong)
    have hindex : (firstCopy next length source).index = next + length / 64 :=
      congrArg (next + ·) hseq
    have hkeep : s'.regs (next + 1) = 0#64 := by
      rw [regs_of_run hs' fun i hi => ?_]
      · exact if_pos rfl
      · have hne : some (firstCopy next length source).index ≠ some (next + 1) := fun heq => by
          have := Option.some.inj heq
          omega
        rw [hcode] at hi
        rcases List.mem_append.1 hi with hi | hi
        · rcases List.mem_cons.1 hi with rfl | hi
          · exact hne
          · obtain rfl := List.mem_singleton.1 hi
            exact hne
        · have hbelow : next + 1 < (firstCopy next length source).index + 1 := by omega
          exact hnew i hi _ hbelow
    obtain ⟨hlt, hb'⟩ := hfirst _ _ _ hbit
    have hzero : b = (s'.regs (next + 1)).getLsbD 0 :=
      Option.some.inj (hb.symm.trans (bitAt_of_getElem? (i := 64) hsecond))
    rw [hb', regs_contents, if_neg (by omega), hkeep, BitVec.getLsbD_allOnes, BitVec.getLsbD_zero,
      decide_eq_false_iff_not] at hzero
    exact hzero (Nat.mod_lt _ (by decide))
  · -- the second pass reads the lowest bit of a register, where the top one should be read
    have hidx : start % 64 = 63 := by omega
    have hlen1 : min (64 - start % 64) length = 1 := by omega
    obtain ⟨fuel, hfuel⟩ := Nat.exists_eq_succ_of_ne_zero (by omega : length - 1 ≠ 0)
    rw [hlen1, hfuel, htotal, Nat.mod_eq_of_lt (by omega : 1 < length)] at hloop
    obtain ⟨r, d', hr, hd', hloop⟩ := extractLoop_inv (by exact (by omega : 1 < length)) hloop
    dsimp only at hr hd' hloop
    rw [RegValue.regs, getElem?_sequence_of_lt hwide] at hr
    split_ifs at hr with hi'
    obtain rfl := Option.some.inj hr
    rw [← hfuel, Nat.min_eq_right (by omega : 64 ≤ length - 1)] at hloop
    obtain ⟨-, ⟨new', hcode', hnew'⟩, hkept'⟩ := extractLoop_spec hloop
    have hsecond : dest[1]? =
        some (wideReg source.type.typeClass ((firstCopy next length source).index + 1)) := by
      rw [hkept' rfl rfl 1 (by decide : 1 < 1 + 64), List.getElem?_set_self]
      rw [List.length_set, hseq]
      omega
    obtain ⟨s', hs', hbits⟩ := hrun (contents fun _ => 1#64)
    obtain ⟨b, hb, hbit⟩ := hbits 64 (Nat.lt_of_not_le hlong)
    obtain ⟨hlt, hb'⟩ := hfirst _ _ _ hbit
    rw [hcode'] at hs'
    simp only [List.cons_append, List.nil_append] at hs'
    have hbelow : source.first + (start / (source.type.width / 64 * 64) + 1) < next := by
      have hstop' := hstop
      rw [RegValue.stop, RegValue.regs, length_sequence_of_lt hwide] at hstop'
      omega
    have hindex : (firstCopy next length source).index = next + length / 64 :=
      congrArg (next + ·) hseq
    obtain ⟨-, -, t, ht, hother, -⟩ := run_extract_pass (by omega) hs'
    obtain ⟨-, -, u, hu, -, hself⟩ := run_extract_pass (by omega) ht
    have hkeep : s'.regs ((firstCopy next length source).index + 1) =
        u.regs ((firstCopy next length source).index + 1) :=
      regs_of_run hu fun i hi => hnew' i hi _ (Nat.lt_succ_self _)
    have hgot : b = (s'.regs ((firstCopy next length source).index + 1)).getLsbD 0 :=
      Option.some.inj (hb.symm.trans (bitAt_of_getElem? (i := 64) hsecond))
    rw [hkeep, hself, getLsbD_insertField (by decide), if_pos (by decide), hother _ (by omega),
      hb', regs_contents, BitVec.getLsbD_ushiftRight, BitVec.getLsbD_one,
      BitVec.getLsbD_one, Bool.eq_iff_iff] at hgot
    simp at hgot
    omega

theorem extract_fits (hright : (extract next source start length h accepted).Right assigned) :
    (extract next source start length h accepted).fits assigned := by
  have hle := length_le_of_right hright
  obtain ⟨hwide, hstop⟩ := h
  obtain ⟨dest, c, hlower, hrun⟩ := hright
  rcases Nat.eq_zero_or_pos length with rfl | hpos
  · exact .inl rfl
  have hseq : sequence next (.u length) = [⟨next, .u length⟩] :=
    sequence_of_le ((Nat.mul_one length).trans_le hle)
  obtain ⟨hi, d, hd, hloop⟩ := extract_inv hwide accepted.2 hpos hlower
  rw [hseq] at hd
  obtain rfl := Option.some.inj hd
  have htotal : totalWidth (sequence next (.u length)) = length := by
    rw [hseq]
    exact Nat.one_mul length
  rw [htotal] at hloop
  -- there is a single pass
  have hpass : start % 64 + length ≤ 64 := by
    by_contra hgt
    obtain ⟨fuel, hfuel⟩ := Nat.exists_eq_succ_of_ne_zero (by omega : length - 1 ≠ 0)
    rw [hfuel] at hloop
    obtain ⟨-, d', -, hd', -⟩ := extractLoop_inv
      (by exact (by omega : min (64 - start % 64) length < length)) hloop
    have hlt := (List.getElem?_eq_some_iff.1 hd').1
    rw [List.length_set, hseq, List.length_singleton] at hlt
    dsimp only at hlt
    rw [Nat.mod_eq_of_lt (by omega)] at hlt
    omega
  rw [Nat.min_eq_right (by omega : length ≤ 64 - start % 64),
    extractLoop_of_le _ (by exact le_rfl)] at hloop
  obtain ⟨rfl, rfl⟩ := Prod.mk.inj (Except.ok.inj hloop)
  have hcopy : firstCopy next length source = wideReg source.type.typeClass (next + 1) := by
    rw [firstCopy, hseq]
    rfl
  rw [hcopy, hseq] at hrun
  have hbelow : source.first + source.type.width / 64 ≤ next := by
    rw [← @length_sequence_of_lt source.first _ hwide]
    exact hstop
  obtain ⟨s', hs', hbits⟩ := hrun (contents fun x =>
    if x = source.first + start / 64 then BitVec.allOnes 64 else 0#64)
  obtain ⟨hok, hint, t, ht, -, hreg⟩ := run_extract_pass (by omega) hs'
  obtain rfl := Except.ok.inj ht
  refine .inr ⟨hint, ?_, ?_⟩
  · obtain ⟨b, hb, hbit⟩ := hbits 0 hpos
    rw [Bit, bitAt_regs source hwide] at hbit
    split_ifs at hbit with hin
    have hgot : b = (t.regs (next + 1)).getLsbD 0 := (Option.some.inj hb).symm
    rw [hreg, getLsbD_insertField (by decide), if_pos ⟨le_rfl, by omega⟩, ← Option.some.inj hbit,
      regs_contents, Nat.add_zero, if_pos rfl, Nat.div_eq_of_lt (by omega), Nat.add_zero,
      BitVec.getLsbD_allOnes, BitVec.getLsbD_ushiftRight] at hgot
    by_contra hgt
    rw [if_neg (by omega)] at hgot
    simp [Nat.mod_lt] at hgot
  · refine hok.elim (fun h => .inr h.symm) fun h => .inl ?_
    by_contra hgt
    have hkind : (⟨next, .u length⟩ : RegisterOperand).kind = .w := if_neg hgt
    exact nomatch hkind.symm.trans h.2

end Extract

end FieldNode

/-! ## Passes of an insertion -/

section Insert

variable {assigned : ℕ → ℕ} {dest : List RegisterOperand} {length total : ℕ}

/-- The registers that the passes from a register of the destination on write. -/
theorem insertLoop_spec : ∀ {fuel : ℕ} {p : FieldPos} {bits : List RegisterOperand}
    {c c' : Context}, insertLoop dest length total fuel p bits c = .ok c' →
      ∃ new, c'.code = c.code ++ new ∧ ∀ i ∈ new, ∀ x, i.dst = some x →
        c.next ≤ x ∨ ∃ j, p.i ≤ j ∧ ∃ r, dest[j]? = some r ∧ r.index = x
  | 0, p, bits, c, c', h => by
    obtain rfl := Except.ok.inj h
    exact ⟨[], (List.append_nil _).symm, fun _ hi => absurd hi List.not_mem_nil⟩
  | fuel + 1, p, bits, c, c', h => by
    rw [insertLoop] at h
    split_ifs at h with hdone
    · obtain ⟨b, hb, h⟩ := bind_eq_ok.1 h
      obtain ⟨d, hd, h⟩ := bind_eq_ok.1 h
      obtain ⟨new, hnew, hdst⟩ := insertLoop_spec h
      refine ⟨.mov ⟨c.next, d.type⟩ (.reg b) :: .bfi d ⟨c.next, d.type⟩ p.idx p.len :: new, ?_, ?_⟩
      · rw [hnew]
        simp only [Context.emit, List.append_assoc, List.cons_append, List.nil_append]
      · intro i hi x hx
        rcases List.mem_cons.1 hi with rfl | hi
        · exact .inl (Option.some.inj hx).le
        rcases List.mem_cons.1 hi with rfl | hi
        · exact .inr ⟨p.i, le_rfl, d, subscript_eq_ok.1 hd, Option.some.inj hx⟩
        · rcases hdst i hi x hx with h | ⟨j, hj, r, hr⟩
          · exact .inl ((Nat.le_succ _).trans h)
          · exact .inr ⟨j, (Nat.le_succ _).trans hj, r, hr⟩
    · obtain rfl := Except.ok.inj h
      exact ⟨[], (List.append_nil _).symm, fun _ hi => absurd hi List.not_mem_nil⟩

theorem insertLoop_of_le (fuel : ℕ) {p : FieldPos} (h : length ≤ p.done)
    (bits : List RegisterOperand) (c : Context) :
    insertLoop dest length total fuel p bits c = .ok c := by
  cases fuel with
  | zero => rfl
  | succ fuel => rw [insertLoop, if_neg h.not_gt]

theorem insertLoop_pass {fuel : ℕ} {p : FieldPos} {bits : List RegisterOperand} {c : Context}
    {b d : RegisterOperand} (hdone : p.done < length) (hb : bits[p.fieldIdx]? = some b)
    (hd : dest[p.i]? = some d) :
    insertLoop dest length total (fuel + 1) p bits c =
      insertLoop dest length total fuel ⟨p.i + 1, 0,
          min (length - (p.done + p.len)) b.type.elementWidth, p.done + p.len,
          (p.done + p.len) % total⟩
        (bits.set p.fieldIdx ⟨c.next, d.type⟩) ⟨c.next + 1, c.code ++
          [.mov ⟨c.next, d.type⟩ (.reg b), .bfi d ⟨c.next, d.type⟩ p.idx p.len]⟩ := by
  rw [insertLoop, if_pos hdone, subscript_eq_ok.2 hb, ok_bind, subscript_eq_ok.2 hd, ok_bind]
  simp only [Context.cast, Context.allocateType, Context.emit, List.append_assoc,
    List.cons_append, List.nil_append]

theorem insertLoop_inv {fuel : ℕ} {p : FieldPos} {bits : List RegisterOperand} {c c' : Context}
    (hdone : p.done < length) (h : insertLoop dest length total (fuel + 1) p bits c = .ok c') :
    ∃ b d, bits[p.fieldIdx]? = some b ∧ dest[p.i]? = some d ∧
      insertLoop dest length total fuel ⟨p.i + 1, 0,
          min (length - (p.done + p.len)) b.type.elementWidth, p.done + p.len,
          (p.done + p.len) % total⟩
        (bits.set p.fieldIdx ⟨c.next, d.type⟩) ⟨c.next + 1, c.code ++
          [.mov ⟨c.next, d.type⟩ (.reg b), .bfi d ⟨c.next, d.type⟩ p.idx p.len]⟩ = .ok c' := by
  have hpass := h
  rw [insertLoop, if_pos hdone] at hpass
  obtain ⟨b, hb, hpass⟩ := bind_eq_ok.1 hpass
  obtain ⟨d, hd, -⟩ := bind_eq_ok.1 hpass
  rw [subscript_eq_ok] at hb hd
  rw [insertLoop_pass hdone hb hd] at h
  exact ⟨b, d, hb, hd, h⟩

/-- What the two instructions of a pass do. -/
theorem run_insert_pass {cls : TypeClass} {c d idx len : ℕ} {b : RegisterOperand}
    {code : List Instr} {s s' : State} (hne : d ≠ c)
    (h : run assigned (.mov (wideReg cls c) (.reg b) ::
      .bfi (wideReg cls d) (wideReg cls c) idx len :: code) s = .ok s') :
    CopyOk assigned cls c b ∧ isInteger cls ∧ ∃ t, run assigned code t = .ok s' ∧
      (∀ x, x ≠ c → x ≠ d → t.regs x = s.regs x) ∧ t.regs c = copied cls c b s ∧
      t.regs d = insertField (s.regs d) idx len (copied cls c b s) := by
  obtain ⟨t, ht, h⟩ := bind_eq_ok.1 h
  obtain ⟨u, hu, h⟩ := bind_eq_ok.1 h
  rw [exec_mov_wideReg] at ht
  rw [exec_bfi_wideReg] at hu
  split_ifs at ht with hcopy
  split_ifs at hu with hfield
  obtain rfl := Except.ok.inj ht
  obtain rfl := Except.ok.inj hu
  have hself : (s.set (wideReg cls c) (copied cls c b s)).regs c = copied cls c b s :=
    (State.regs_set_self _).trans (BitVec.setWidth_eq _)
  have hother : ∀ x ≠ c, (s.set (wideReg cls c) (copied cls c b s)).regs x = s.regs x :=
    fun x hx => State.regs_set_of_ne (r := wideReg cls c) hx _
  refine ⟨hcopy, hfield.1.1, _, h, fun x hc hd => ?_, ?_, ?_⟩
  · rw [State.regs_set_of_ne (r := wideReg cls d) hd, hother x hc]
  · rw [State.regs_set_of_ne (r := wideReg cls d) hne.symm, hself]
  · rw [State.regs_set_self, BitVec.setWidth_eq, hself, hother d hne]

/-- A pass that is accepted. -/
theorem run_insert_pass_ok {cls : TypeClass} {c d idx len : ℕ} {b : RegisterOperand}
    (hcopy : CopyOk assigned cls c b) (hint : isInteger cls) (hlen : 0 < len ∧ idx + len ≤ 64)
    (s : State) :
    ∃ s', run assigned [.mov (wideReg cls c) (.reg b),
      .bfi (wideReg cls d) (wideReg cls c) idx len] s = .ok s' := by
  simp only [run, exec_mov_wideReg, if_pos hcopy, ok_bind, exec_bfi_wideReg, hint, hlen,
    and_self, if_true]
  exact ⟨_, rfl⟩

/-- The state after copies between registers with these distances from the first ones. -/
def copyRegs (next first : ℕ) (l : List ℕ) (s : State) : State :=
  { s with regs x := if next ≤ x ∧ x - next ∈ l then s.regs (first + (x - next)) else s.regs x }

/-- The copies between registers of 64 bits with these distances from the first ones. -/
def copyList (cls : TypeClass) (next first : ℕ) (l : List ℕ) : List Instr :=
  l.map fun j => .mov (wideReg cls (next + j)) (.reg (wideReg cls (first + j)))

theorem copyRegs_cons (cls : TypeClass) {next first j : ℕ} {l : List ℕ} (s : State)
    (hl : ∀ j ∈ l, first + j < next) :
    copyRegs next first l (s.set (wideReg cls (next + j)) (s.regs (first + j))) =
      copyRegs next first (j :: l) s := by
  refine State.ext (funext fun x => ?_) rfl rfl
  have hset : ∀ y, (s.set (wideReg cls (next + j)) (s.regs (first + j))).regs y =
      if y = next + j then s.regs (first + j) else s.regs y := by
    intro y
    rw [State.set, BitVec.setWidth_eq]
    exact Function.update_apply ..
  simp only [copyRegs, hset, List.mem_cons]
  by_cases hx : next ≤ x ∧ x - next ∈ l
  · have hlt := hl _ hx.2
    rw [if_pos hx, if_neg (by omega), if_pos ⟨hx.1, .inr hx.2⟩]
  · rw [if_neg hx]
    by_cases hj : x = next + j
    · rw [if_pos hj, if_pos ⟨by omega, .inl (by omega)⟩]
      exact congrArg s.regs (by omega)
    · rw [if_neg hj, if_neg fun h => h.2.elim (fun h' => hj (by omega)) fun h' => hx ⟨h.1, h'⟩]

theorem run_copies (assigned : ℕ → ℕ) (cls : TypeClass) {next first : ℕ} {code : List Instr} :
    ∀ {l : List ℕ} (s : State), (∀ j ∈ l, first + j < next) →
      run assigned (copyList cls next first l ++ code) s =
        if ∀ j ∈ l, CopyOk assigned cls (next + j) (wideReg cls (first + j)) then
          run assigned code (copyRegs next first l s)
        else .error invalidOperand
  | [], s, _ => by
    rw [if_pos fun _ hj => absurd hj List.not_mem_nil]
    refine congrArg (run assigned code) (State.ext (funext fun x => ?_) rfl rfl)
    exact (if_neg fun hx => List.not_mem_nil hx.2).symm
  | j :: l, s, hl => by
    have hl' : ∀ j ∈ l, first + j < next := fun j hj => hl j (List.mem_cons_of_mem _ hj)
    have hcopied : copied cls (next + j) (wideReg cls (first + j)) s = s.regs (first + j) :=
      if_pos rfl
    rw [copyList, List.map_cons, List.cons_append, run, exec_mov_wideReg, hcopied,
      ← copyRegs_cons cls s hl']
    by_cases hj : CopyOk assigned cls (next + j) (wideReg cls (first + j))
    · rw [if_pos hj, ok_bind]
      refine (run_copies assigned cls _ hl').trans (if_congr ?_ rfl rfl)
      rw [List.forall_mem_cons]
      exact (and_iff_right hj).symm
    · rw [if_neg hj, if_neg fun h => hj (h j List.mem_cons_self)]
      rfl

theorem regs_copyRegs {next first k j : ℕ} (hj : j < k) (s : State) :
    (copyRegs next first (List.range k) s).regs (next + j) = s.regs (first + j) := by
  have hsub : next + j - next = j := Nat.add_sub_cancel_left next j
  exact (if_pos ⟨Nat.le_add_right .., hsub.symm ▸ List.mem_range.2 hj⟩).trans
    (congrArg (fun x => s.regs (first + x)) hsub)

theorem regs_copyRegs_of_outside {next first k x : ℕ} (hx : x < next ∨ next + k ≤ x) (s : State) :
    (copyRegs next first (List.range k) s).regs x = s.regs x := by
  refine if_neg fun hin => ?_
  have := List.mem_range.1 hin.2
  omega

/-- The copies of the registers of a value. -/
theorem copies_sequence {next first : ℕ} {type : ValueType} (h : 64 < type.width) :
    copies (sequence next type) (sequence first type) =
      copyList type.typeClass next first (List.range (type.width / 64)) := by
  rw [copies, sequence_of_lt h, sequence_of_lt h, List.zipWith_map, List.zipWith_self]
  rfl

/-- Passes that read zeros write zeros, where the first register of the field is not read. -/
theorem insertLoop_zero (assigned : ℕ → ℕ) (cls : TypeClass) (P : ℕ → Prop)
    (hdest : ∀ i r, 0 < i → dest[i]? = some r → ∃ x, r = wideReg cls x ∧ P x)
    (htotal : length ≤ total) :
    ∀ {fuel : ℕ} {p : FieldPos} {bits : List RegisterOperand} {c c' : Context},
      insertLoop dest length total fuel p bits c = .ok c' →
      0 < p.i → 0 < p.done → (p.done < length → p.fieldIdx = p.done) →
      (∀ j r, 0 < j → bits[j]? = some r → P r.index) → (∀ x, c.next ≤ x → P x) →
      (∀ i r, 0 < i → dest[i]? = some r → r.index < c.next) →
      ∃ new, c'.code = c.code ++ new ∧ ∀ s s', run assigned new s = .ok s' →
        (∀ x, P x → s.regs x = 0#64) → ∀ x, P x → s'.regs x = 0#64
  | 0, p, bits, c, c', h, _, _, _, _, _, _ => by
    obtain rfl := Except.ok.inj h
    refine ⟨[], (List.append_nil _).symm, fun s s' hs hzero => ?_⟩
    obtain rfl := Except.ok.inj hs
    exact hzero
  | fuel + 1, p, bits, c, c', h, hi, hpos, hidx, hbits, hnext, hbelow => by
    by_cases hdone : p.done < length
    · obtain ⟨b, d, hb, hd, hloop⟩ := insertLoop_inv hdone h
      obtain ⟨y, rfl, hy⟩ := hdest _ d hi hd
      have hb' : P b.index := hbits _ b (by rw [hidx hdone]; exact hpos) hb
      have hlt : y < c.next := hbelow _ _ hi hd
      obtain ⟨new, hnew, hzero⟩ := insertLoop_zero assigned cls P hdest htotal hloop
        (Nat.succ_pos _) (by exact Nat.add_pos_left hpos _)
        (fun hdone' => Nat.mod_eq_of_lt (by exact Nat.lt_of_lt_of_le hdone' htotal))
        (fun j r hj hr => by
          rw [List.getElem?_set] at hr
          split_ifs at hr
          · rw [← Option.some.inj hr]
            exact hnext _ le_rfl
          · exact hbits j r hj hr)
        (fun x hx => hnext x (Nat.le_of_succ_le hx))
        (fun i r hi hr => Nat.lt_succ_of_lt (hbelow i r hi hr))
      refine ⟨_, by rw [hnew, List.append_assoc], fun s s' hs hs0 => ?_⟩
      obtain ⟨-, -, t, ht, hother, hc, hd'⟩ := run_insert_pass hlt.ne hs
      have hcopied : copied cls c.next b s = 0#64 := by
        rw [copied]
        split_ifs
        · exact hs0 _ hb'
        · exact hs0 _ (hnext _ le_rfl)
      refine hzero t s' ht fun x hx => ?_
      by_cases hxc : x = c.next
      · rw [hxc, hc, hcopied]
      · by_cases hxd : x = y
        · rw [hxd, hd', hcopied, hs0 y hy]
          exact insertField_zero_zero _ _
        · rw [hother x hxc hxd, hs0 x hx]
    · rw [insertLoop_of_le _ (Nat.le_of_not_lt hdone)] at h
      obtain rfl := Except.ok.inj h
      refine ⟨[], (List.append_nil _).symm, fun s s' hs hzero => ?_⟩
      obtain rfl := Except.ok.inj hs
      exact hzero

/-- What the copies and the first pass do. -/
theorem run_first (code : List Instr) {cls : TypeClass} {next first k idx len : ℕ}
    {b : RegisterOperand} {s s' : State} (hk : 0 < k) (hfirst : first + k ≤ next)
    (hb : b.index < next)
    (h : run assigned (copyList cls next first (List.range k) ++
      (.mov (wideReg cls (next + k)) (.reg b) ::
        .bfi (wideReg cls next) (wideReg cls (next + k)) idx len :: code)) s = .ok s') :
    CopyOk assigned cls (next + k) b ∧ isInteger cls ∧ ∃ t, run assigned code t = .ok s' ∧
      t.regs next = insertField (s.regs first) idx len (copied cls (next + k) b s) ∧
      t.regs (next + k) = copied cls (next + k) b s ∧
      (∀ j, 0 < j → j < k → t.regs (next + j) = s.regs (first + j)) ∧
      ∀ x, x < next ∨ next + k < x → t.regs x = s.regs x := by
  have hbelow : ∀ j ∈ List.range k, first + j < next := fun j hj => by
    have := List.mem_range.1 hj
    omega
  rw [run_copies assigned cls s hbelow] at h
  split_ifs at h
  have hcopied : copied cls (next + k) b (copyRegs next first (List.range k) s) =
      copied cls (next + k) b s := by
    rw [copied, copied, regs_copyRegs_of_outside (.inl hb), regs_copyRegs_of_outside (.inr le_rfl)]
  obtain ⟨hok, hint, t, ht, hother, htemp, hdest⟩ := run_insert_pass (by omega) h
  rw [hcopied] at htemp hdest
  refine ⟨hok, hint, t, ht, ?_, htemp, fun j hpos hj => ?_, fun x hx => ?_⟩
  · rw [hdest]
    exact congrArg (insertField · idx len _) (regs_copyRegs hk s)
  · rw [hother _ (by omega) (by omega), regs_copyRegs hj]
  · rw [hother _ (by omega) (by omega), regs_copyRegs_of_outside (by omega)]

end Insert

namespace FieldNode

section Insert

variable {assigned : ℕ → ℕ} {next toBit length : ℕ} {source bits : RegValue}

/-- The lowering up to its loop. -/
theorem lower_insert_eq (hwide : 64 < source.type.width) :
    materialiseBitInsert source.type source.regs bits.regs toBit length ⟨next, []⟩ =
      (insertLoop (sequence next source.type) length (totalWidth bits.regs) length
        ⟨toBit / (source.type.width / 64 * 64), toBit % 64, min (64 - toBit % 64) length, 0, 0⟩
        bits.regs ⟨next + source.type.width / 64, copyList source.type.typeClass next source.first
          (List.range (source.type.width / 64))⟩ >>=
        fun c => .ok (sequence next source.type, c)) := by
  have hlen : (sequence next source.type).length = source.type.width / 64 :=
    length_sequence_of_lt hwide
  have hsrc : source.regs.length = source.type.width / 64 := length_sequence_of_lt hwide
  rw [materialiseBitInsert]
  refine (if_neg (not_not.2 (hlen.trans hsrc.symm))).trans ?_
  change (subscript (sequence next source.type) 0 >>= _) = _
  rw [subscript_sequence_zero hwide, ok_bind, ← copies_sequence hwide, ← totalWidth_sequence hwide,
    ← hlen]
  rfl

theorem getElem?_regs_zero (v : RegValue) : ∃ r, v.regs[0]? = some r ∧ r.index = v.first := by
  have hzero : v.regs[0]? = some _ := getElem?_sequence_zero
  exact ⟨_, hzero, rfl⟩

/-- The rest of a lowering that has a result. -/
theorem insert_inv (hwide : 64 < source.type.width) (hmod : source.type.width % 64 = 0)
    (hle : toBit + length ≤ source.type.width) (hpos : 0 < length)
    {dest : List RegisterOperand} {c : Context}
    (hlower : materialiseBitInsert source.type source.regs bits.regs toBit length ⟨next, []⟩ =
      .ok (dest, c)) :
    dest = sequence next source.type ∧ ∃ b, bits.regs[0]? = some b ∧ b.index = bits.first ∧
      insertLoop (sequence next source.type) length (totalWidth bits.regs) (length - 1)
        ⟨1, 0, min (length - min (64 - toBit % 64) length) b.type.elementWidth,
          min (64 - toBit % 64) length, min (64 - toBit % 64) length % totalWidth bits.regs⟩
        (bits.regs.set 0 (wideReg source.type.typeClass (next + source.type.width / 64)))
        ⟨next + source.type.width / 64 + 1,
          copyList source.type.typeClass next source.first (List.range (source.type.width / 64)) ++
            [.mov (wideReg source.type.typeClass (next + source.type.width / 64)) (.reg b),
              .bfi (wideReg source.type.typeClass next)
                (wideReg source.type.typeClass (next + source.type.width / 64)) (toBit % 64)
                (min (64 - toBit % 64) length)]⟩ = .ok c := by
  rw [lower_insert_eq hwide] at hlower
  obtain ⟨c', hloop, hout⟩ := bind_eq_ok.1 hlower
  obtain ⟨rfl, rfl⟩ := Prod.mk.inj (Except.ok.inj hout)
  obtain ⟨fuel, hfuel⟩ := Nat.exists_eq_succ_of_ne_zero hpos.ne'
  conv at hloop => lhs; arg 4; rw [hfuel]
  obtain ⟨b, d, hb, hd, hloop⟩ := insertLoop_inv hpos hloop
  have hdiv : toBit / (source.type.width / 64 * 64) = 0 := Nat.div_eq_of_lt (by omega)
  have hk : 0 < source.type.width / 64 := Nat.div_pos hwide.le (by decide)
  rw [hdiv, getElem?_sequence_of_lt hwide, if_pos hk] at hd
  obtain rfl := Option.some.inj hd
  simp only [Nat.zero_add, hdiv] at hloop
  have hpred : length - 1 = fuel := by omega
  rw [hpred]
  exact ⟨rfl, b, hb, (index_of_getElem? hb).1, hloop⟩

variable {h : 64 < source.type.width ∧ source.stop ≤ next ∧ bits.stop ≤ next}
  {apart : bits = source ∨ bits.stop ≤ source.first ∨ source.stop ≤ bits.first}
  {accepted : bits.type.width ≤ source.type.width ∧ length ≤ source.type.width ∧
    0 < toBit + length ∧ toBit + length ≤ source.type.width}

/-- A field of the first register. -/
theorem insert_right
    (hfits : (insert next source bits toBit length h apart accepted).fits assigned) :
    (insert next source bits toBit length h apart accepted).Right assigned := by
  obtain ⟨hwide, hstop, hbits⟩ := h
  obtain ⟨hmod, hcopies, hfield⟩ := hfits
  have hlower := @lower_insert_eq next toBit length source bits hwide
  have hbelow : source.first + source.type.width / 64 ≤ next := by
    rw [← @length_sequence_of_lt source.first _ hwide]
    exact hstop
  have hok : ∀ j ∈ List.range (source.type.width / 64), CopyOk assigned source.type.typeClass
      (next + j) (wideReg source.type.typeClass (source.first + j)) := fun j hj =>
    hcopies.elim (fun hint => .inr ⟨hint, kind_wideReg_eq_x.2 hint⟩)
      fun h => .inl (h j (List.mem_range.1 hj))
  have hrange : ∀ j ∈ List.range (source.type.width / 64), source.first + j < next :=
    fun j hj => by
      have := List.mem_range.1 hj
      omega
  rcases Nat.eq_zero_or_pos length with rfl | hpos
  · rw [insertLoop_of_le _ (Nat.zero_le _), ok_bind] at hlower
    refine ⟨_, _, hlower, fun s => ⟨copyRegs next source.first
      (List.range (source.type.width / 64)) s, ?_, fun i hi => ?_⟩⟩
    · refine (congrArg (run assigned · s) (List.append_nil _).symm).trans ?_
      exact (run_copies assigned source.type.typeClass s hrange).trans (if_pos hok)
    · have hi' : i < source.type.width := hi
      rw [bitAt_sequence hwide, if_pos (by omega)]
      refine ⟨_, rfl, ?_⟩
      rw [Bit, if_neg (by omega), RegValue.regs, bitAt_sequence hwide, if_pos (by omega),
        regs_copyRegs (by omega)]
  · obtain ⟨hint, hto, hlen, hbit⟩ := hfield.resolve_left hpos.ne'
    obtain ⟨b, hb, hindex⟩ := getElem?_regs_zero bits
    obtain ⟨hfloat, hkind⟩ := hbit b hb
    have hk : 0 < source.type.width / 64 := Nat.div_pos hwide.le (by decide)
    have hmin : min (64 - toBit % 64) length = length := by omega
    have hdiv : toBit / (source.type.width / 64 * 64) = 0 := Nat.div_eq_of_lt (by omega)
    obtain ⟨fuel, hfuel⟩ := Nat.exists_eq_succ_of_ne_zero hpos.ne'
    have hd : (sequence next source.type)[0]? = some (wideReg source.type.typeClass next) := by
      rw [getElem?_sequence_of_lt hwide, if_pos hk]
      rfl
    conv at hlower => rhs; lhs; arg 4; rw [hfuel]
    rw [hdiv, hmin, Nat.mod_eq_of_lt (by omega : toBit < 64), insertLoop_pass hpos hb hd,
      insertLoop_of_le _ (by exact Nat.le_add_left ..), ok_bind] at hlower
    have hcopyOk : CopyOk assigned source.type.typeClass (next + source.type.width / 64) b :=
      hkind.elim (fun hx => .inr ⟨hint, hx⟩) .inl
    refine ⟨_, _, hlower, fun s => ?_⟩
    obtain ⟨s', hs'⟩ := @run_insert_pass_ok assigned _ _ next toBit length b hcopyOk hint
      ⟨hpos, hto⟩ (copyRegs next source.first (List.range (source.type.width / 64)) s)
    have hrun := (run_copies assigned source.type.typeClass s hrange).trans
      ((if_pos hok).trans hs')
    refine ⟨s', hrun, fun i hi => ?_⟩
    have hbnext : b.index < next := hindex.trans_lt (first_lt bits hbits)
    obtain ⟨-, -, t, ht, hzero, -, hupper, -⟩ := run_first _ hk hbelow hbnext hrun
    obtain rfl := Except.ok.inj ht
    have hcopied : copied source.type.typeClass (next + source.type.width / 64) b s =
        s.regs b.index := by
      rw [copied, hfloat, isFloat_of_isInteger hint, if_pos rfl]
    rw [hcopied] at hzero
    have hi' : i < source.type.width := hi
    rw [bitAt_sequence hwide, if_pos (by omega)]
    refine ⟨_, rfl, ?_⟩
    rw [Bit]
    by_cases hin : toBit ≤ i ∧ i < toBit + length
    · have hreg : bits.regs[(i - toBit) / 64]? = some b := by
        rw [Nat.div_eq_of_lt (by omega), hb]
      rw [if_pos hin, if_pos (by omega), bitAt_of_getElem? hreg,
        Nat.mod_eq_of_lt (by omega : i - toBit < 64), Nat.div_eq_of_lt (by omega : i < 64),
        Nat.mod_eq_of_lt (by omega : i < 64), Nat.add_zero, hzero,
        getLsbD_insertField (by omega), if_pos hin]
    · rw [if_neg hin, bitAt_regs source hwide, if_pos (by omega)]
      rcases Nat.lt_or_ge i 64 with hlow | hhigh
      · rw [Nat.div_eq_of_lt hlow, Nat.mod_eq_of_lt hlow, Nat.add_zero, Nat.add_zero, hzero,
          getLsbD_insertField hlow, if_neg hin]
      · rw [hupper _ (by omega) (by omega)]

/-- The copies, which are accepted, and the last bit. -/
theorem insert_copies
    (hright : (insert next source bits toBit length h apart accepted).Right assigned) :
    source.type.width % 64 = 0 ∧ ∀ j < source.type.width / 64, CopyOk assigned
      source.type.typeClass (next + j) (wideReg source.type.typeClass (source.first + j)) := by
  obtain ⟨hwide, hstop, hbits⟩ := h
  obtain ⟨dest, c, hlower, hrun⟩ := hright
  have hbelow : ∀ j ∈ List.range (source.type.width / 64), source.first + j < next := by
    intro j hj
    have hlt := List.mem_range.1 hj
    have hstop' := hstop
    rw [RegValue.stop, RegValue.regs, length_sequence_of_lt hwide] at hstop'
    omega
  obtain ⟨s', hs', hbit⟩ := hrun (contents fun _ => 0)
  have hlower' : _ = Except.ok (dest, c) := (lower_insert_eq hwide).symm.trans hlower
  obtain ⟨c', hloop, hout⟩ := bind_eq_ok.1 hlower'
  obtain ⟨rfl, rfl⟩ := Prod.mk.inj (Except.ok.inj hout)
  obtain ⟨new, hnew, -⟩ := insertLoop_spec hloop
  rw [hnew, run_copies _ _ _ hbelow] at hs'
  split_ifs at hs' with hok
  refine ⟨?_, fun j hj => hok j (List.mem_range.2 hj)⟩
  obtain ⟨b, hb, -⟩ := hbit (source.type.width - 1) (Nat.sub_lt source.pos Nat.one_pos)
  rw [bitAt_sequence hwide] at hb
  split_ifs at hb
  omega

/-- What the first pass leaves, and what is left to run. -/
theorem insert_first (hpos : 0 < length)
    (hright : (insert next source bits toBit length h apart accepted).Right assigned) :
    ∃ b c code new, bits.regs[0]? = some b ∧ b.index = bits.first ∧
      CopyOk assigned source.type.typeClass (next + source.type.width / 64) b ∧
      isInteger source.type.typeClass ∧
      insertLoop (sequence next source.type) length (totalWidth bits.regs) (length - 1)
        ⟨1, 0, min (length - min (64 - toBit % 64) length) b.type.elementWidth,
          min (64 - toBit % 64) length, min (64 - toBit % 64) length % totalWidth bits.regs⟩
        (bits.regs.set 0 (wideReg source.type.typeClass (next + source.type.width / 64)))
        ⟨next + source.type.width / 64 + 1, code⟩ = .ok c ∧ c.code = code ++ new ∧
      ∀ s, ∃ t s', run assigned new t = .ok s' ∧
        t.regs next = insertField (s.regs source.first) (toBit % 64) (min (64 - toBit % 64) length)
          (copied source.type.typeClass (next + source.type.width / 64) b s) ∧
        t.regs (next + source.type.width / 64) =
          copied source.type.typeClass (next + source.type.width / 64) b s ∧
        (∀ j, 0 < j → j < source.type.width / 64 →
          t.regs (next + j) = s.regs (source.first + j)) ∧
        (∀ x, x < next ∨ next + source.type.width / 64 < x → t.regs x = s.regs x) ∧
        ∀ i < source.type.width,
          (insert next source bits toBit length h apart accepted).Bit s i
            ((s'.regs (next + i / 64)).getLsbD (i % 64)) := by
  obtain ⟨hmod, -⟩ := insert_copies hright
  obtain ⟨hwide, hstop, hbits⟩ := h
  obtain ⟨dest, c, hlower, hrun⟩ := hright
  have hbelow : source.first + source.type.width / 64 ≤ next := by
    rw [← @length_sequence_of_lt source.first _ hwide]
    exact hstop
  have hk : 0 < source.type.width / 64 := Nat.div_pos hwide.le (by decide)
  obtain ⟨rfl, b, hb, hindex, hloop⟩ := insert_inv hwide hmod accepted.2.2.2 hpos hlower
  have hbnext : b.index < next := hindex.trans_lt (first_lt bits hbits)
  obtain ⟨new, hnew, -⟩ := insertLoop_spec hloop
  have hfirst : ∀ s s', run assigned c.code s = .ok s' → _ := fun s s' hs =>
    run_first new hk hbelow hbnext (by
      rw [hnew, List.append_assoc] at hs
      exact hs)
  obtain ⟨s₀, hs₀, -⟩ := hrun (contents fun _ => 0)
  obtain ⟨hok, hint, -⟩ := hfirst _ _ hs₀
  refine ⟨b, c, _, new, hb, hindex, hok, hint, hloop, hnew, fun s => ?_⟩
  obtain ⟨s', hs', hbit⟩ := hrun s
  obtain ⟨-, -, t, ht, hzero, htemp, hupper, hother⟩ := hfirst _ _ hs'
  refine ⟨t, s', ht, hzero, htemp, hupper, hother, fun i hi => ?_⟩
  obtain ⟨v, hv, hbit⟩ := hbit i hi
  rw [bitAt_sequence hwide, if_pos (by omega)] at hv
  rw [Option.some.inj hv]
  exact hbit

/-- The passes leave the registers before theirs. -/
theorem regs_of_loop {m : ℕ} {type : ValueType} {total fuel : ℕ} {p : FieldPos}
    {regs : List RegisterOperand} {code new : List Instr} {c : Context} {t s' : State}
    (hloop : insertLoop (sequence next type) length total fuel p regs ⟨m, code⟩ = .ok c)
    (hcode : c.code = code ++ new) (hrun : run assigned new t = .ok s') {j : ℕ} (hj : j < p.i)
    (hjm : next + j < m) : s'.regs (next + j) = t.regs (next + j) := by
  obtain ⟨new', hnew, hdst⟩ := insertLoop_spec hloop
  obtain rfl := List.append_cancel_left (hcode.symm.trans hnew)
  refine regs_of_run hrun fun i hi heq => ?_
  rcases hdst i hi _ heq with hge | ⟨m, hm, r, hr, hindex⟩
  · exact absurd hge hjm.not_ge
  · have := (index_of_getElem? hr).1
    omega

/-- A field that starts in an upper register is not right. -/
theorem insert_lt (hpos : 0 < length)
    (hright : (insert next source bits toBit length h apart accepted).Right assigned) :
    toBit < 64 := by
  obtain ⟨hmod, -⟩ := insert_copies hright
  obtain ⟨b, c, code, new, hb, hindex, -, hint, hloop, hcode, hregs⟩ := insert_first hpos hright
  obtain ⟨hwide, hstop, hbits⟩ := h
  have hbelow : source.first + source.type.width / 64 ≤ next := by
    rw [← @length_sequence_of_lt source.first _ hwide]
    exact hstop
  have hk : 1 < source.type.width / 64 := by omega
  by_contra hge
  by_cases hsame : bits = source
  · -- the field reads the lowest bit of its value only in the first pass
    subst hsame
    let P (x : ℕ) : Prop := x ≠ bits.first ∧ x ≠ next ∧ x ≠ next + bits.type.width / 64
    have hlt := first_lt bits hbits
    have htotal : totalWidth bits.regs = bits.type.width / 64 * 64 := totalWidth_sequence hwide
    obtain ⟨new', hnew, hzero⟩ := insertLoop_zero assigned bits.type.typeClass P
      (fun i r hi hr => by
        rw [getElem?_sequence_of_lt hwide] at hr
        split_ifs at hr with hik
        exact ⟨next + i, (Option.some.inj hr).symm, by omega, by omega, by omega⟩)
      (by omega) hloop Nat.one_pos (by exact (by omega : 0 < min (64 - toBit % 64) length))
      (fun hdone => Nat.mod_eq_of_lt (by
        exact hdone.trans_le (by omega)))
      (fun j r hj hr => by
        rw [List.getElem?_set_ne hj.ne, RegValue.regs, getElem?_sequence_of_lt hwide] at hr
        split_ifs at hr with hjk
        rw [← Option.some.inj hr]
        exact ⟨by simp; omega, by simp; omega, by simp; omega⟩)
      (fun x hx => by
        have hx' : next + bits.type.width / 64 + 1 ≤ x := hx
        exact ⟨by omega, by omega, by omega⟩)
      (fun i r hi hr => by
        obtain ⟨hri, hlen⟩ := index_of_getElem? hr
        rw [length_sequence_of_lt hwide] at hlen
        exact (by omega : r.index < next + bits.type.width / 64 + 1))
    obtain rfl := List.append_cancel_left (hcode.symm.trans hnew)
    obtain ⟨t, s', hrun, -, -, hupper, hother, hbit⟩ := hregs (contents fun x =>
      if x = bits.first then 1#64 else 0#64)
    have hkept : s'.regs (next + toBit / 64) = 0#64 := by
      refine hzero t s' hrun (fun x hx => ?_) _ ⟨by omega, by omega, by omega⟩
      rcases Nat.lt_or_ge x next with hlow | hhigh
      · rw [hother x (.inl hlow), regs_contents, if_neg hx.1]
      · rcases Nat.lt_or_ge x (next + bits.type.width / 64) with hmid | htop
        · obtain ⟨j, rfl⟩ := Nat.exists_eq_add_of_le hhigh
          rw [hupper j (by have := hx.2.1; omega) (by omega), regs_contents, if_neg]
          have := hx.2.1
          omega
        · rw [hother x (.inr (by have := hx.2.2; omega)), regs_contents, if_neg hx.1]
    have hgot := hbit toBit (by omega)
    rw [Bit, if_pos ⟨le_rfl, by omega⟩, Nat.sub_self, if_pos bits.pos,
      bitAt_of_getElem? (i := 0) hb, hkept, hindex, regs_contents, if_pos rfl,
      BitVec.getLsbD_zero] at hgot
    exact absurd hgot (by decide)
  · -- the lowest bits of the first register are written
    have hout : bits.first < source.first ∨ source.first + source.type.width / 64 ≤ bits.first := by
      have hb' := (List.getElem?_eq_some_iff.1 hb).1
      have hlen : source.regs.length = source.type.width / 64 := length_sequence_of_lt hwide
      have hb : bits.stop = bits.first + bits.regs.length := rfl
      have hsource : source.stop = source.first + source.regs.length := rfl
      rcases apart.resolve_left hsame with h | h
      · exact .inl (by omega)
      · exact .inr (by omega)
    let f (x : ℕ) : BitVec 64 :=
      if source.first ≤ x ∧ x < source.first + source.type.width / 64 then 0#64
      else BitVec.allOnes 64
    have hbits' : f bits.first = BitVec.allOnes 64 := if_neg (by omega)
    have htemp : f (next + source.type.width / 64) = BitVec.allOnes 64 := if_neg (by omega)
    obtain ⟨t, s', hrun, hzero, -, -, -, hbit⟩ := hregs (contents f)
    have hcopied : copied source.type.typeClass (next + source.type.width / 64) b (contents f) =
        BitVec.allOnes 64 := by
      rw [copied, hindex, regs_contents, hbits', htemp, ite_self]
    have hsource : f source.first = 0#64 := if_pos ⟨le_rfl, by omega⟩
    have hgot := hbit (toBit % 64) (by omega)
    have hdiv : toBit % 64 / 64 = 0 := by omega
    have hmin : 0 < min (64 - toBit % 64) length := by omega
    have hkept := regs_of_loop hloop hcode hrun Nat.one_pos (by omega)
    rw [Bit, if_neg (by omega), bitAt_regs source hwide, if_pos (by omega), hdiv, hkept,
      Nat.add_zero, Nat.add_zero, hzero, hcopied, Nat.mod_mod, getLsbD_insertField (by omega),
      if_pos ⟨le_rfl, by omega⟩, regs_contents, hsource, Nat.sub_self, BitVec.getLsbD_zero] at hgot
    exact absurd hgot (by decide)

theorem elementWidth_regs_pos (v : RegValue) {r : RegisterOperand} (hr : v.regs[0]? = some r) :
    0 < r.type.elementWidth := by
  rw [RegValue.regs, getElem?_sequence_zero] at hr
  rw [← Option.some.inj hr]
  split_ifs
  · exact Nat.pos_of_ne_zero fun hzero => v.pos.ne' (by rw [ValueType.width, hzero, Nat.zero_mul])
  · exact Nat.succ_pos 63

/-- A field that ends in an upper register is not right. -/
theorem insert_le (hpos : 0 < length)
    (hright : (insert next source bits toBit length h apart accepted).Right assigned) :
    toBit + length ≤ 64 := by
  have hlt := insert_lt hpos hright
  obtain ⟨hmod, -⟩ := insert_copies hright
  obtain ⟨b, c, code, new, hb, hindex, -, hint, hloop, hcode, hregs⟩ := insert_first hpos hright
  obtain ⟨hwide, hstop, hbits⟩ := h
  have hk : 1 < source.type.width / 64 := by omega
  by_contra hgt
  have hidx : toBit % 64 = toBit := Nat.mod_eq_of_lt hlt
  have hlen : min (64 - toBit % 64) length = 64 - toBit := by omega
  rw [hlen] at hloop
  obtain ⟨fuel, hfuel⟩ := Nat.exists_eq_succ_of_ne_zero (by omega : length - 1 ≠ 0)
  rw [hfuel] at hloop
  obtain ⟨b', d, hb', hd, hloop⟩ := insertLoop_inv (by exact (by omega : 64 - toBit < length)) hloop
  dsimp only at hb' hd hloop
  rw [getElem?_sequence_of_lt hwide, if_pos hk] at hd
  obtain rfl := Option.some.inj hd
  obtain ⟨new', hnew, -⟩ := insertLoop_spec hloop
  obtain rfl : new = _ :: _ :: new' := List.append_cancel_left
    (hcode.symm.trans (hnew.trans (List.append_assoc _ _ _)))
  -- the second pass reads the lowest bit of a register that is not the one to read
  let f (x : ℕ) : BitVec 64 :=
    if x = bits.first + (64 - toBit) % totalWidth bits.regs ∨ next ≤ x then 1#64 else 0#64
  have htop : f (next + source.type.width / 64 + 1) = 1#64 := if_pos (.inr (by omega))
  have htemp' : f (next + source.type.width / 64) = 1#64 := if_pos (.inr (by omega))
  obtain ⟨t, s', hrun, -, htemp, -, hother, hbit⟩ := hregs (contents f)
  obtain ⟨-, -, u, hu, -, -, hdest⟩ := run_insert_pass (by omega) hrun
  have hkept := regs_of_loop hloop hnew hu (by exact Nat.one_lt_two) (by omega)
  have hread : t.regs b'.index = 1#64 := by
    by_cases hz : (64 - toBit) % totalWidth bits.regs = 0
    · rw [hz, List.getElem?_set_self (List.getElem?_eq_some_iff.1 hb).1] at hb'
      have hbit : f bits.first = 1#64 := if_pos (.inl (by omega))
      rw [← Option.some.inj hb', htemp, copied, hindex, regs_contents, hbit, htemp', ite_self]
    · rw [List.getElem?_set_ne (Ne.symm hz)] at hb'
      obtain ⟨hi, hlen'⟩ := index_of_getElem? hb'
      have hb'next : b'.index < next := by
        rw [RegValue.stop] at hbits
        exact hi ▸ (Nat.add_lt_add_left hlen' _).trans_le hbits
      rw [hother _ (.inl hb'next), hi, regs_contents]
      exact if_pos (.inl rfl)
  have hcopied : copied source.type.typeClass (next + source.type.width / 64 + 1) b' t = 1#64 := by
    rw [copied, hread, hother _ (.inr (Nat.lt_succ_self _)), regs_contents, htop, ite_self]
  have hwritten : (s'.regs (next + 64 / 64)).getLsbD (64 % 64) = true := by
    have hlen' : 0 < min (length - (64 - toBit)) b.type.elementWidth :=
      Nat.lt_min.2 ⟨by omega, elementWidth_regs_pos bits hb⟩
    rw [hkept, hdest, hcopied, getLsbD_insertField (by decide), if_pos ⟨le_rfl, by omega⟩]
    decide
  have hgot := hbit 64 hwide
  rw [hwritten, Bit, if_pos ⟨hlt.le, by omega⟩] at hgot
  split_ifs at hgot with hin
  obtain ⟨r, hr, hone⟩ := getElem?_of_bitAt hgot
  obtain ⟨hi, hlen'⟩ := index_of_getElem? hr
  have hrnext : r.index < next := by
    rw [RegValue.stop] at hbits
    exact hi ▸ (Nat.add_lt_add_left hlen' _).trans_le hbits
  rw [regs_contents, hi] at hone
  by_cases hsame : (64 - toBit) / 64 = (64 - toBit) % totalWidth bits.regs
  · have hreg : f (bits.first + (64 - toBit) / 64) = 1#64 := if_pos (.inl (by rw [hsame]))
    rw [hreg, BitVec.getLsbD_one, eq_comm, Bool.and_eq_true, decide_eq_true_eq,
      decide_eq_true_eq] at hone
    have hzero : toBit = 0 := by omega
    subst hzero
    have htwo : 1 < (sequence bits.first bits.type).length := hlen'
    have hbwide : 64 < bits.type.width := by
      by_contra hle
      rw [sequence_of_le (Nat.le_of_not_lt hle)] at htwo
      exact absurd htwo (by exact Nat.lt_irrefl 1)
    rw [length_sequence_of_lt hbwide] at htwo
    have htotal : totalWidth bits.regs = bits.type.width / 64 * 64 := totalWidth_sequence hbwide
    rw [htotal, Nat.mod_eq_of_lt (by omega)] at hsame
    exact absurd hsame (by decide)
  · have hreg : f (bits.first + (64 - toBit) / 64) = 0#64 := if_neg (by omega)
    rw [hreg, BitVec.getLsbD_zero] at hone
    exact absurd hone (by decide)

theorem insert_fits
    (hright : (insert next source bits toBit length h apart accepted).Right assigned) :
    (insert next source bits toBit length h apart accepted).fits assigned := by
  obtain ⟨hmod, hcopies⟩ := insert_copies hright
  refine ⟨hmod, ?_, ?_⟩
  · by_cases hint : isInteger source.type.typeClass
    · exact .inl hint
    · exact .inr fun j hj => (hcopies j hj).resolve_right fun h => hint h.1
  rcases Nat.eq_zero_or_pos length with rfl | hpos
  · exact .inl rfl
  have hle := insert_le hpos hright
  obtain ⟨b, c, code, new, hb, hindex, hok, hint, hloop, hcode, hregs⟩ := insert_first hpos hright
  obtain ⟨hwide, hstop, hbits⟩ := h
  have hk : 0 < source.type.width / 64 := by omega
  have hlen : min (64 - toBit % 64) length = length := by omega
  have hidx : toBit % 64 = toBit := Nat.mod_eq_of_lt (by omega)
  have hdest : ∀ s, ∃ s' : State, s'.regs next = insertField (s.regs source.first) toBit length
      (copied source.type.typeClass (next + source.type.width / 64) b s) ∧
      ∀ i < source.type.width, (insert next source bits toBit length ⟨hwide, hstop, hbits⟩ apart
        accepted).Bit s i ((s'.regs (next + i / 64)).getLsbD (i % 64)) := by
    intro s
    obtain ⟨t, s', hrun, hzero, -, -, -, hbit⟩ := hregs s
    have hkept := regs_of_loop hloop hcode hrun Nat.one_pos (by omega)
    refine ⟨s', ?_, hbit⟩
    rw [hlen, hidx] at hzero
    exact hkept.trans hzero
  refine .inr ⟨hint, hle, ?_, fun r hr => ?_⟩
  · by_contra hgt
    obtain ⟨s', hzero, hbit⟩ := hdest (contents fun _ => BitVec.allOnes 64)
    have hcopied : copied source.type.typeClass (next + source.type.width / 64) b
        (contents fun _ => BitVec.allOnes 64) = BitVec.allOnes 64 := ite_self _
    have hgot := hbit (toBit + bits.type.width) (by omega)
    rw [Bit, if_pos ⟨by omega, by omega⟩, if_neg (by omega), Nat.div_eq_of_lt (by omega),
      Nat.add_zero, hzero, hcopied, Nat.mod_eq_of_lt (by omega), getLsbD_insertField (by omega),
      if_pos ⟨by omega, by omega⟩, BitVec.getLsbD_allOnes, decide_eq_false_iff_not] at hgot
    omega
  · obtain rfl : b = r := Option.some.inj (hb.symm.trans hr)
    refine ⟨?_, hok.elim .inr fun h => .inl h.2⟩
    by_contra hfloat
    -- the copy leaves the register that it should write
    let f (x : ℕ) : BitVec 64 :=
      if x = next + source.type.width / 64 then 0#64 else BitVec.allOnes 64
    obtain ⟨s', hzero, hbit⟩ := hdest (contents f)
    have hcopied : copied source.type.typeClass (next + source.type.width / 64) b (contents f) =
        0#64 := by
      rw [copied, isFloat_of_isInteger hint, if_neg fun h => hfloat h.symm]
      exact if_pos rfl
    have hgot := hbit toBit (by omega)
    have hfirst : f b.index = BitVec.allOnes 64 := by
      have := first_lt bits hbits
      exact if_neg (by omega)
    rw [Bit, if_pos ⟨le_rfl, by omega⟩, Nat.sub_self, if_pos bits.pos,
      bitAt_of_getElem? (i := 0) hb, Nat.div_eq_of_lt (by omega), Nat.add_zero, hzero, hcopied,
      Nat.mod_eq_of_lt (by omega : toBit < 64), getLsbD_insertField (by omega),
      if_pos ⟨le_rfl, by omega⟩, regs_contents, hfirst,
      BitVec.getLsbD_zero] at hgot
    exact absurd hgot (by decide)

end Insert

/-- The result is right exactly where the field fits into the first register. -/
theorem field_right_iff (assigned : ℕ → ℕ) (node : FieldNode) :
    node.Right assigned ↔ node.fits assigned := by
  cases node with
  | extract next source start length h accepted => exact ⟨extract_fits, extract_right⟩
  | insert next source bits toBit length h apart accepted => exact ⟨insert_fits, insert_right⟩

/-- The upper half of a value of 128 bits. -/
theorem not_field_right :
    ¬(extract 35 ⟨33, .u 128, by decide⟩ 64 64 (by decide) (by decide)).Right id :=
  fun h => (extract_fits h).elim (by decide) fun hfits => absurd hfits.2.1 (by decide)

end FieldNode

end Arancini.Arm64
