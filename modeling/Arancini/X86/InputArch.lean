import Mathlib.Data.List.Basic
import Arancini.Ir.Node
import Arancini.Lib.Except

/-!
# Translating a chunk of guest code

`translateChunk` decodes one instruction after the other, from a base address, and
translates each to a packet. In basic-block mode it stops after the first instruction
that moves the PC. If the last instruction was translated with result `normal`, it adds a
packet that sets the PC to the address after that instruction.

`xed` is a parameter : a decoder with correct lengths. So are the translators. All that
is asked of one is that a packet with a write of the PC has an action that updates the
PC, which the interrupt translator sees to for `SYSCALL` by its internal call.

A chunk `Continues` when, on every path on which no instruction sets the PC itself, its
last packet sets the PC to the address after the last instruction. It does exactly when
the last result is `normal`, or no such path exists (`translateChunk_continues_iff`). The
last instruction can be a `NOP`, whose result is `noop`, or can end the block through an
internal call and leave the PC alone, and with no code at all the result is not
initialised.
-/

namespace Arancini.X86

open Ir

/-- The instruction classes `translator::translate` looks for, and the others. -/
inductive IClass
  | CPUID
  | PREFETCHNTA
  | PAUSE
  | NOP
  | other (name : String)
  deriving DecidableEq

/-- The decoder library. An instruction is at least one byte long, and lies within the
bytes it was decoded from. -/
structure Decoder where
  Inst : Type
  decode : List UInt8 → Option Inst
  iclass : Inst → IClass
  length : Inst → ℕ
  length_pos : ∀ {code inst}, decode code = some inst → 0 < length inst
  length_le : ∀ {code inst}, decode code = some inst → length inst ≤ code.length

/-- A translator. A body with a write of the PC has an action that updates the PC. -/
structure Translator (xed : Decoder) where
  doTranslate : ℕ → xed.Inst → Except String Body
  flagged : ∀ {address inst b}, doTranslate address inst = .ok b →
    ∀ node ∈ b.actionNodes, node.writesPc → b.updatesPc ≠ .none

/-- `translation_result`. -/
inductive TranslationResult
  | normal
  | noop
  | endOfBlock
  | fail
  deriving DecidableEq

variable {xed : Decoder}

/-- `translator::translate`. -/
def Translator.translate (t : Translator xed) (address : ℕ) (inst : xed.Inst) :
    Except String (Packet × TranslationResult) :=
  match xed.iclass inst with
  | .CPUID | .PREFETCHNTA | .PAUSE | .NOP =>
    let p : Packet := ⟨.empty, address⟩
    .ok (p, if p.updatesPc ≠ .none then .endOfBlock else .noop)
  | .other _ => do
    let b ← t.doTranslate address inst
    let p : Packet := ⟨b, address⟩
    return (p, if p.updatesPc ≠ .none then .endOfBlock else .normal)

/-- The translator of each instruction class (`get_translator`). -/
abbrev Translators (xed : Decoder) :=
  IClass → Option (Translator xed)

/-- `translate_instruction`. An instruction with no translator leaves no packet. -/
def translateInstruction (tr : Translators xed) (address : ℕ) (inst : xed.Inst) :
    Except String (Option Packet × TranslationResult) :=
  match tr (xed.iclass inst) with
  | some t => do
    let (p, r) ← t.translate address inst
    return (some p, r)
  | none => .ok (none, .fail)

/-- The loop of `translate_chunk` at the address `base`, with the code that is left : the
packets, the address it stops at, and the last result. -/
def translateLoop (tr : Translators xed) (basicBlock : Bool) (base : ℕ) (code : List UInt8)
    (r : TranslationResult) : Except String (List Packet × ℕ × TranslationResult) :=
  if code = [] then
    .ok ([], base, r)
  else
    match _h : xed.decode code with
    | none => .error "unable to decode instruction"
    | some inst => do
      let (p, r) ← translateInstruction tr base inst
      if r = .fail then
        .error "instruction translation failure"
      else if r = .endOfBlock ∧ basicBlock then
        return (p.toList, base, r)
      else
        let (ps, stop, r) ←
          translateLoop tr basicBlock (base + xed.length inst) (code.drop (xed.length inst)) r
        return (p.toList ++ ps, stop, r)
termination_by code.length
decreasing_by
  have h1 := xed.length_pos _h
  have h2 := xed.length_le _h
  simp only [List.length_drop]
  omega

theorem translateLoop_nil (tr : Translators xed) (basicBlock : Bool) (base : ℕ)
    (r : TranslationResult) : translateLoop tr basicBlock base [] r = .ok ([], base, r) := by
  rw [translateLoop, if_pos rfl]

/-- One turn of the loop. -/
theorem translateLoop_of_decode {tr : Translators xed} {basicBlock : Bool} {base : ℕ}
    {code : List UInt8} {r s : TranslationResult} {inst : xed.Inst} {p : Option Packet}
    (hcode : code ≠ []) (hinst : xed.decode code = some inst)
    (hp : translateInstruction tr base inst = .ok (p, s)) (hs : s = .normal ∨ s = .noop) :
    translateLoop tr basicBlock base code r = (do
      let (ps, stop, r) ←
        translateLoop tr basicBlock (base + xed.length inst) (code.drop (xed.length inst)) s
      return (p.toList ++ ps, stop, r)) := by
  rw [translateLoop, if_neg hcode]
  split
  · next h =>
    rw [h] at hinst
    cases hinst
  · next h =>
    obtain rfl : _ = inst := Option.some.inj (h.symm.trans hinst)
    rw [hp]
    rcases hs with rfl | rfl <;> rfl

/-- The packet that sets the PC at the end of a chunk. Its own address is zero. -/
def endPacket (pc : ℕ) : Packet where
  nodes := [.constant (.u 64) pc, .writePc ⟨.value, .u 64, 0⟩ .br 0]
  actions := [1]
  targets := [(0, .value, 1)]
  operand_lt := operand_lt_jump pc
  sorted := sorted_one
  isAction := isAction_jump pc
  address := 0

/-- `translate_chunk`. `r` is what the result variable holds before the loop, which does
not initialise it. -/
def translateChunk (tr : Translators xed) (r : TranslationResult) (base : ℕ) (code : List UInt8)
    (basicBlock : Bool) (name : String) : Except String Chunk := do
  let (ps, stop, r) ← translateLoop tr basicBlock base code r
  if r = .normal then
    return ⟨name, ps ++ [endPacket stop]⟩
  else
    return ⟨name, ps⟩

/-! ## What the loop translates -/

/-- A translated instruction. -/
structure Translated (xed : Decoder) where
  inst : xed.Inst
  packet : Packet
  result : TranslationResult

/-- `Run tr a code ts e` : from the address `a`, the code starts with the instructions
`ts`, one right after the other, up to the address `e`. -/
inductive Run (tr : Translators xed) : ℕ → List UInt8 → List (Translated xed) → ℕ → Prop
  | nil (a : ℕ) (code : List UInt8) : Run tr a code [] a
  | cons {a e : ℕ} {code : List UInt8} {u : Translator xed} {t : Translated xed}
      {ts : List (Translated xed)} :
    xed.decode code = some t.inst → tr (xed.iclass t.inst) = some u →
      u.translate a t.inst = .ok (t.packet, t.result) → t.packet.address = a →
      Run tr (a + xed.length t.inst) (code.drop (xed.length t.inst)) ts e →
      Run tr a code (t :: ts) e

/-- The result of the last instruction. -/
def lastResult (r : TranslationResult) (ts : List (Translated xed)) : TranslationResult :=
  (ts.getLast?.map (·.result)).getD r

theorem lastResult_cons (r : TranslationResult) (t : Translated xed) (ts : List (Translated xed)) :
    lastResult r (t :: ts) = lastResult t.result ts := by
  rw [lastResult, lastResult, List.getLast?_cons]
  cases ts.getLast? <;> rfl

/-- No action of the packet writes the PC. -/
def Quiet (p : Packet) : Prop :=
  ∀ node ∈ p.actionNodes, node.writesPc = false

/-- What the loop returns. -/
structure LoopSpec (tr : Translators xed) (basicBlock : Bool) (base : ℕ) (code : List UInt8)
    (r : TranslationResult) (ps : List Packet) (stop : ℕ) (r' : TranslationResult)
    (ts : List (Translated xed)) (e : ℕ) : Prop where
  run : Run tr base code ts e
  packets : ps = ts.map (·.packet)
  result : r' = lastResult r ts
  stop : r' = .normal → stop = e
  block : basicBlock → ∀ t ∈ ts.dropLast, t.result ≠ .endOfBlock

/-! ## Paths -/

/-- Every path through the packet sets the PC. -/
def AlwaysSetsPc (p : Packet) : Prop :=
  ∀ path, p.Path 0 path → p.SetsPc path

/-- `paths` is a path through the translated instructions on which none of them sets the
PC. -/
def QuietPath (ts : List (Translated xed)) (paths : List (List NodeId)) : Prop :=
  List.Forall₂ (fun t path => t.packet.Path 0 path ∧ ¬t.packet.SetsPc path) ts paths

/-- After every path through the translated instructions on which none of them sets the
PC, the last packet sets it to `e`. -/
def Continues (ts : List (Translated xed)) (chunk : Chunk) (e : ℕ) : Prop :=
  ∀ paths, QuietPath ts paths →
    ∃ p, chunk.packets.getLast? = some p ∧ ∀ path, p.Path 0 path → p.SetsPcTo path e

theorem actionNodes_empty : Body.empty.actionNodes = [] :=
  rfl

/-- A translated instruction ends the block exactly when it updates the PC, and is
otherwise quiet. -/
theorem translate_ok {t : Translator xed} {address : ℕ} {inst : xed.Inst} {p : Packet}
    {r : TranslationResult} (h : t.translate address inst = .ok (p, r)) :
    p.address = address ∧ r ≠ .fail ∧ (r = .endOfBlock ↔ p.updatesPc ≠ .none) ∧
      (p.updatesPc = .none → Quiet p) := by
  have hnop : ∀ {p : Packet} {r : TranslationResult},
      ((⟨.empty, address⟩ : Packet), TranslationResult.noop) = (p, r) → p.address = address ∧
        r ≠ .fail ∧ (r = .endOfBlock ↔ p.updatesPc ≠ .none) ∧ (p.updatesPc = .none → Quiet p) := by
    rintro _ _ ⟨⟩
    refine ⟨rfl, by decide, ⟨by rintro ⟨⟩, fun hn => absurd rfl hn⟩, fun _ node hnode => ?_⟩
    simp [actionNodes_empty] at hnode
  unfold Translator.translate at h
  split at h
  · exact hnop (Except.ok.inj h)
  · exact hnop (Except.ok.inj h)
  · exact hnop (Except.ok.inj h)
  · exact hnop (Except.ok.inj h)
  · obtain ⟨b, hb, h⟩ := bind_eq_ok.1 h
    obtain ⟨rfl, rfl⟩ := Prod.mk.inj (pure_eq_ok.1 h)
    refine ⟨rfl, ?_, ?_, fun hn node hnode => ?_⟩
    · split_ifs <;> simp
    · split_ifs with hn <;> simp [hn]
    · by_contra hw
      exact t.flagged hb node hnode (by simpa using hw) hn

/-- An instruction with no translator fails. -/
theorem translateInstruction_ok {tr : Translators xed} {address : ℕ} {inst : xed.Inst}
    {p : Option Packet} {r : TranslationResult}
    (h : translateInstruction tr address inst = .ok (p, r)) (hr : r ≠ .fail) :
    ∃ t q, tr (xed.iclass inst) = some t ∧ p = some q ∧ t.translate address inst = .ok (q, r) := by
  unfold translateInstruction at h
  split at h
  · rename_i t ht
    obtain ⟨⟨q, r'⟩, hq, h⟩ := bind_eq_ok.1 h
    obtain ⟨rfl, rfl⟩ := Prod.mk.inj (pure_eq_ok.1 h)
    exact ⟨t, q, ht, rfl, hq⟩
  · cases h
    exact absurd rfl hr

theorem translateLoop_spec {tr : Translators xed} {basicBlock : Bool} {base : ℕ}
    {code : List UInt8} {r : TranslationResult} {ps : List Packet} {stop : ℕ}
    {r' : TranslationResult} (h : translateLoop tr basicBlock base code r = .ok (ps, stop, r')) :
    ∃ ts e, LoopSpec tr basicBlock base code r ps stop r' ts e := by
  fun_induction translateLoop generalizing ps stop r' with
  | case1 base r =>
    cases h
    exact ⟨[], base, .nil _ _, rfl, rfl, fun _ => rfl, by simp⟩
  | case2 => cases h
  | case3 base code r hcode inst hinst ih =>
    obtain ⟨⟨p, s⟩, hp, h⟩ := bind_eq_ok.1 h
    simp only at h
    split_ifs at h with hfail hend
    · obtain ⟨t, q, ht, rfl, hq⟩ := translateInstruction_ok hp hfail
      obtain ⟨rfl, rfl, rfl⟩ := by simpa using h
      refine ⟨[⟨inst, q, s⟩], base + xed.length inst,
        .cons hinst ht hq (translate_ok hq).1 (.nil _ _), rfl, rfl, ?_, by simp⟩
      rintro rfl
      exact absurd hend.1 (by decide)
    · obtain ⟨t, q, ht, rfl, hq⟩ := translateInstruction_ok hp hfail
      obtain ⟨⟨qs, stop', s'⟩, hrec, h⟩ := bind_eq_ok.1 h
      obtain ⟨rfl, rfl, rfl⟩ := by simpa using h
      obtain ⟨ts, e, hts⟩ := ih s hrec
      refine ⟨⟨inst, q, s⟩ :: ts, e, .cons hinst ht hq (translate_ok hq).1 hts.run,
        by simp [hts.packets], ?_, hts.stop, ?_⟩
      · rw [hts.result, lastResult_cons]
      · intro hbb t ht
        cases ts with
        | nil => simp at ht
        | cons u ts =>
          rcases List.mem_cons.1 ht with rfl | ht
          · exact fun hs => hend ⟨hs, hbb⟩
          · exact hts.block hbb t ht

/-- The packets of the instructions `ts`, which end at `e`, with a packet at the end when
the last result is `normal`. -/
def chunkPackets (r : TranslationResult) (ts : List (Translated xed)) (e : ℕ) : List Packet :=
  ts.map (·.packet) ++ if lastResult r ts = .normal then [endPacket e] else []

/-- The chunk covers the instructions `ts`, which lie one after the other from the base
address up to `e`. In a basic block only the last of them ends the block. -/
structure Covers (tr : Translators xed) (r : TranslationResult) (base : ℕ) (code : List UInt8)
    (basicBlock : Bool) (chunk : Chunk) (ts : List (Translated xed)) (e : ℕ) : Prop where
  run : Run tr base code ts e
  packets : chunk.packets = chunkPackets r ts e
  block : basicBlock → ∀ t ∈ ts.dropLast, t.result ≠ .endOfBlock

theorem exists_covers {tr : Translators xed} {r : TranslationResult} {base : ℕ}
    {code : List UInt8} {basicBlock : Bool} {name : String} {chunk : Chunk}
    (h : translateChunk tr r base code basicBlock name = .ok chunk) :
    ∃ ts e, Covers tr r base code basicBlock chunk ts e := by
  obtain ⟨⟨ps, stop, r'⟩, hloop, h⟩ := bind_eq_ok.1 h
  obtain ⟨ts, e, hts⟩ := translateLoop_spec hloop
  refine ⟨ts, e, hts.run, ?_, hts.block⟩
  rw [chunkPackets, ← hts.result]
  simp only at h
  split_ifs at h ⊢ with hr
  · rw [← pure_eq_ok.1 h, ← hts.packets, hts.stop hr]
  · rw [← pure_eq_ok.1 h, ← hts.packets, List.append_nil]

/-! ## Where a chunk continues -/

theorem quietPath_of_forall {ts : List (Translated xed)}
    (h : ∀ t ∈ ts, ¬AlwaysSetsPc t.packet) : ∃ paths, QuietPath ts paths := by
  induction ts with
  | nil => exact ⟨[], .nil⟩
  | cons t ts ih =>
    obtain ⟨paths, hpaths⟩ := ih fun u hu => h u (by simp [hu])
    obtain ⟨path, hpath, hquiet⟩ : ∃ path, t.packet.Path 0 path ∧ ¬t.packet.SetsPc path := by
      simpa [AlwaysSetsPc] using h t (by simp)
    exact ⟨path :: paths, .cons ⟨hpath, hquiet⟩ hpaths⟩

theorem QuietPath.exists_path {ts : List (Translated xed)} {paths : List (List NodeId)}
    (h : QuietPath ts paths) {t : Translated xed} (ht : t ∈ ts) :
    ∃ path, t.packet.Path 0 path ∧ ¬t.packet.SetsPc path := by
  induction h with
  | nil => simp at ht
  | cons h _ ih =>
    rcases List.mem_cons.1 ht with rfl | ht
    · exact ⟨_, h⟩
    · exact ih ht

/-- The packet at the end of a chunk sets the PC. -/
theorem setsPcTo_endPacket {pc : ℕ} {path : List NodeId} (h : (endPacket pc).Path 0 path) :
    (endPacket pc).SetsPcTo path pc := by
  have h1 : (endPacket pc).Path 1 path := by
    cases h with
    | skip _ _ hp => exact hp
    | done hn | next _ hn | br _ hn | taken _ hn => simp [endPacket] at hn
  have hpath : path = [1] := by
    clear h
    cases h1 with
    | next _ _ _ h2 =>
      cases h2 with
      | done => rfl
      | skip hn _ _ | next hn _ | br hn _ | taken hn _ => simp [endPacket] at hn
    | done hn | skip _ hn _ | br hn _ | taken hn _ => simp [endPacket] at hn
  subst hpath
  exact ⟨[], 1, [], ⟨.value, .u 64, 0⟩, .br, 0, .u 64, rfl, rfl, rfl, by simp [Body.SetsPc]⟩

/-- No update of the PC is overwritten : control leaves a packet that writes the PC, in a
basic block only the last packet writes it, and a packet that the chunk adds at the end
comes after an instruction that does not. -/
def NotOverwritten (basicBlock : Bool) (ts : List (Translated xed)) (chunk : Chunk) : Prop :=
  (∀ t ∈ ts, t.packet.updatesPc = .none → Quiet t.packet) ∧
    (basicBlock → ∀ p ∈ chunk.packets.dropLast, Quiet p) ∧
    (chunk.packets ≠ ts.map (·.packet) → ∀ t, ts.getLast? = some t → Quiet t.packet)

/-- A packet that is quiet sets the PC on no path. -/
theorem not_setsPc_of_quiet {p : Packet} (hp : Quiet p) {path : List NodeId}
    (h : p.Path 0 path) : ¬p.SetsPc path := by
  rintro ⟨i, hi, node, hnode, hw⟩
  have hact : i ∈ p.actions := h.mem_actions i hi
  have hmem : node ∈ p.actionNodes := List.mem_filterMap.2 ⟨i, hact, hnode⟩
  rw [hp node hmem] at hw
  cases hw

/-- The instructions of a run that do not end the block are quiet. -/
theorem Run.quiet {tr : Translators xed} {a e : ℕ} {code : List UInt8}
    {ts : List (Translated xed)} (h : Run tr a code ts e) :
    ∀ t ∈ ts, (t.result ≠ .endOfBlock → Quiet t.packet) ∧
      (t.packet.updatesPc = .none → Quiet t.packet) := by
  induction h with
  | nil => simp
  | cons _ _ ht _ _ ih =>
    intro t hmem
    rcases List.mem_cons.1 hmem with rfl | hmem
    · obtain ⟨-, -, hend, hquiet⟩ := translate_ok ht
      exact ⟨fun hn => hquiet (by simpa using mt hend.2 hn), hquiet⟩
    · exact ih t hmem

theorem Covers.notOverwritten {tr : Translators xed} {r : TranslationResult} {base : ℕ}
    {code : List UInt8} {basicBlock : Bool} {chunk : Chunk} {ts : List (Translated xed)} {e : ℕ}
    (h : Covers tr r base code basicBlock chunk ts e) : NotOverwritten basicBlock ts chunk := by
  have hpackets := h.packets
  rw [chunkPackets] at hpackets
  have hlast : ∀ t, ts.getLast? = some t → lastResult r ts = .normal → Quiet t.packet := by
    intro t ht hr
    refine (h.run.quiet t (List.mem_of_getLast? ht)).1 ?_
    have hres : t.result = .normal := by simpa [lastResult, ht] using hr
    simp [hres]
  have hinit : basicBlock → ∀ t ∈ ts.dropLast, Quiet t.packet := fun hbb t ht =>
    (h.run.quiet t (List.mem_of_mem_dropLast ht)).1 (h.block hbb t ht)
  refine ⟨fun t ht => (h.run.quiet t ht).2, fun hbb p hp => ?_, fun hne t ht => ?_⟩
  · split_ifs at hpackets with hr
    · rw [hpackets, List.dropLast_concat] at hp
      obtain ⟨t, ht, rfl⟩ := List.mem_map.1 hp
      obtain ⟨init, u, rfl⟩ := List.eq_nil_or_concat' ts |>.resolve_left (List.ne_nil_of_mem ht)
      rcases List.mem_append.1 ht with ht | ht
      · exact hinit hbb t (by simpa using ht)
      · obtain rfl : t = u := by simpa using ht
        exact hlast t (by simp) hr
    · rw [hpackets, List.append_nil, ← List.map_dropLast] at hp
      obtain ⟨t, ht, rfl⟩ := List.mem_map.1 hp
      exact hinit hbb t ht
  · refine hlast t ht ?_
    by_contra hr
    exact hne (by rw [hpackets, if_neg hr, List.append_nil])

theorem Covers.continues_iff {tr : Translators xed} {r : TranslationResult} {base : ℕ}
    {code : List UInt8} {basicBlock : Bool} {chunk : Chunk} {ts : List (Translated xed)} {e : ℕ}
    (h : Covers tr r base code basicBlock chunk ts e) :
    Continues ts chunk e ↔ lastResult r ts = .normal ∨ ∃ t ∈ ts, AlwaysSetsPc t.packet := by
  have hpackets := h.packets
  rw [chunkPackets] at hpackets
  constructor
  · intro hc
    by_contra! hcon
    obtain ⟨hr, hts⟩ := hcon
    obtain ⟨paths, hpaths⟩ := quietPath_of_forall hts
    obtain ⟨p, hp, hset⟩ := hc paths hpaths
    rw [hpackets, if_neg hr, List.append_nil, List.getLast?_map] at hp
    obtain ⟨t, ht, rfl⟩ := Option.map_eq_some_iff.1 hp
    obtain ⟨path, hpath, hquiet⟩ := hpaths.exists_path (List.mem_of_getLast? ht)
    exact hquiet (hset path hpath).setsPc
  · rintro (hr | ⟨t, ht, hall⟩) paths hpaths
    · exact ⟨endPacket e, by simp [hpackets, hr], fun path => setsPcTo_endPacket⟩
    · obtain ⟨path, hpath, hquiet⟩ := hpaths.exists_path ht
      exact absurd (hall path hpath) hquiet

/-- What `translate_chunk` returns covers a contiguous run of instructions from the base
address, and overwrites no update of the PC. It continues at the address after the last
instruction exactly when the last result is `normal`, or some instruction sets the PC on
every path. -/
theorem translateChunk_continues_iff {tr : Translators xed} {r : TranslationResult} {base : ℕ}
    {code : List UInt8} {basicBlock : Bool} {name : String} {chunk : Chunk}
    (h : translateChunk tr r base code basicBlock name = .ok chunk) :
    (∃ ts e, Covers tr r base code basicBlock chunk ts e) ∧
      ∀ ts e, Covers tr r base code basicBlock chunk ts e → NotOverwritten basicBlock ts chunk ∧
        (Continues ts chunk e ↔ lastResult r ts = .normal ∨ ∃ t ∈ ts, AlwaysSetsPc t.packet) :=
  ⟨exists_covers h, fun _ _ hc => ⟨hc.notOverwritten, hc.continues_iff⟩⟩

/-! ## A block that ends with a `NOP` -/

/-- A decoder of the one-byte instructions `NOP` and `FWAIT`. -/
def oneByte : Decoder where
  Inst := IClass
  decode
    | 0x90 :: _ => some .NOP
    | 0x9B :: _ => some (.other "FWAIT")
    | _ => none
  iclass := id
  length _ := 1
  length_pos _ := by decide
  length_le {code inst} h := by
    cases code
    · simp at h
    · simp

/-- The translators of `NOP` and `FWAIT` insert nothing. -/
def insertsNothing : Translator oneByte where
  doTranslate _ _ := .ok .empty
  flagged := by
    rintro _ _ _ ⟨⟩
    simp [actionNodes_empty]

def oneByteTranslators : Translators oneByte :=
  fun _ => some insertsNothing

/-- A block of one of them, at address `0x1000`. -/
def oneByteBlock (i : IClass) (s : TranslationResult) : List (Translated oneByte) :=
  [⟨i, ⟨.empty, 0x1000⟩, s⟩]

def oneByteChunk (i : IClass) (s : TranslationResult) : Chunk :=
  ⟨"b", chunkPackets .fail (oneByteBlock i s) 0x1001⟩

theorem translateChunk_oneByte {b : UInt8} {i : IClass} {s : TranslationResult}
    (hi : oneByte.decode [b] = some i) (hs : s = .normal ∨ s = .noop)
    (ht : insertsNothing.translate 0x1000 i = .ok (⟨.empty, 0x1000⟩, s)) :
    translateChunk oneByteTranslators .fail 0x1000 [b] true "b" = .ok (oneByteChunk i s) := by
  have hinst : translateInstruction oneByteTranslators 0x1000 i =
      .ok (some ⟨.empty, 0x1000⟩, s) := congrArg (· >>= _) ht
  have hloop : translateLoop oneByteTranslators true 0x1000 [b] .fail =
      .ok ([⟨.empty, 0x1000⟩], 0x1001, s) := by
    rw [translateLoop_of_decode (by simp) hi hinst hs]
    exact congrArg (· >>= _) (translateLoop_nil oneByteTranslators true 0x1001 s)
  rw [translateChunk, hloop]
  rcases hs with rfl | rfl <;> rfl

theorem covers_oneByte {b : UInt8} {i : IClass} {s : TranslationResult}
    (hi : oneByte.decode [b] = some i)
    (ht : insertsNothing.translate 0x1000 i = .ok (⟨.empty, 0x1000⟩, s)) :
    Covers oneByteTranslators .fail 0x1000 [b] true (oneByteChunk i s) (oneByteBlock i s)
      0x1001 where
  run := .cons hi rfl ht rfl (.nil _ _)
  packets := rfl
  block := by simp [oneByteBlock]

/-- A block of an `FWAIT` continues after it. -/
theorem continues_fwait :
    translateChunk oneByteTranslators .fail 0x1000 [0x9B] true "b" =
        .ok (oneByteChunk (.other "FWAIT") .normal) ∧
      Continues (oneByteBlock (.other "FWAIT") .normal) (oneByteChunk (.other "FWAIT") .normal)
        0x1001 := by
  have hchunk : translateChunk oneByteTranslators .fail 0x1000 [0x9B] true "b" =
      .ok (oneByteChunk (.other "FWAIT") .normal) := translateChunk_oneByte rfl (.inl rfl) rfl
  exact ⟨hchunk,
    ((translateChunk_continues_iff hchunk).2 _ _ (covers_oneByte rfl rfl)).2.2 (.inl rfl)⟩

/-- A block of a `NOP` has a path that sets no PC, and leaves the PC alone at its end. -/
theorem not_continues_nop :
    translateChunk oneByteTranslators .fail 0x1000 [0x90] true "b" = .ok (oneByteChunk .NOP .noop) ∧
      Covers oneByteTranslators .fail 0x1000 [0x90] true (oneByteChunk .NOP .noop)
        (oneByteBlock .NOP .noop) 0x1001 ∧
      ¬Continues (oneByteBlock .NOP .noop) (oneByteChunk .NOP .noop) 0x1001 := by
  refine ⟨translateChunk_oneByte rfl (.inr rfl) rfl, covers_oneByte rfl rfl, fun h => ?_⟩
  have hpath : (⟨.empty, 0x1000⟩ : Packet).Path 0 [] := .done rfl
  have hquiet : ¬Body.empty.SetsPc [] := by simp [Body.SetsPc]
  obtain ⟨p, hp, hset⟩ := h [[]] (.cons ⟨hpath, hquiet⟩ .nil)
  obtain rfl : (⟨.empty, 0x1000⟩ : Packet) = p := Option.some.inj hp
  exact hquiet (hset [] hpath).setsPc

end Arancini.X86
