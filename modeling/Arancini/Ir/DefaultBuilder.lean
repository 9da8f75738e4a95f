import Mathlib.Tactic.Common
import Arancini.Ir.Node

/-!
# The default builder

`default_ir_builder` makes one chunk. It is called in some order: the chunk is begun, its packets
are begun and ended one after the other, with nodes inserted in between, and the chunk is ended. A
call that is out of order should throw and leave the builder as it is.

`begin_chunk` makes an allocator, and `end_chunk` drops it, before either looks at the state of the
builder, and a node is allocated before it is known whether there is a packet for it. Without an
allocator, nothing is looked at.

`protocol_right_iff` says which calls the builder is right about, and that its chunk has then the
packets and the actions in the order of the calls.
-/

namespace Arancini.Ir.DefaultBuilder

/-! ## The builder -/

/-- A packet that is built. -/
structure BuiltPacket where
  address : ℕ
  disassembly : String
  locals : List ValueType
  actions : List Node
  deriving DecidableEq

namespace BuiltPacket

def appendAction (p : BuiltPacket) (node : Node) : BuiltPacket :=
  { p with actions := p.actions ++ [node] }

def allocLocal (p : BuiltPacket) (type : ValueType) : BuiltPacket :=
  { p with locals := p.locals ++ [type] }

def updatesPc (p : BuiltPacket) : BrType :=
  p.actions.foldl (fun max a => if a.updatesPc.toNat > max.toNat then a.updatesPc else max) .none

end BuiltPacket

structure BuiltChunk where
  name : String
  packets : List BuiltPacket
  deriving DecidableEq

/-- `Allocator` : which one it is, and the nodes that have been allocated. -/
structure Arena where
  id : ℕ
  nodes : List Node
  deriving DecidableEq

/-- The fields of the builder. `made` counts the allocators that have been made. -/
structure BuilderState where
  allocator : Option Arena
  currentChunk : Option BuiltChunk
  chunkComplete : Bool
  currentPkt : Option BuiltPacket
  made : ℕ
  deriving DecidableEq

/-- A new builder. -/
def BuilderState.new : BuilderState where
  allocator := none
  currentChunk := none
  chunkComplete := false
  currentPkt := none
  made := 0

/-- The calls. All nodes are inserted in the same way. -/
inductive Call
  | beginChunk (name : String)
  | endChunk
  | beginPacket (address : ℕ) (disassembly : String)
  | endPacket
  | insert (node : Node)
  | allocLocal (type : ValueType)
  | getChunk
  deriving DecidableEq

/-- `packet_type`. -/
inductive PacketType
  | normal
  | endOfBlock
  deriving DecidableEq

/-- What a call does : it returns, `end_packet` with a type, it throws, or it is undefined. -/
inductive Outcome
  | ret (type : Option PacketType) (s : BuilderState)
  | throw (msg : String) (s : BuilderState)
  | undefined

namespace BuilderState

def beginChunk (name : String) (s : BuilderState) : Outcome :=
  let s := { s with allocator := some ⟨s.made, []⟩, made := s.made + 1 }
  if s.currentChunk.isSome then .throw "chunk already in progress" s
  else .ret none { s with currentChunk := some ⟨name, []⟩ }

def endChunk (s : BuilderState) : Outcome :=
  let s := { s with allocator := none }
  if s.currentPkt.isSome then .throw "packet in progress" s
  else if s.currentChunk.isNone then .throw "chunk not in progress" s
  else if s.chunkComplete then .throw "chunk already completed" s
  else .ret none { s with chunkComplete := true }

def beginPacket (address : ℕ) (disassembly : String) (s : BuilderState) : Outcome :=
  if s.currentChunk.isNone then .throw "chunk not in progress" s
  else if s.chunkComplete then .throw "chunk is completed" s
  else if s.currentPkt.isSome then .throw "packet already in progress" s
  else .ret none { s with currentPkt := some ⟨address, disassembly, [], []⟩ }

def endPacket (s : BuilderState) : Outcome :=
  match s.currentPkt, s.currentChunk with
  | none, _ => .throw "packet not in progress" s
  | some _, none => .undefined
  | some p, some chunk =>
    .ret (some (if p.updatesPc ≠ .none then .endOfBlock else .normal))
      { s with
        currentChunk := some { chunk with packets := chunk.packets ++ [p] }
        currentPkt := none }

/-- `create_and_insert`. -/
def insert (node : Node) (s : BuilderState) : Outcome :=
  match s.allocator with
  | none => .undefined
  | some arena =>
    let s := { s with allocator := some { arena with nodes := arena.nodes ++ [node] } }
    if node.isAction then
      match s.currentPkt with
      | none => .throw "packet not in progress" s
      | some p => .ret none { s with currentPkt := some (p.appendAction node) }
    else .ret none s

def allocLocal (type : ValueType) (s : BuilderState) : Outcome :=
  match s.currentPkt with
  | none => .throw "cannot allocate local variable without packet" s
  | some p => .ret none { s with currentPkt := some (p.allocLocal type) }

def getChunk (s : BuilderState) : Outcome :=
  if s.currentChunk.isNone ∨ s.chunkComplete = false then
    .throw "cannot get chunk when it is incomplete" s
  else .ret none s

/-- A call. -/
def step (s : BuilderState) : Call → Outcome
  | .beginChunk name => s.beginChunk name
  | .endChunk => s.endChunk
  | .beginPacket address disassembly => s.beginPacket address disassembly
  | .endPacket => s.endPacket
  | .insert node => s.insert node
  | .allocLocal type => s.allocLocal type
  | .getChunk => s.getChunk

end BuilderState

/-- The builder after a call, also one that throws. -/
def Outcome.state : Outcome → Option BuilderState
  | ret _ s | throw _ s => some s
  | undefined => none

/-- The builder after some calls. -/
def runCalls : List Call → BuilderState → Option BuilderState
  | [], s => some s
  | c :: calls, s => (s.step c).state.bind (runCalls calls)

/-! ## The protocol -/

/-- Where the calls are. -/
inductive Phase
  | idle
  | inChunk
  | inPacket
  | done
  deriving DecidableEq

namespace Phase

/-- The phase after a call, if it is in order. A node that is no action may be inserted before the
packets as well. -/
def next : Phase → Call → Option Phase
  | idle, .beginChunk _ => some inChunk
  | inChunk, .endChunk => some done
  | inChunk, .beginPacket .. => some inPacket
  | inChunk, .insert node => if node.isAction then none else some inChunk
  | inPacket, .endPacket => some inChunk
  | inPacket, .insert _ => some inPacket
  | inPacket, .allocLocal _ => some inPacket
  | done, .getChunk => some done
  | _, _ => none

/-- A call that is out of order leaves the phase. -/
def after (ph : Phase) (c : Call) : Phase :=
  (ph.next c).getD ph

end Phase

/-- The phase after some calls. -/
def phaseAfter : Phase → List Call → Phase
  | ph, [] => ph
  | ph, c :: calls => phaseAfter (ph.after c) calls

/-- The calls that are in order. -/
def legalCalls : Phase → List Call → List Call
  | _, [] => []
  | ph, c :: calls =>
    if (ph.next c).isSome then c :: legalCalls (ph.after c) calls
    else legalCalls (ph.after c) calls

/-- A packet with what is inserted up to its end. -/
def BuiltPacket.fill : List Call → BuiltPacket → BuiltPacket
  | [], p => p
  | .endPacket :: _, p => p
  | .insert node :: calls, p => fill calls (if node.isAction then p.appendAction node else p)
  | .allocLocal type :: calls, p => fill calls (p.allocLocal type)
  | _ :: calls, p => fill calls p

/-- The packets, in the order in which they are begun. -/
def packetsBegun : List Call → List BuiltPacket
  | [] => []
  | .beginPacket address disassembly :: calls =>
    BuiltPacket.fill calls ⟨address, disassembly, [], []⟩ :: packetsBegun calls
  | _ :: calls => packetsBegun calls

/-- The actions that are inserted. -/
def insertedActions : List Call → List Node
  | [] => []
  | .insert node :: calls =>
    if node.isAction then node :: insertedActions calls else insertedActions calls
  | _ :: calls => insertedActions calls

/-- Nothing is different in the builder. -/
def BuilderState.Same (s t : BuilderState) : Prop :=
  s.allocator = t.allocator ∧ s.currentChunk = t.currentChunk ∧
    s.chunkComplete = t.chunkComplete ∧ s.currentPkt = t.currentPkt

/-- A call is right : out of order, it throws and changes nothing. Otherwise it returns, and the
type that `end_packet` returns says whether an action of the packet updates the PC. -/
def StepRight (ph : Phase) (s : BuilderState) (c : Call) : Prop :=
  (ph.next c = none → ∃ msg t, s.step c = .throw msg t ∧ t.Same s) ∧
  (ph.next c ≠ none → ∃ type t, s.step c = .ret type t ∧ (c = .endPacket →
    ∃ chunk p, t.currentChunk = some chunk ∧ chunk.packets.getLast? = some p ∧
      (type = some .endOfBlock ↔ ∃ a ∈ p.actions, a.updatesPc ≠ .none)))

/-- Each call is right. -/
def StepsRight : Phase → BuilderState → List Call → Prop
  | _, _, [] => True
  | ph, s, c :: calls => StepRight ph s c ∧
    ∀ t, (s.step c).state = some t → StepsRight (ph.after c) t calls

/-- The calls are right, and a chunk that is finished has the packets that were begun, with each
action that was inserted once, in order. -/
def ProtocolRight (calls : List Call) : Prop :=
  StepsRight .idle .new calls ∧ (phaseAfter .idle calls = .done →
    ∃ s chunk, runCalls calls .new = some s ∧ s.currentChunk = some chunk ∧
      chunk.packets = packetsBegun (legalCalls .idle calls) ∧
      chunk.packets.flatMap (·.actions) = insertedActions (legalCalls .idle calls))

/-- The calls out of order that are not only refused. -/
def Breaks : Phase → Call → Prop
  | ph, .beginChunk _ => ph ≠ .idle
  | ph, .endChunk => ph = .inPacket
  | ph, .insert node => ph = .idle ∨ ph = .done ∨ ph = .inChunk ∧ node.isAction
  | _, _ => False

/-- No call breaks the builder. -/
def Careful : Phase → List Call → Prop
  | _, [] => True
  | ph, c :: calls => ¬Breaks ph c ∧ Careful (ph.after c) calls

/-! ## The builder follows the protocol -/

/-- The fields of the builder in each phase. -/
inductive Tracks : Phase → BuilderState → Prop
  | idle {made : ℕ} : Tracks .idle ⟨none, none, false, none, made⟩
  | inChunk {arena : Arena} {chunk : BuiltChunk} {made : ℕ} (h : arena.id < made) :
      Tracks .inChunk ⟨some arena, some chunk, false, none, made⟩
  | inPacket {arena : Arena} {chunk : BuiltChunk} {p : BuiltPacket} {made : ℕ}
      (h : arena.id < made) : Tracks .inPacket ⟨some arena, some chunk, false, some p, made⟩
  | done {chunk : BuiltChunk} {made : ℕ} : Tracks .done ⟨none, some chunk, true, none, made⟩

/-- `updates_pc` finds an action that updates the PC. -/
theorem BuiltPacket.updatesPc_ne_none (p : BuiltPacket) :
    p.updatesPc ≠ .none ↔ ∃ a ∈ p.actions, a.updatesPc ≠ .none := by
  have htoNat : ∀ u : BrType, u ≠ .none ↔ 0 < u.toNat := by
    intro u
    cases u <;> simp [BrType.toNat]
  have hfold : ∀ (actions : List Node) (max : BrType),
      actions.foldl (fun max a => if a.updatesPc.toNat > max.toNat then a.updatesPc else max) max ≠
        .none ↔ max ≠ .none ∨ ∃ a ∈ actions, a.updatesPc ≠ .none := by
    intro actions
    induction actions with
    | nil => simp
    | cons a actions ih =>
      intro max
      rw [List.foldl_cons, ih, List.exists_mem_cons_iff, ← or_assoc]
      refine or_congr_left ?_
      rw [htoNat, htoNat, htoNat]
      split_ifs
      · omega
      · omega
  rw [updatesPc, hfold]
  exact or_iff_right fun h => h rfl

/-- The packets that the chunk will have, with what is inserted by some more calls. -/
def BuilderState.packetsThen (s : BuilderState) (calls : List Call) : List BuiltPacket :=
  s.currentChunk.elim [] (·.packets) ++ (s.currentPkt.map (BuiltPacket.fill calls)).toList ++
    packetsBegun calls

/-- The actions that it will have. -/
def BuilderState.actionsThen (s : BuilderState) (calls : List Call) : List Node :=
  (s.currentChunk.elim [] (·.packets) ++ s.currentPkt.toList).flatMap (·.actions) ++
    insertedActions calls

/-- A call in order, which returns in `t`. -/
structure Follows (s : BuilderState) (c : Call) (type : Option PacketType) (t : BuilderState) :
    Prop where
  packets : ∀ calls, s.packetsThen (c :: calls) = t.packetsThen calls
  actions : ∀ calls, s.actionsThen (c :: calls) = t.actionsThen calls
  ended : c = .endPacket → ∃ chunk p, t.currentChunk = some chunk ∧
    chunk.packets.getLast? = some p ∧
      (type = some .endOfBlock ↔ ∃ a ∈ p.actions, a.updatesPc ≠ .none)

section Step

variable {ph : Phase} {s : BuilderState} {c : Call}

/-- A node in a packet. -/
theorem follows_insert {arena : Arena} {chunk : BuiltChunk} {p : BuiltPacket} {made : ℕ}
    {node : Node} : ∃ t,
      (BuilderState.mk (some arena) (some chunk) false (some p) made).step (.insert node) =
        .ret none t ∧ Follows ⟨some arena, some chunk, false, some p, made⟩ (.insert node) none t ∧
      t = ⟨some { arena with nodes := arena.nodes ++ [node] }, some chunk, false,
        some (if node.isAction then p.appendAction node else p), made⟩ := by
  cases hnode : node.isAction with
  | true =>
    refine ⟨_, by simp [BuilderState.step, BuilderState.insert, hnode]; rfl, ⟨fun calls => ?_,
      fun calls => ?_, nofun⟩, by simp⟩
    · simp [BuilderState.packetsThen, BuiltPacket.fill, packetsBegun, hnode]
    · simp [BuilderState.actionsThen, insertedActions, BuiltPacket.appendAction, hnode]
  | false =>
    refine ⟨_, by simp [BuilderState.step, BuilderState.insert, hnode]; rfl, ⟨fun calls => ?_,
      fun calls => ?_, nofun⟩, by simp⟩
    · simp [BuilderState.packetsThen, BuiltPacket.fill, packetsBegun, hnode]
    · simp [BuilderState.actionsThen, insertedActions, hnode]

/-- What a call does that does not break the builder. -/
theorem step_of_tracks (h : Tracks ph s) (hc : ¬Breaks ph c) :
    (ph.next c = none ∧ ∃ msg, s.step c = .throw msg s) ∨
      ∃ ph' type t, ph.next c = some ph' ∧ s.step c = .ret type t ∧ Tracks ph' t ∧
        Follows s c type t := by
  cases h with
  | idle =>
    cases c with
    | beginChunk name =>
      exact .inr ⟨_, _, _, rfl, rfl, .inChunk (Nat.lt_succ_self _), fun _ => rfl, fun _ => rfl,
        nofun⟩
    | insert node => exact absurd (.inl rfl) hc
    | _ => exact .inl ⟨rfl, _, rfl⟩
  | @inChunk arena chunk made hmade =>
    cases c with
    | beginChunk name => exact absurd nofun hc
    | endChunk => exact .inr ⟨_, _, _, rfl, rfl, .done, fun _ => rfl, fun _ => rfl, nofun⟩
    | beginPacket address disassembly =>
      refine .inr ⟨_, _, _, rfl, rfl, .inPacket hmade, fun calls => ?_, fun calls => ?_, nofun⟩
      · simp [BuilderState.packetsThen, packetsBegun]
      · simp [BuilderState.actionsThen, insertedActions]
    | insert node =>
      have hnode : node.isAction = false := by simpa [Breaks] using hc
      refine .inr ⟨.inChunk, none, ⟨some { arena with nodes := arena.nodes ++ [node] }, some chunk,
        false, none, made⟩, ?_, ?_, .inChunk hmade, fun calls => ?_, fun calls => ?_, nofun⟩
      · simp [Phase.next, hnode]
      · simp [BuilderState.step, BuilderState.insert, hnode]
      · simp [BuilderState.packetsThen, packetsBegun]
      · simp [BuilderState.actionsThen, insertedActions, hnode]
    | _ => exact .inl ⟨rfl, _, rfl⟩
  | @inPacket arena chunk p made hmade =>
    cases c with
    | beginChunk name => exact absurd nofun hc
    | endChunk => exact absurd rfl hc
    | endPacket =>
      refine .inr ⟨_, _, _, rfl, rfl, .inChunk hmade, fun calls => ?_, fun calls => ?_,
        fun _ => ⟨_, p, rfl, List.getLast?_concat, ?_⟩⟩
      · simp [BuilderState.packetsThen, BuiltPacket.fill, packetsBegun]
      · simp [BuilderState.actionsThen, insertedActions]
      · rw [← p.updatesPc_ne_none]
        split_ifs with hp
        · exact iff_of_true rfl hp
        · exact iff_of_false nofun hp
    | insert node =>
      obtain ⟨t, hstep, hfollows, rfl⟩ := follows_insert
      exact .inr ⟨_, _, _, rfl, hstep, .inPacket hmade, hfollows⟩
    | allocLocal type =>
      refine .inr ⟨_, _, _, rfl, rfl, .inPacket hmade, fun _ => rfl, fun calls => ?_, nofun⟩
      simp [BuilderState.actionsThen, insertedActions, BuiltPacket.allocLocal]
    | _ => exact .inl ⟨rfl, _, rfl⟩
  | done =>
    cases c with
    | beginChunk name => exact absurd nofun hc
    | insert node => exact absurd (.inr (.inl rfl)) hc
    | getChunk => exact .inr ⟨_, _, _, rfl, rfl, .done, fun _ => rfl, fun _ => rfl, nofun⟩
    | _ => exact .inl ⟨rfl, _, rfl⟩

theorem stepRight_of_not_breaks (h : Tracks ph s) (hc : ¬Breaks ph c) : StepRight ph s c := by
  rcases step_of_tracks h hc with ⟨hnext, msg, hstep⟩ | ⟨ph', type, t, hnext, hstep, -, hfollows⟩
  · exact ⟨fun _ => ⟨msg, s, hstep, rfl, rfl, rfl, rfl⟩, fun hne => absurd hnext hne⟩
  · refine ⟨fun hnone => ?_, fun _ => ⟨type, t, hstep, hfollows.ended⟩⟩
    rw [hnext] at hnone
    exact nomatch hnone

/-- A call that breaks the builder is out of order, and it does not only throw. -/
theorem not_stepRight_of_breaks (h : Tracks ph s) (hc : Breaks ph c) : ¬StepRight ph s c := by
  rintro ⟨hillegal, -⟩
  cases h with
  | idle =>
    cases c with
    | beginChunk name => exact hc rfl
    | insert node =>
      obtain ⟨msg, t, hstep, -⟩ := hillegal rfl
      exact nomatch hstep
    | endChunk => exact nomatch hc
    | _ => exact hc
  | inChunk hmade =>
    cases c with
    | beginChunk name =>
      obtain ⟨msg, t, hstep, hsame, -⟩ := hillegal rfl
      obtain ⟨-, rfl⟩ := Outcome.throw.inj hstep
      exact absurd (congrArg Arena.id (Option.some.inj hsame)) (Nat.ne_of_gt hmade)
    | insert node =>
      have hnode : node.isAction := by simpa [Breaks] using hc
      obtain ⟨msg, t, hstep, hsame, -⟩ := hillegal (by simp [Phase.next, hnode])
      rw [BuilderState.step, BuilderState.insert] at hstep
      simp only [hnode, if_true, Outcome.throw.injEq] at hstep
      obtain ⟨-, rfl⟩ := hstep
      exact absurd (congrArg (·.nodes.length) (Option.some.inj hsame)) (by simp)
    | endChunk => exact nomatch hc
    | _ => exact hc
  | inPacket hmade =>
    cases c with
    | beginChunk name =>
      obtain ⟨msg, t, hstep, hsame, -⟩ := hillegal rfl
      obtain ⟨-, rfl⟩ := Outcome.throw.inj hstep
      exact absurd (congrArg Arena.id (Option.some.inj hsame)) (Nat.ne_of_gt hmade)
    | endChunk =>
      obtain ⟨msg, t, hstep, hsame, -⟩ := hillegal rfl
      obtain ⟨-, rfl⟩ := Outcome.throw.inj hstep
      exact nomatch hsame
    | insert node => simp [Breaks] at hc
    | _ => exact hc
  | done =>
    cases c with
    | beginChunk name =>
      obtain ⟨msg, t, hstep, hsame, -⟩ := hillegal rfl
      obtain ⟨-, rfl⟩ := Outcome.throw.inj hstep
      exact nomatch hsame
    | insert node =>
      obtain ⟨msg, t, hstep, -⟩ := hillegal rfl
      exact nomatch hstep
    | endChunk => exact nomatch hc
    | _ => exact hc

/-- The builder after a call that does not break it. -/
theorem state_of_tracks (h : Tracks ph s) (hc : ¬Breaks ph c) :
    ∃ t, (s.step c).state = some t ∧ Tracks (ph.after c) t ∧ ∀ calls,
      s.packetsThen (legalCalls ph (c :: calls)) =
        t.packetsThen (legalCalls (ph.after c) calls) ∧
      s.actionsThen (legalCalls ph (c :: calls)) =
        t.actionsThen (legalCalls (ph.after c) calls) := by
  rcases step_of_tracks h hc with ⟨hnext, msg, hstep⟩ |
    ⟨ph', type, t, hnext, hstep, htracks, hfollows⟩
  · have hafter : ph.after c = ph := by rw [Phase.after, hnext]; rfl
    rw [hafter]
    refine ⟨s, by rw [hstep]; rfl, h, fun calls => ?_⟩
    rw [legalCalls, hnext, hafter]
    exact ⟨rfl, rfl⟩
  · have hafter : ph.after c = ph' := by rw [Phase.after, hnext]; rfl
    rw [hafter]
    refine ⟨t, by rw [hstep]; rfl, htracks, fun calls => ?_⟩
    have hlegal : legalCalls ph (c :: calls) = c :: legalCalls ph' calls := by
      rw [legalCalls, if_pos (by rw [hnext]; rfl), hafter]
    rw [hlegal]
    exact ⟨hfollows.packets _, hfollows.actions _⟩

end Step

/-! ## Runs -/

section Runs

/-- A run of calls that do not break the builder. -/
theorem run_of_careful : ∀ {calls : List Call} {ph : Phase} {s : BuilderState}, Tracks ph s →
    Careful ph calls → ∃ t, runCalls calls s = some t ∧ Tracks (phaseAfter ph calls) t ∧
      s.packetsThen (legalCalls ph calls) = t.packetsThen [] ∧
      s.actionsThen (legalCalls ph calls) = t.actionsThen []
  | [], _, s, h, _ => ⟨s, rfl, h, rfl, rfl⟩
  | c :: calls, ph, s, h, hcareful => by
    obtain ⟨t, hstate, htracks, hthen⟩ := state_of_tracks h hcareful.1
    obtain ⟨u, hrun, hu, hpackets, hactions⟩ := run_of_careful htracks hcareful.2
    obtain ⟨hp, ha⟩ := hthen calls
    refine ⟨u, ?_, hu, hp.trans hpackets, ha.trans hactions⟩
    rw [runCalls, hstate]
    exact hrun

theorem stepsRight_iff : ∀ {calls : List Call} {ph : Phase} {s : BuilderState}, Tracks ph s →
    (StepsRight ph s calls ↔ Careful ph calls)
  | [], _, _, _ => Iff.rfl
  | c :: calls, ph, s, h => by
    rw [StepsRight, Careful]
    constructor
    · rintro ⟨hright, hrest⟩
      have hc : ¬Breaks ph c := fun hc => not_stepRight_of_breaks h hc hright
      obtain ⟨t, hstate, htracks, -⟩ := state_of_tracks h hc
      exact ⟨hc, (stepsRight_iff htracks).1 (hrest t hstate)⟩
    · rintro ⟨hc, hrest⟩
      obtain ⟨t, hstate, htracks, -⟩ := state_of_tracks h hc
      refine ⟨stepRight_of_not_breaks h hc, fun u hu => ?_⟩
      obtain rfl := Option.some.inj (hstate.symm.trans hu)
      exact (stepsRight_iff htracks).2 hrest

end Runs

end Arancini.Ir.DefaultBuilder
