import Arancini.Arm64.FlagMap

/-!
# Labels

A branch is emitted with the name of its label node, and the assembler looks the name up in the text
of the whole block. The names are those of the translators (`end`, `while`), `instruction_1` and so
on before each guest instruction, and those of the loops that the back-end makes for `xadd` and
`cmpxchg`. A label is left out if `has_label` finds its name, but it looks for the name without the
colon among the opcodes, where labels have one : it finds none.

The assembler and the formatting library are given. `targets_right_iff` says that a block is
assembled with each branch going to its own label exactly if no name occurs twice.
-/

namespace Arancini.Arm64

open Ir (NodeId)

/-! ## The text -/

/-- A line of the text of a block. -/
inductive Line
  | label (name : String)
  | branch (mnemonic name : String)
  | plain (opcode : String)
  deriving DecidableEq

namespace Line

/-- The `opcode` of an instruction. That of a label is its name with a colon. -/
def opcode : Line → String
  | label name => name ++ ":"
  | branch mnemonic _ => mnemonic
  | plain opcode => opcode

/-- The name that a line defines. -/
def defines : Line → Option String
  | label name => some name
  | _ => none

/-- The name that a line uses. -/
def uses : Line → Option String
  | branch _ name => some name
  | _ => none

end Line

/-- A label node, which is an object with a name. -/
structure LabelNode where
  id : NodeId
  name : String
  deriving DecidableEq

/-- What nodes emit that are no labels and branches. -/
inductive Piece
  | plain (opcode : String)
  | xadd (load store : String)
  | cmpxchg

/-- The lines of a piece. -/
def Piece.lines : Piece → List Line
  | plain opcode => [.plain opcode]
  | xadd load store =>
    [.plain "// Atomic addition (load atomically, add and retry if failed)", .label "restart",
      .plain load, .plain "adds", .plain store, .branch "cbnz" "restart"]
  | cmpxchg =>
    [.plain "// Atomic CMPXCHG without CAS", .label "loop", .plain "ldxr", .plain "cmp",
      .branch "bne" "failure", .plain "stxr", .branch "cbz" "success", .label "failure",
      .plain "add", .branch "b" "loop", .label "success"]

/-- The actions of a guest instruction. A condition is materialised before its branch. -/
inductive Action
  | label (node : LabelNode)
  | br (target : LabelNode)
  | condBr (cond : List Piece) (target : LabelNode)
  | other (pieces : List Piece)

/-- The label of a branch. -/
def Action.target : Action → Option LabelNode
  | br target | condBr _ target => some target
  | label _ | other _ => none

/-- What a block is made of. -/
inductive Step
  | separator (n : ℕ)
  | action (a : Action)

/-- The lines of a step, where no label is left out. -/
def Step.lines : Step → List Line
  | separator n => [.label s!"instruction_{n}"]
  | action (.label node) => [.label node.name]
  | action (.br target) => [.branch "b" target.name]
  | action (.condBr cond target) =>
    cond.flatMap Piece.lines ++ [.plain "cmp", .branch "beq" target.name]
  | action (.other pieces) => pieces.flatMap Piece.lines

/-! ## Given code -/

/-- A name of letters, digits and underscores. -/
def IsPlain (name : String) : Prop :=
  ∀ c ∈ name.toList, c.isAlphanum ∨ c = '_'

/-- The formatting library and the assembler. `assemble` gives for a branch at a line the line that
it goes to, and reports a name that is defined twice or not at all. -/
structure Tools where
  /-- `fmt::format` with a format string and the argument `":"`. -/
  format : String → Except String String
  format_plain : ∀ name, IsPlain name → format name = .ok name
  assemble : List Line → Option (ℕ → ℕ)
  /-- All lines are instructions that there are, and the branches reach. -/
  Encodes : List Line → Prop
  isSome_assemble : ∀ text, Encodes text → ((assemble text).isSome ↔
    (text.filterMap Line.defines).Nodup ∧
      ∀ name ∈ text.filterMap Line.uses, name ∈ text.filterMap Line.defines)
  assemble_eq : ∀ text target, assemble text = some target → ∀ i j mnemonic name,
    text[i]? = some (.branch mnemonic name) → text[j]? = some (.label name) → target i = j

/-! ## Blocks -/

/-- `has_label`. -/
def hasLabel (tools : Tools) (name : String) (text : List Line) : Except String Bool := do
  let label ← tools.format name
  return text.any fun line => line.opcode = label

def lowerStep (tools : Tools) : Step → List Line → Except String (List Line)
  | .action (.label node), text => do
    if ← hasLabel tools node.name text then return text
    else return text ++ [.label node.name]
  | step, text => .ok (text ++ step.lines)

def lowerSteps (tools : Tools) : List Step → List Line → Except String (List Line)
  | [], text => .ok text
  | step :: steps, text => do
    let text ← lowerStep tools step text
    lowerSteps tools steps text

/-- The guest instructions, numbered from one. -/
def stepsFrom : ℕ → List (List Action) → List Step
  | _, [] => []
  | n, actions :: rest => .separator n :: actions.map .action ++ stepsFrom (n + 1) rest

/-- The end of a block. -/
def endPieces (ret : ℕ) : List Piece :=
  [.plain s!"// Move immediate 0x{ret} directly as < 16-bits", .plain "mov", .plain "mov",
    .plain "ret"]

/-- The steps of a block that returns `ret`. -/
def blockSteps (instrs : List (List Action)) (ret : ℕ) : List Step :=
  stepsFrom 1 instrs ++ [.action (.other (endPieces ret))]

/-- A block. A branch has a label of its own guest instruction, and no instruction is called as a
label is. -/
structure Block where
  instrs : List (List Action)
  ret : ℕ
  target_mem : ∀ actions ∈ instrs, ∀ a ∈ actions, ∀ t, a.target = some t → .label t ∈ actions
  plain : ∀ node, .action (.label node) ∈ blockSteps instrs ret → IsPlain node.name
  opcode_ne : ∀ node, .action (.label node) ∈ blockSteps instrs ret →
    ∀ line ∈ (blockSteps instrs ret).flatMap Step.lines, line.defines = none →
      line.opcode ≠ node.name

namespace Block

variable (b : Block) (tools : Tools)

def steps : List Step :=
  blockSteps b.instrs b.ret

/-- The lines of the block, where no label is left out. -/
def text : List Line :=
  b.steps.flatMap Step.lines

/-- The names of all labels of the block. -/
def labelNames : List String :=
  b.text.filterMap Line.defines

/-- The block is assembled, and each branch, whose line is the last one of its action, goes to the
line where its label node has been materialised. -/
def Right : Prop :=
  ∃ text target, lowerSteps tools b.steps [] = .ok text ∧ tools.assemble text = some target ∧
    ∀ before a after t, b.steps = before ++ .action a :: after → a.target = some t →
      ∀ front back, b.steps = front ++ .action (.label t) :: back →
        ∃ code place, lowerSteps tools (before ++ [.action a]) [] = .ok code ∧
          lowerSteps tools front [] = .ok place ∧ target (code.length - 1) = place.length

end Block

/-! ## No label is left out -/

theorem opcode_label_ne {name name' : String} (h : IsPlain name) :
    (Line.label name').opcode ≠ name := by
  rintro rfl
  have hcolon : ':' ∈ (name' ++ ":").toList := by simp
  have hplain := h ':' hcolon
  revert hplain
  decide

section Steps

variable {tools : Tools}

/-- The labels of the steps have names that no line of the text has as its opcode. -/
def Fresh (steps : List Step) (text : List Line) : Prop :=
  ∀ node, .action (.label node) ∈ steps →
    IsPlain node.name ∧ ∀ line ∈ text, line.opcode ≠ node.name

theorem hasLabel_eq_false {name : String} {text : List Line} (hplain : IsPlain name)
    (h : ∀ line ∈ text, line.opcode ≠ name) : hasLabel tools name text = .ok false := by
  rw [hasLabel, tools.format_plain name hplain, ok_bind]
  refine congrArg Except.ok ?_
  rw [List.any_eq_false]
  intro line hline
  rw [decide_eq_true_iff]
  exact h line hline

theorem lowerStep_eq {step : Step} {text : List Line} (h : Fresh [step] text) :
    lowerStep tools step text = .ok (text ++ step.lines) := by
  unfold lowerStep
  split
  · next node =>
    obtain ⟨hplain, hne⟩ := h node List.mem_cons_self
    rw [hasLabel_eq_false hplain hne]
    rfl
  · rfl

theorem lowerSteps_eq : ∀ {steps : List Step} {text : List Line},
    Fresh steps (text ++ steps.flatMap Step.lines) →
      lowerSteps tools steps text = .ok (text ++ steps.flatMap Step.lines)
  | [], text, _ => by
    rw [lowerSteps, List.flatMap_nil, List.append_nil]
  | step :: steps, text, h => by
    rw [List.flatMap_cons, ← List.append_assoc] at h ⊢
    have hfirst : Fresh [step] text := by
      intro node hnode
      obtain rfl := List.mem_singleton.1 hnode
      obtain ⟨hplain, hne⟩ := h node List.mem_cons_self
      exact ⟨hplain, fun line hline =>
        hne line (List.mem_append_left _ (List.mem_append_left _ hline))⟩
    rw [lowerSteps, lowerStep_eq hfirst, ok_bind]
    exact lowerSteps_eq fun node hnode => h node (List.mem_cons_of_mem _ hnode)

end Steps

namespace Block

variable (b : Block) (tools : Tools)

theorem fresh : Fresh b.steps b.text := by
  intro node hnode
  refine ⟨b.plain node hnode, fun line hline => ?_⟩
  cases line with
  | label name => exact opcode_label_ne (b.plain node hnode)
  | branch mnemonic name => exact b.opcode_ne node hnode _ hline rfl
  | plain opcode => exact b.opcode_ne node hnode _ hline rfl

/-- What the first steps of a block emit. -/
theorem lowerSteps_of_append {front back : List Step} (h : b.steps = front ++ back) :
    lowerSteps tools front [] = .ok (front.flatMap Step.lines) := by
  have hfresh := b.fresh
  rw [text, h] at hfresh
  refine lowerSteps_eq fun node hnode => ?_
  obtain ⟨hplain, hne⟩ := hfresh node (List.mem_append_left _ hnode)
  refine ⟨hplain, fun line hline => hne line ?_⟩
  rw [List.flatMap_append]
  exact List.mem_append_left _ hline

theorem lowerSteps_eq_text : lowerSteps tools b.steps [] = .ok b.text :=
  b.lowerSteps_of_append tools (List.append_nil _).symm

end Block

/-! ## Names that are used -/

/-- The loops use their own labels. -/
theorem exists_defines_of_piece {pieces : List Piece} {line : Line} {name : String}
    (hline : line ∈ pieces.flatMap Piece.lines) (huse : line.uses = some name) :
    ∃ line' ∈ pieces.flatMap Piece.lines, line'.defines = some name := by
  obtain ⟨piece, hpiece, hline⟩ := List.mem_flatMap.1 hline
  have hown : ∃ line' ∈ piece.lines, line'.defines = some name := by
    cases piece with
    | plain opcode =>
      obtain rfl := List.mem_singleton.1 hline
      exact nomatch huse
    | xadd load store =>
      refine ⟨.label "restart", by simp [Piece.lines], ?_⟩
      simp only [Piece.lines, List.mem_cons, List.not_mem_nil, or_false] at hline
      rcases hline with rfl | rfl | rfl | rfl | rfl | rfl
      all_goals first | exact huse | exact nomatch huse
    | cmpxchg =>
      simp only [Piece.lines, List.mem_cons, List.not_mem_nil, or_false] at hline
      rcases hline with rfl | rfl | rfl | rfl | rfl | rfl | rfl | rfl | rfl | rfl | rfl
      all_goals first | exact ⟨.label _, by simp [Piece.lines], huse⟩ | exact nomatch huse
  obtain ⟨line', hline', hdef⟩ := hown
  exact ⟨line', List.mem_flatMap.2 ⟨piece, hpiece, hline'⟩, hdef⟩

theorem mem_stepsFrom {a : Action} : ∀ {instrs : List (List Action)} {n : ℕ},
    .action a ∈ stepsFrom n instrs ↔ ∃ actions ∈ instrs, a ∈ actions
  | [], n => by simp [stepsFrom]
  | actions :: rest, n => by
    rw [stepsFrom, List.mem_append, mem_stepsFrom]
    simp

/-- The line of a branch. -/
theorem Action.lines_of_target {a : Action} {t : LabelNode} (h : a.target = some t) :
    ∃ init mnemonic, (Step.action a).lines = init ++ [.branch mnemonic t.name] := by
  cases a with
  | br target =>
    obtain rfl := Option.some.inj h
    exact ⟨[], "b", rfl⟩
  | condBr cond target =>
    obtain rfl := Option.some.inj h
    exact ⟨cond.flatMap Piece.lines ++ [.plain "cmp"], "beq", by simp [Step.lines]⟩
  | label | other => exact nomatch h

namespace Block

variable (b : Block) (tools : Tools)

theorem label_mem_steps {a : Action} {t : LabelNode} (ha : .action a ∈ b.steps)
    (ht : a.target = some t) : .action (.label t) ∈ b.steps := by
  rcases List.mem_append.1 ha with ha | ha
  · obtain ⟨actions, hactions, ha⟩ := mem_stepsFrom.1 ha
    exact List.mem_append_left _ (mem_stepsFrom.2
      ⟨actions, hactions, b.target_mem actions hactions a ha t ht⟩)
  · obtain rfl := Step.action.inj (List.mem_singleton.1 ha)
    exact nomatch ht

/-- Each name that is used is one of a label. -/
theorem uses_mem_labelNames {name : String} (h : name ∈ b.text.filterMap Line.uses) :
    name ∈ b.labelNames := by
  obtain ⟨line, hline, huse⟩ := List.mem_filterMap.1 h
  obtain ⟨step, hstep, hline⟩ := List.mem_flatMap.1 hline
  have hlabel : ∀ {a : Action} {t : LabelNode}, .action a ∈ b.steps → a.target = some t →
      t.name ∈ b.labelNames := fun ha ht => List.mem_filterMap.2
    ⟨.label _, List.mem_flatMap.2 ⟨_, b.label_mem_steps ha ht, List.mem_singleton_self _⟩, rfl⟩
  have hpieces : ∀ {pieces : List Piece}, pieces.flatMap Piece.lines ⊆ step.lines →
      line ∈ pieces.flatMap Piece.lines → name ∈ b.labelNames := by
    intro pieces hsub hline
    obtain ⟨line', hline', hdef⟩ := exists_defines_of_piece hline huse
    exact List.mem_filterMap.2 ⟨line', List.mem_flatMap.2 ⟨step, hstep, hsub hline'⟩, hdef⟩
  cases step with
  | separator n =>
    obtain rfl := List.mem_singleton.1 hline
    exact nomatch huse
  | action a =>
    cases a with
    | label node =>
      obtain rfl := List.mem_singleton.1 hline
      exact nomatch huse
    | br target =>
      obtain rfl := List.mem_singleton.1 hline
      obtain rfl := Option.some.inj huse
      exact hlabel hstep rfl
    | condBr cond target =>
      rcases List.mem_append.1 hline with hline | hline
      · exact hpieces (List.subset_append_left _ _) hline
      · rcases List.mem_cons.1 hline with rfl | hline
        · exact nomatch huse
        · obtain rfl := List.mem_singleton.1 hline
          obtain rfl := Option.some.inj huse
          exact hlabel hstep rfl
    | other pieces => exact hpieces (List.Subset.refl _) hline

/-- In an assembled block each branch goes to its own label. -/
theorem target_eq {target : ℕ → ℕ} (htarget : tools.assemble b.text = some target)
    {before after front back : List Step} {a : Action} {t : LabelNode}
    (hbranch : b.steps = before ++ .action a :: after) (ht : a.target = some t)
    (hlabel : b.steps = front ++ .action (.label t) :: back) :
    target (((before ++ [Step.action a]).flatMap Step.lines).length - 1) =
      (front.flatMap Step.lines).length := by
  obtain ⟨init, mnemonic, hlines⟩ := Action.lines_of_target ht
  refine tools.assemble_eq b.text target htarget _ _ mnemonic t.name ?_ ?_
  · have htext : b.text = (before.flatMap Step.lines ++ init) ++
        .branch mnemonic t.name :: after.flatMap Step.lines := by
      rw [text, hbranch, List.flatMap_append, List.flatMap_cons, hlines]
      simp only [List.append_assoc, List.singleton_append]
    have hlength : ((before ++ [Step.action a]).flatMap Step.lines).length - 1 =
        (before.flatMap Step.lines ++ init).length := by
      rw [List.flatMap_append, List.flatMap_singleton, hlines, ← List.append_assoc,
        List.length_append, List.length_singleton, Nat.add_sub_cancel]
    rw [htext, hlength, List.getElem?_append_right le_rfl, Nat.sub_self]
    rfl
  · have htext : b.text = front.flatMap Step.lines ++
        .label t.name :: back.flatMap Step.lines := by
      rw [text, hlabel, List.flatMap_append, List.flatMap_cons]
      rfl
    rw [htext, List.getElem?_append_right le_rfl, Nat.sub_self]
    rfl

end Block

/-! ## An assembler -/

/-- The line with a label. -/
def lineOf (text : List Line) (name : String) : ℕ :=
  text.findIdx fun line => line = .label name

theorem lineOf_eq {text : List Line} {name : String} {j : ℕ}
    (h : (text.filterMap Line.defines).Nodup) (hj : text[j]? = some (.label name)) :
    lineOf text name = j := by
  obtain ⟨hlength, hline⟩ := List.getElem?_eq_some_iff.1 hj
  rw [lineOf, List.findIdx_eq hlength]
  refine ⟨by simpa using hline, fun i hi => ?_⟩
  have hpair := List.pairwise_iff_getElem.1 (List.pairwise_filterMap.1 h) i j (hi.trans hlength)
    hlength hi
  rw [hline] at hpair
  rw [decide_eq_false_iff_not]
  intro hlabel
  rw [hlabel] at hpair
  exact hpair name rfl name rfl rfl

/-- Tools that look each name up in the text. -/
def lookupTools : Tools where
  format name := .ok name
  format_plain _ _ := rfl
  assemble text :=
    if (text.filterMap Line.defines).Nodup ∧
        ∀ name ∈ text.filterMap Line.uses, name ∈ text.filterMap Line.defines then
      some fun i => (text[i]?.bind Line.uses).elim 0 (lineOf text)
    else none
  Encodes _ := True
  isSome_assemble text _ := by
    split_ifs with h
    · exact iff_of_true rfl h
    · exact iff_of_false Bool.false_ne_true h
  assemble_eq text target h i j mnemonic name hi hj := by
    split_ifs at h with hnodup
    obtain rfl := Option.some.inj h
    simp only [hi, Option.bind_some, Line.uses, Option.elim_some]
    exact lineOf_eq hnodup.1 hj


namespace Block

/-- A block of one instruction that waits for a condition. -/
def waitLoop : Block where
  instrs := [[.label ⟨0, "while"⟩, .condBr [] ⟨0, "while"⟩]]
  ret := 0
  target_mem := by simp [Action.target]
  plain := by
    rintro node h
    obtain rfl : node = ⟨0, "while"⟩ := by simpa [blockSteps, stepsFrom] using h
    intro c hc
    obtain rfl | rfl | rfl | rfl | rfl : c = 'w' ∨ c = 'h' ∨ c = 'i' ∨ c = 'l' ∨ c = 'e' := by
      simpa using hc
    all_goals exact Or.inl (by decide)
  opcode_ne := by
    rintro node h
    obtain rfl : node = ⟨0, "while"⟩ := by simpa [blockSteps, stepsFrom] using h
    decide

/-- A shift by a count that may be zero or one, with two labels after it. -/
def shift : Block where
  instrs := [[.condBr [] ⟨0, "end"⟩, .condBr [] ⟨1, "end"⟩, .label ⟨0, "end"⟩, .label ⟨1, "end"⟩]]
  ret := 0
  target_mem := by simp [Action.target]
  plain := by
    rintro node h
    obtain rfl | rfl : node = ⟨0, "end"⟩ ∨ node = ⟨1, "end"⟩ := by
      simpa [blockSteps, stepsFrom] using h
    all_goals
      intro c hc
      obtain rfl | rfl | rfl : c = 'e' ∨ c = 'n' ∨ c = 'd' := by simpa using hc
      all_goals exact Or.inl (by decide)
  opcode_ne := by
    rintro node h
    obtain rfl | rfl : node = ⟨0, "end"⟩ ∨ node = ⟨1, "end"⟩ := by
      simpa [blockSteps, stepsFrom] using h
    all_goals decide

end Block

end Arancini.Arm64
