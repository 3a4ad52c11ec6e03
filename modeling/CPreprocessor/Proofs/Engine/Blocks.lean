import CPreprocessor.Proofs.Engine.Lines

/-!
Conditional blocks as a tree. A program is a sequence of lines and blocks, and a block holds
programs. Its meaning is found by recursion on the tree, with no stack: of a block only the branch
that its test selects is read. The engine, which sees a flat list of tokens and keeps a stack of
frames, gives every program that meaning.
-/

set_option autoImplicit false

namespace CPreprocessor

abbrev LineOf (directive : Directive) := { line : HashLine // line.directive = directive }

structure TestLine extends HashLine where
  defined : Bool
  operand : Token
  tests : toHashLine.directive = if defined then .ifdef else .ifndef
  tested : Operand.macroName? operands = some operand

-- Each constructor puts an item in front of the program after it.
inductive Program where
  | done
  | text (line : TextLine) (next : Program)
  | define (line : LineOf .define) (next : Program)
  | undef (line : LineOf .undef) (next : Program)
  | block (test : TestLine) (body : Program) (close : LineOf .endif) (next : Program)
  | choice (test : TestLine) (body : Program) (middle : LineOf .elseBranch) (other : Program)
      (close : LineOf .endif) (next : Program)

structure Effects where
  macros : MacroTable
  output : Array Token
  log : Log

namespace Effects

def ofState (state : State) : Effects := ⟨state.macros, state.output, state.log⟩

def into (effects : Effects) (state : State) : State :=
  { state with macros := effects.macros, output := effects.output, log := effects.log }

def emit (effects : Effects) (expansion : Expansion) : Effects :=
  { effects with
    output := effects.output ++ expansion.tokens
    log := effects.log.reportAll expansion.diagnostics }

def report (effects : Effects) (token : Token) (problem : Problem) : Effects :=
  { effects with log := effects.log.report (problem.located token.location) }

def define (effects : Effects) (line : HashLine) : Effects :=
  match Operand.definition line.name line.operands with
  | .ok definition => { effects with macros := effects.macros.define definition }
  | .error (token, problem) => effects.report token problem

def undef (effects : Effects) (line : HashLine) : Effects :=
  match Operand.macroName? line.operands with
  | some operand => { effects with macros := effects.macros.erase operand.text }
  | none => effects.report line.name (.missingMacroName line.name.text)

def satisfies (effects : Effects) (test : TestLine) : Bool :=
  effects.macros.contains test.operand.text == test.defined

end Effects

namespace Program

def tokens : Program → List Token
  | .done => []
  | .text line next => line.tokens ++ next.tokens
  | .define line next => line.val.tokens ++ next.tokens
  | .undef line next => line.val.tokens ++ next.tokens
  | .block test body close next =>
      test.tokens ++ (body.tokens ++ (close.val.tokens ++ next.tokens))
  | .choice test body middle other close next =>
      test.tokens ++ (body.tokens ++ (middle.val.tokens ++ (other.tokens ++
        (close.val.tokens ++ next.tokens))))

def Before : Program → List Token → Prop
  | .done, _ => True
  | .text _ next, rest => next.Before rest
  | .define line next, rest => line.val.Before (next.tokens ++ rest) ∧ next.Before rest
  | .undef line next, rest => line.val.Before (next.tokens ++ rest) ∧ next.Before rest
  | .block test body close next, rest =>
      let closing := close.val.tokens ++ (next.tokens ++ rest)
      test.Before (body.tokens ++ closing) ∧ body.Before closing ∧
        close.val.Before (next.tokens ++ rest) ∧ next.Before rest
  | .choice test body middle other close next, rest =>
      let closing := close.val.tokens ++ (next.tokens ++ rest)
      let second := middle.val.tokens ++ (other.tokens ++ closing)
      test.Before (body.tokens ++ second) ∧ body.Before second ∧
        middle.val.Before (other.tokens ++ closing) ∧ other.Before closing ∧
        close.val.Before (next.tokens ++ rest) ∧ next.Before rest

def eval : Program → Effects → Effects
  | .done, effects => effects
  | .text line next, effects =>
      next.eval (effects.emit (effects.macros.expandAll [] line.tokens))
  | .define line next, effects => next.eval (effects.define line)
  | .undef line next, effects => next.eval (effects.undef line)
  | .block test body _ next, effects =>
      next.eval (if effects.satisfies test then body.eval effects else effects)
  | .choice test body _ other _ next, effects =>
      next.eval (if effects.satisfies test then body.eval effects else other.eval effects)

end Program

namespace Conditional.Stack

theorem topAbove_cons (frame : Frame) (below : List Frame) (floor : Nat)
    (above : floor < below.length) : topAbove? ⟨frame :: below⟩ floor = some (frame, below) := by
  unfold topAbove? depth
  rw [if_pos (by simpa using above)]

theorem push_active (stack : Stack) (condition : Bool) (opener : Token)
    (active : stack.isActive = true) :
    stack.push condition opener =
      ⟨⟨if condition then .active else .waiting, false, some opener⟩ :: stack.frames⟩ := by
  simp [push, pushState, active]

theorem push_inactive (stack : Stack) (condition : Bool) (opener : Token)
    (inactive : stack.isActive = false) :
    stack.push condition opener = ⟨⟨.taken, false, some opener⟩ :: stack.frames⟩ := by
  simp [push, pushState, inactive]

end Conditional.Stack

def State.within (state : State) (frame : Conditional.Frame) : State :=
  { state with stack := ⟨frame :: state.stack.frames⟩ }

theorem State.within_above (state : State) (frame : Conditional.Frame) (floor : Nat)
    (above : floor < state.stack.frames.length) :
    floor < (state.within frame).stack.frames.length := Nat.lt_succ_of_lt above

theorem Effects.ofState_within (state : State) (frame : Conditional.Frame) :
    ofState (state.within frame) = ofState state := rfl

theorem Effects.into_within (effects : Effects) (state : State) (frame : Conditional.Frame) :
    effects.into (state.within frame) = (effects.into state).within frame := rfl

namespace Engine.Context

open Conditional

variable (context : Context) (floor : Nat)

theorem directive_test (test : TestLine) (state : State) :
    context.directive floor test.name test.operands state =
      ({ state with
          stack := state.stack.push ((Effects.ofState state).satisfies test) test.name }, none) := by
  have kind := test.tests
  unfold HashLine.directive at kind
  unfold directive
  rw [kind]
  cases defined : test.defined <;>
    simp [State.openTest, test.tested, Effects.satisfies, Effects.ofState, defined]

theorem directive_else (line : LineOf .elseBranch) (state : State) (branch : FrameState)
    (opener : Option Token) (above : floor < state.stack.frames.length) :
    context.directive floor line.val.name line.val.operands
        (state.within ⟨branch, false, opener⟩) =
      (state.within ⟨branch.afterElse, true, opener⟩, none) := by
  have kind := line.property
  unfold HashLine.directive at kind
  unfold directive
  rw [kind]
  simp [State.flipBlock, State.settle, Stack.flipElse, State.within, Stack.topAbove_cons _ _ floor above]

theorem directive_endif (line : LineOf .endif) (state : State) (frame : Frame)
    (above : floor < state.stack.frames.length) :
    context.directive floor line.val.name line.val.operands (state.within frame) =
      (state, none) := by
  have kind := line.property
  unfold HashLine.directive at kind
  unfold directive
  rw [kind]
  simp [State.closeBlock, State.settle, Stack.pop, State.within, Stack.topAbove_cons _ _ floor above]

theorem directive_define (line : LineOf .define) (state : State) (active : state.isActive = true) :
    context.directive floor line.val.name line.val.operands state =
      (((Effects.ofState state).define line).into state, none) := by
  have kind := line.property
  unfold HashLine.directive at kind
  unfold directive
  rw [kind]
  simp only [active, if_true, effect, State.defineMacro, Effects.define]
  cases Operand.definition line.val.name line.val.operands <;> rfl

theorem directive_undef (line : LineOf .undef) (state : State) (active : state.isActive = true) :
    context.directive floor line.val.name line.val.operands state =
      (((Effects.ofState state).undef line).into state, none) := by
  have kind := line.property
  unfold HashLine.directive at kind
  unfold directive
  rw [kind]
  simp only [active, if_true, effect, State.undefineMacro, Effects.undef]
  cases Operand.macroName? line.val.operands <;> rfl

theorem directive_inert (directive : Directive) (line : LineOf directive) (state : State)
    (macros : directive = .define ∨ directive = .undef) (inactive : state.isActive = false) :
    context.directive floor line.val.name line.val.operands state = (state, none) := by
  have kind := line.property
  unfold HashLine.directive at kind
  unfold Context.directive
  rw [kind]
  rcases macros with same | same <;> simp [same, inactive]

theorem lines_test (test : TestLine) (rest : List Token) (state : State)
    (fits : test.Before rest) (active : state.isActive = true) :
    context.lines floor true (test.tokens ++ rest) state =
      context.lines floor true rest (state.within
        ⟨if (Effects.ofState state).satisfies test then .active else .waiting, false,
          some test.name⟩) := by
  rw [lines_hash context floor test.toHashLine rest state _ fits
    (directive_test context floor test state), Stack.push_active state.stack _ test.name active]
  rfl

theorem lines_skipTest (test : TestLine) (rest : List Token) (state : State)
    (fits : test.Before rest) (inactive : state.isActive = false) :
    context.lines floor true (test.tokens ++ rest) state =
      context.lines floor true rest (state.within ⟨.taken, false, some test.name⟩) := by
  rw [lines_hash context floor test.toHashLine rest state _ fits
    (directive_test context floor test state),
    Stack.push_inactive state.stack _ test.name inactive]
  rfl

theorem lines_else (line : LineOf .elseBranch) (rest : List Token) (state : State)
    (branch : FrameState) (opener : Option Token) (fits : line.val.Before rest)
    (above : floor < state.stack.frames.length) :
    context.lines floor true (line.val.tokens ++ rest) (state.within ⟨branch, false, opener⟩) =
      context.lines floor true rest (state.within ⟨branch.afterElse, true, opener⟩) :=
  lines_hash context floor line rest _ _ fits
    (directive_else context floor line state branch opener above)

theorem lines_endif (line : LineOf .endif) (rest : List Token) (state : State) (frame : Frame)
    (fits : line.val.Before rest) (above : floor < state.stack.frames.length) :
    context.lines floor true (line.val.tokens ++ rest) (state.within frame) =
      context.lines floor true rest state :=
  lines_hash context floor line rest _ state fits
    (directive_endif context floor line state frame above)

-- In a block that is not active a program does nothing: a block opened there never becomes active,
-- and its end restores the stack.
theorem lines_skipProgram (program : Program) (rest : List Token) (state : State)
    (fits : program.Before rest) (inactive : state.isActive = false)
    (above : floor < state.stack.frames.length) :
    context.lines floor true (program.tokens ++ rest) state =
      context.lines floor true rest state := by
  induction program generalizing rest state with
  | done => rfl
  | text line next ih =>
      rw [Program.tokens, List.append_assoc, lines_skipText context floor line _ state inactive]
      exact ih rest state fits inactive above
  | define line next ih =>
      rw [Program.tokens, List.append_assoc, lines_hash context floor line _ state state fits.1
        (directive_inert context floor _ line state (Or.inl rfl) inactive)]
      exact ih rest state fits.2 inactive above
  | undef line next ih =>
      rw [Program.tokens, List.append_assoc, lines_hash context floor line _ state state fits.1
        (directive_inert context floor _ line state (Or.inr rfl) inactive)]
      exact ih rest state fits.2 inactive above
  | block test body close next bodySkipped nextSkipped =>
      obtain ⟨testFits, bodyFits, closeFits, nextFits⟩ := fits
      simp only [Program.tokens, List.append_assoc]
      rw [lines_skipTest context floor test _ state testFits inactive,
        bodySkipped _ (state.within _) bodyFits rfl (state.within_above _ floor above),
        lines_endif context floor close _ state _ closeFits above]
      exact nextSkipped rest state nextFits inactive above
  | choice test body middle other close next bodySkipped otherSkipped nextSkipped =>
      obtain ⟨testFits, bodyFits, middleFits, otherFits, closeFits, nextFits⟩ := fits
      simp only [Program.tokens, List.append_assoc]
      rw [lines_skipTest context floor test _ state testFits inactive,
        bodySkipped _ (state.within _) bodyFits rfl (state.within_above _ floor above),
        lines_else context floor middle _ state .taken _ middleFits above,
        otherSkipped _ (state.within _) otherFits rfl (state.within_above _ floor above),
        lines_endif context floor close _ state _ closeFits above]
      exact nextSkipped rest state nextFits inactive above

-- Inside a block the stack has one more frame and all else is as before it; what the block changes
-- besides the stack is what the evaluator computes for the branch that the test selects.
theorem lines_program (program : Program) (rest : List Token) (state : State)
    (fits : program.Before rest) (active : state.isActive = true)
    (above : floor < state.stack.frames.length) :
    context.lines floor true (program.tokens ++ rest) state =
      context.lines floor true rest ((program.eval (.ofState state)).into state) := by
  induction program generalizing rest state with
  | done => rfl
  | text line next ih =>
      rw [Program.tokens, List.append_assoc, lines_text context floor line _ state active]
      exact ih rest _ fits active above
  | define line next ih =>
      rw [Program.tokens, List.append_assoc, lines_hash context floor line _ state _ fits.1
        (directive_define context floor line state active)]
      exact ih rest _ fits.2 active above
  | undef line next ih =>
      rw [Program.tokens, List.append_assoc, lines_hash context floor line _ state _ fits.1
        (directive_undef context floor line state active)]
      exact ih rest _ fits.2 active above
  | block test body close next bodyRun nextRun =>
      obtain ⟨testFits, bodyFits, closeFits, nextFits⟩ := fits
      simp only [Program.tokens, List.append_assoc, Program.eval]
      rw [lines_test context floor test _ state testFits active]
      cases (Effects.ofState state).satisfies test with
      | true =>
          let after := (body.eval (.ofState state)).into state
          rw [if_pos rfl, if_pos rfl, bodyRun _ (state.within _) bodyFits rfl (state.within_above _ floor above),
            Effects.ofState_within, Effects.into_within,
            lines_endif context floor close _ after _ closeFits above]
          exact nextRun rest after nextFits active above
      | false =>
          rw [if_neg Bool.false_ne_true, if_neg Bool.false_ne_true,
            lines_skipProgram context floor body _ (state.within _) bodyFits rfl (state.within_above _ floor above),
            lines_endif context floor close _ state _ closeFits above]
          exact nextRun rest state nextFits active above
  | choice test body middle other close next bodyRun otherRun nextRun =>
      obtain ⟨testFits, bodyFits, middleFits, otherFits, closeFits, nextFits⟩ := fits
      simp only [Program.tokens, List.append_assoc, Program.eval]
      rw [lines_test context floor test _ state testFits active]
      cases (Effects.ofState state).satisfies test with
      | true =>
          let after := (body.eval (.ofState state)).into state
          rw [if_pos rfl, if_pos rfl, bodyRun _ (state.within _) bodyFits rfl (state.within_above _ floor above),
            Effects.ofState_within, Effects.into_within,
            lines_else context floor middle _ after .active _ middleFits above,
            lines_skipProgram context floor other _ (after.within _) otherFits rfl
              (after.within_above _ floor above),
            lines_endif context floor close _ after _ closeFits above]
          exact nextRun rest after nextFits active above
      | false =>
          let after := (other.eval (.ofState state)).into state
          rw [if_neg Bool.false_ne_true, if_neg Bool.false_ne_true,
            lines_skipProgram context floor body _ (state.within _) bodyFits rfl
              (state.within_above _ floor above),
            lines_else context floor middle _ state .waiting _ middleFits above,
            otherRun _ (state.within _) otherFits rfl (state.within_above _ floor above),
            Effects.ofState_within, Effects.into_within,
            lines_endif context floor close _ after _ closeFits above]
          exact nextRun rest after nextFits active above

theorem processFile_of_lines (tokens : List Token) (state after : State)
    (run : context.lines state.stack.depth true tokens state = (after, none))
    (same : after.stack = state.stack) :
    context.processFile tokens state = (after, .ok 0) := by
  have none : after.stack.closeAbove state.stack.depth = ([], after.stack) := by
    simp [Stack.closeAbove, same]
  simp [processFile, run, none, State.reportAll, Log.reportAll]

theorem processFile_program (program : Program) (state : State) (fits : program.Before [])
    (active : state.stack.frames.head?.map Frame.state = some .active) :
    context.processFile program.tokens state =
      ((program.eval (.ofState state)).into state, .ok 0) := by
  cases frames : state.stack.frames with
  | nil => simp [frames] at active
  | cons frame below =>
      have reached : state.isActive = true := by
        simp only [frames, List.head?_cons, Option.map_some, Option.some.injEq] at active
        simp [State.isActive, Stack.isActive, Stack.top, frames, active, FrameState.isActive]
      have above : state.stack.depth < state.stack.frames.length := by
        simp [Stack.depth, frames]
      have run := lines_program context state.stack.depth program [] state fits reached above
      rw [List.append_nil] at run
      refine processFile_of_lines context program.tokens state _ (run.trans ?_) rfl
      rw [lines]

end Engine.Context

namespace Program.Sample

def line (name : String) (operands : List Token)
    (unbroken : ∀ token ∈ operands, token.isNewline = false) : HashLine where
  indent := []
  hash := .spelled .other "#"
  gap := []
  name := .spelled .name name
  operands := operands
  newline := some (.spelled .newline "\n")
  indentBlank := by simp
  hashed := by decide
  gapBlank := by simp
  named := rfl
  unbroken := unbroken
  ends := by decide

def whether (name : String) : TestLine where
  toHashLine := line "ifdef" [.spelled .spaceTab " ", .spelled .name name]
    (by simp [Token.spelled, Token.isNewline])
  defined := true
  operand := .spelled .name name
  tests := rfl
  tested := rfl

def word (name : String) : TextLine where
  body := [.spelled .name name]
  newline := .spelled .newline "\n"
  unbroken := by simp [Token.spelled, Token.isNewline]
  ends := rfl
  plain := rfl
  balanced := rfl

def defineA : LineOf .define :=
  ⟨line "define"
    [.spelled .spaceTab " ", .spelled .name "A", .spelled .spaceTab " ", .spelled .name "b"]
    (by decide), rfl⟩

def middle : LineOf .elseBranch := ⟨line "else" [] (by simp), rfl⟩

def close : LineOf .endif := ⟨line "endif" [] (by simp), rfl⟩

def program : Program :=
  .choice (whether "A") (.text (word "left") .done) middle
    (.define defineA (.block (whether "A") (.text (word "A") .done) close .done)) close
    (.text (word "A") .done)

theorem fits : program.Before [] := by
  simp [program, Program.Before, HashLine.Before, whether, defineA, middle, close, line]

def context : Engine.Context := ⟨⟨.default, MemoryFiles.empty.loader, .fromOne⟩, [], none⟩

end Program.Sample

open Program in
theorem processFile_sample :
    Sample.program.Before [] ∧
      State.initial.stack.frames.head?.map Conditional.Frame.state = some .active ∧
      (Sample.context.processFile Sample.program.tokens .initial).2 = .ok 0 ∧
      (Sample.context.processFile Sample.program.tokens .initial).1.output.toList.flatMap Token.text =
        "b\nb\n".toList := by
  refine ⟨Sample.fits, rfl, ?_⟩
  rw [Engine.Context.processFile_program Sample.context Sample.program .initial Sample.fits rfl]
  refine ⟨rfl, ?_⟩
  cbv

end CPreprocessor
