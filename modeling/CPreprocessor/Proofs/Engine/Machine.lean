import CPreprocessor.Session
import CPreprocessor.Proofs.Engine.Lines
import CPreprocessor.Proofs.Engine.Steps
import CPreprocessor.Proofs.Macro.Guard

/-!
The engine with its include stack and its expansion guard as mutable state. A path is pushed before
a file is processed and the last one is popped after it, also where the file fails; the files that
may still nest below it are counted on the stack itself. The engine that passes both as arguments
gives the same states and results.
-/

set_option autoImplicit false

namespace CPreprocessor

namespace Expander

def setState (expander : Expander) (state : State) : Expander := { expander with state := state }

def emit (expander : Expander) (tokens : List Token) : Expander :=
  expander.setState { expander.state with output := expander.state.output ++ tokens }

def pushFile (expander : Expander) (path : Path) : Expander :=
  { expander with files := path :: expander.files }

def popFile (expander : Expander) : Expander := { expander with files := expander.files.tail }

def sought (expander : Expander) (environment : Environment) (operands : List Token) : Expander :=
  expander.setState (expander.state.sought environment expander.files operands)

def opened (expander : Expander) (environment : Environment) (path : Path) (text : Text) :
    Expander :=
  (expander.setState (expander.state.entered environment path text)).pushFile path

theorem expandName_emit (expander : Expander) (name : Token) (tail : List Token) :
    (expander.expandName name tail).expander.emit (expander.expandName name tail).tokens =
        expander.setState
          (expander.state.emit (expander.table.expandHead expander.guard name tail).1) ∧
      (expander.expandName name tail).rest =
        (expander.table.expandHead expander.guard name tail).2 := by
  obtain ⟨agrees, rest⟩ := expandName_agrees expander name tail
    (fun definition replacement _ _ => rescan_agrees (expander.enter definition.key) replacement)
  refine ⟨?_, rest⟩
  rw [agrees.tokens, agrees.state]
  rfl

theorem expandName_files (expander : Expander) (name : Token) (tail : List Token) :
    ((expander.expandName name tail).expander.emit
      (expander.expandName name tail).tokens).files = expander.files := by
  rw [(expandName_emit expander name tail).1]
  rfl

end Expander

-- What a run leaves, its result, and the include stack after each change of it. The stack comes back
-- as it was, so that the files included later may nest as deep as the first.
structure Ran (α : Type) (start : Expander) where
  expander : Expander
  result : α
  moments : List (List Path)
  files : expander.files = start.files

namespace Machine

abbrev Includes (environment : Environment) (files : List Path) :=
  (path : Path) → (text : Text) → (expander : Expander) → expander.files = files →
    expander.files.length < environment.config.maxIncludeDepth → Ran (Option Failure) expander

section

variable (environment : Environment) {files : List Path} (includes : Includes environment files)

def directive (floor : Nat) (name : Token) (operands : List Token) (expander : Expander)
    (here : expander.files = files) : Ran (Option Failure) expander :=
  if expander.state.includes name then
    match found : Inclusion.ofOperands environment expander.files name operands with
    | .refused problem failure =>
        ⟨(expander.sought environment operands).report name problem, failure, [], rfl⟩
    | .entered path text =>
        let run := includes path text (expander.sought environment operands) here
          (Inclusion.entered_fresh environment expander.files name operands path text found).2
        ⟨run.expander, run.result, run.moments, run.files⟩
  else ⟨expander.setState (expander.state.obey floor name operands), none, [], rfl⟩

def lines (floor : Nat) (lineStart : Bool) (tokens : List Token) (expander : Expander)
    (here : expander.files = files) : Ran (Option Failure) expander :=
  match tokens with
  | [] => ⟨expander, none, [], rfl⟩
  | token :: tail =>
      match _line : if lineStart then DirectiveLine.ofLine? (token :: tail) else none with
      | some line =>
          let step := directive environment includes floor line.name line.operands expander here
          match step.result with
          | some failure => ⟨step.expander, some failure, step.moments, step.files⟩
          | none =>
              let later := lines floor true line.rest step.expander (step.files.trans here)
              ⟨later.expander, later.result, step.moments ++ later.moments,
                later.files.trans step.files⟩
      | none =>
          if expander.state.isActive then
            let step := expander.expandName token tail
            have same : (step.expander.emit step.tokens).files = expander.files :=
              expander.expandName_files token tail
            let later := lines floor token.isNewline step.rest (step.expander.emit step.tokens)
              (same.trans here)
            ⟨later.expander, later.result, later.moments, later.files.trans same⟩
          else lines floor token.isNewline tail expander here
termination_by tokens.length
decreasing_by
  · split at _line
    · exact DirectiveLine.ofLine_rest_lt _line
    · cases _line
  · exact Nat.lt_succ_of_le (expander.expandName token tail).consumed.length_le
  · exact Nat.lt_succ_self _

def processFile (tokens : List Token) (expander : Expander) (here : expander.files = files) :
    Ran (Except Failure Nat) expander :=
  let floor := expander.state.stack.depth
  let run := lines environment includes floor true tokens expander here
  let outcome := Engine.finish floor (run.expander.state, run.result)
  ⟨run.expander.setState outcome.1, outcome.2, run.moments, run.files⟩

end

def leaving {α β : Type} {expander opened : Expander} (path : Path)
    (pushed : opened.files = path :: expander.files) (answer : α → β) (run : Ran α opened) :
    Ran β expander :=
  ⟨run.expander.popFile, answer run.result, opened.files :: run.moments ++ [run.expander.popFile.files],
    by rw [Expander.popFile, run.files, pushed]; rfl⟩

def process (environment : Environment) (tokens : List Token) (expander : Expander) :
    Ran (Except Failure Nat) expander :=
  processFile environment
    (fun path text inner _here _below =>
      leaving path rfl Engine.failureOf
        (process environment (inner.state.nextText environment path.text text).tokens
          (inner.opened environment path text)))
    tokens expander rfl
termination_by environment.config.maxIncludeDepth - expander.files.length
decreasing_by
  have longer : (inner.opened environment path text).files.length = inner.files.length + 1 := rfl
  rw [_here] at _below
  rw [longer, _here]
  omega

def processIncluded (environment : Environment) (path : Path) (text : Text) (expander : Expander) :
    Ran (Option Failure) expander :=
  leaving path rfl Engine.failureOf
    (process environment (expander.state.nextText environment path.text text).tokens
      (expander.opened environment path text))

theorem process_eq (environment : Environment) (tokens : List Token) (expander : Expander) :
    process environment tokens expander =
      processFile environment (fun path text inner _ _ => processIncluded environment path text inner)
        tokens expander rfl := by
  rw [process]
  rfl

def preprocess (environment : Environment) (root : Lexed) (expander : Expander) :
    Ran (Option Failure) expander :=
  let opened := (expander.setState (expander.state.reportAll root.diagnostics)).pushFile ⟨root.file⟩
  leaving ⟨root.file⟩ rfl (Engine.rootFailure root.file) (process environment root.tokens opened)

-- The run gives an outcome of the engine that passes its stacks as arguments, and changes nothing
-- but the state.
structure Follows {α : Type} {start : Expander} (run : Ran α start) (outcome : State × α) : Prop where
  expander : run.expander = start.setState outcome.1
  result : run.result = outcome.2

theorem follows_later {α : Type} {start middle : Expander} (state : State) (run : Ran α middle)
    (engine : State → State × α) (reached : middle = start.setState state)
    (follows : Follows run (engine middle.state)) :
    run.expander = start.setState (engine state).1 ∧ run.result = (engine state).2 := by
  subst reached
  exact ⟨follows.expander, follows.result⟩

section

variable (environment : Environment) {files : List Path} (includes : Includes environment files)
  (followed : ∀ path text inner (here : inner.files = files)
    (below : inner.files.length < environment.config.maxIncludeDepth), inner.guard = [] →
      Follows (includes path text inner here below)
        (Engine.includeWithin environment files path text inner.state))
include followed

theorem directive_follows (floor : Nat) (name : Token) (operands : List Token) (expander : Expander)
    (here : expander.files = files) (guard : expander.guard = []) :
    Follows (directive environment includes floor name operands expander here)
      ((Engine.within environment files).directive floor name operands expander.state) := by
  subst here
  rw [Engine.directive_within, directive]
  by_cases included : expander.state.includes name = true
  · rw [if_pos included, if_pos included]
    split
    · rename_i problem failure found
      simp only [found]
      exact ⟨rfl, rfl⟩
    · rename_i path text found
      simp only [found]
      have follows := followed path text (expander.sought environment operands) rfl
        (Inclusion.entered_fresh environment expander.files name operands path text found).2 guard
      exact ⟨follows.expander, follows.result⟩
  · rw [if_neg included, if_neg included]
    exact ⟨rfl, rfl⟩

theorem lines_follows (floor : Nat) (lineStart : Bool) (tokens : List Token) (expander : Expander)
    (here : expander.files = files) (guard : expander.guard = []) :
    Follows (lines environment includes floor lineStart tokens expander here)
      ((Engine.within environment files).lines floor lineStart tokens expander.state) := by
  fun_induction lines environment includes floor lineStart tokens expander here with
  | case1 lineStart expander here =>
      rw [Engine.Context.lines]
      exact ⟨rfl, rfl⟩
  | case2 lineStart expander here token tail line found step failure failed =>
      have outcome := directive_follows environment includes followed floor line.name line.operands
        expander here guard
      have result := outcome.result.symm.trans failed
      rw [Engine.Context.lines_stopped _ floor lineStart _ line _ failure found result]
      exact ⟨outcome.expander, result.symm⟩
  | case3 lineStart expander here token tail line found step passed later _ ih =>
      have outcome := directive_follows environment includes followed floor line.name line.operands
        expander here guard
      have result := outcome.result.symm.trans passed
      have follows := ih (by rw [outcome.expander]; exact guard)
      obtain ⟨reached, answer⟩ := follows_later _ later
        ((Engine.within environment files).lines floor true line.rest) outcome.expander follows
      rw [Engine.Context.lines_passed _ floor lineStart _ line _ found result]
      exact ⟨reached, answer⟩
  | case4 lineStart expander here token tail plain active step same later _ ih =>
      obtain ⟨emitted, rest⟩ := expander.expandName_emit token tail
      have follows := ih (by rw [emitted]; exact guard)
      obtain ⟨reached, answer⟩ := follows_later _ later
        ((Engine.within environment files).lines floor token.isNewline step.rest) emitted follows
      rw [Engine.Context.lines_notDirective _ floor lineStart _ _ plain,
        Engine.Context.lines_active _ floor token tail _ active]
      rw [rest, guard] at reached answer
      exact ⟨reached, answer⟩
  | case5 lineStart expander here token tail plain inactive ih =>
      rw [Engine.Context.lines_notDirective _ floor lineStart _ _ plain,
        Engine.Context.lines_inactive _ floor token tail _ (by simpa using inactive)]
      exact ih guard

theorem processFile_follows (tokens : List Token) (expander : Expander)
    (here : expander.files = files) (guard : expander.guard = []) :
    Follows (processFile environment includes tokens expander here)
      ((Engine.within environment files).processFile tokens expander.state) := by
  have follows := lines_follows environment includes followed expander.state.stack.depth true tokens
    expander here guard
  rw [Engine.processFile_finish]
  have same : ((lines environment includes expander.state.stack.depth true tokens expander
        here).expander.state,
      (lines environment includes expander.state.stack.depth true tokens expander here).result) =
      (Engine.within environment files).lines expander.state.stack.depth true tokens
        expander.state := by
    rw [follows.expander, follows.result]
    rfl
  rw [← same]
  have moved : ∀ state, (lines environment includes expander.state.stack.depth true tokens expander
      here).expander.setState state = expander.setState state := by
    intro state
    rw [follows.expander]
    rfl
  exact ⟨moved _, rfl⟩

end

theorem leaving_follows {α β : Type} (expander : Expander) (state : State) (path : Path)
    (answer : α → β) (run : Ran α ((expander.setState state).pushFile path))
    (outcome : State × α) (follows : Follows run outcome) :
    Follows (@leaving α β expander _ path rfl answer run) (outcome.1, answer outcome.2) := by
  refine ⟨?_, congrArg answer follows.result⟩
  change run.expander.popFile = _
  rw [follows.expander]
  rfl

theorem process_follows (environment : Environment) (tokens : List Token) (expander : Expander)
    (guard : expander.guard = []) :
    Follows (process environment tokens expander)
      ((Engine.within environment expander.files).processFile tokens expander.state) := by
  induction measured : environment.config.maxIncludeDepth - expander.files.length
    using Nat.strongRecOn generalizing tokens expander with
  | ind size ih =>
      rw [process_eq]
      apply processFile_follows environment _ _ tokens expander rfl guard
      intro path text inner here below guarded
      have deeper : environment.config.maxIncludeDepth -
          (inner.opened environment path text).files.length < size := by
        have longer : (inner.opened environment path text).files.length = inner.files.length + 1 :=
          rfl
        rw [longer, ← measured, ← here]
        omega
      have follows := ih _ deeper (inner.state.nextText environment path.text text).tokens
        (inner.opened environment path text) guarded rfl
      rw [Engine.includeWithin, Engine.enterWith_failureOf, ← here]
      exact leaving_follows inner _ path Engine.failureOf _ _ follows

theorem processIncluded_follows (environment : Environment) (path : Path) (text : Text)
    (expander : Expander) (guard : expander.guard = []) :
    Follows (processIncluded environment path text expander)
      (Engine.includeWithin environment expander.files path text expander.state) := by
  rw [Engine.includeWithin, Engine.enterWith_failureOf]
  exact leaving_follows expander _ path Engine.failureOf _ _
    (process_follows environment _ (expander.opened environment path text) guard)

theorem preprocess_follows (environment : Environment) (root : Lexed) (expander : Expander)
    (files : expander.files = []) (guard : expander.guard = []) :
    Follows (preprocess environment root expander)
      (Engine.preprocess environment root expander.state) := by
  have follows := process_follows environment root.tokens
    ((expander.setState (expander.state.reportAll root.diagnostics)).pushFile ⟨root.file⟩) guard
  have rooted : ((expander.setState (expander.state.reportAll root.diagnostics)).pushFile
      ⟨root.file⟩).files = [⟨root.file⟩] := congrArg (List.cons (⟨root.file⟩ : Path)) files
  rw [rooted] at follows
  rw [Engine.preprocess_within]
  exact leaving_follows expander _ ⟨root.file⟩ (Engine.rootFailure root.file) _ _ follows

end Machine

end CPreprocessor
