import CPreprocessor.Engine.Run
import CPreprocessor.Proofs.Conditional.History

/-!
What one directive can do. An `#include` line in an active block is refused with a report, or enters
a file; every other directive changes the state by itself, whatever files are being processed.
-/

set_option autoImplicit false

namespace CPreprocessor

def State.obey (state : State) (floor : Nat) (name : Token) (operands : List Token) : State :=
  match Directive.ofName name.text with
  | .ifdef => state.openTest true name operands
  | .ifndef => state.openTest false name operands
  | .ifExpression => state.openUnsupported name
  | .elifExpression => state.suppressBlock floor name
  | .elseBranch => state.flipBlock floor name
  | .endif => state.closeBlock floor name
  | .define => if state.isActive then state.defineMacro name operands else state
  | .undef => if state.isActive then state.undefineMacro name operands else state
  | .inclusion => state
  | .unknown =>
      if state.isActive then state.report name (.unknownDirective name.text) else state

inductive MacroTable.Moves (name : Token) (operands : List Token) : MacroTable → MacroTable → Prop
  | same (table : MacroTable) : Moves name operands table table
  | defined (table : MacroTable) (definition : Macro)
      (written : Operand.definition name operands = .ok definition) :
      Moves name operands table (table.define definition)
  | erased (table : MacroTable) (removed : Text) : Moves name operands table (table.erase removed)

inductive Log.Moves : Log → Log → Prop
  | same (log : Log) : Moves log log
  | reported (log : Log) (token : Token) (problem : Problem) (own : problem.code ≠ .includeNotFound) :
      Moves log (log.report (problem.located token.location))

-- All that a directive can do that enters no file.
structure State.Obeys (floor : Nat) (name : Token) (operands : List Token) (before after : State) :
    Prop where
  stack : Conditional.Stack.Moves floor before.stack after.stack
  macros : MacroTable.Moves name operands before.macros after.macros
  output : after.output = before.output
  dependencies : after.dependencies = before.dependencies
  log : Log.Moves before.log after.log
  reads : after.reads = before.reads
  lexings : after.lexings = before.lexings

theorem Log.Moves.entries {before after : Log} (moves : Moves before after) :
    before.entries.toList <+: after.entries.toList := by
  cases moves with
  | same => exact List.prefix_refl _
  | reported token problem own => simp [report]

namespace Operand

theorem moreParameters_fault (paren : Token) (seen tokens : List Token) (fault : Fault)
    (failed : moreParameters paren seen tokens = .error fault) :
    fault.2.code = .directiveSyntax := by
  fun_induction moreParameters paren seen tokens with
  | case1 seen tokens start => cases failed; rfl
  | case2 seen tokens parameter tail start unnamed => cases failed; rfl
  | case3 seen tokens parameter tail start named again => cases failed; rfl
  | case4 seen tokens parameter tail start named fresh next => cases failed; rfl
  | case5 seen tokens parameter tail start named fresh separator after next comma ih => exact ih failed
  | case6 seen tokens parameter tail start named fresh separator after next comma closes => cases failed
  | case7 seen tokens parameter tail start named fresh separator after next comma closes =>
      cases failed
      rfl

theorem parameters_fault (paren : Token) (tokens : List Token) (fault : Fault)
    (failed : parameters paren tokens = .error fault) : fault.2.code = .directiveSyntax := by
  rw [parameters] at failed
  split at failed
  · exact moreParameters_fault paren [] tokens fault failed
  · split at failed
    · cases failed
    · exact moreParameters_fault paren [] tokens fault failed

theorem definition_fault (directive : Token) (operands : List Token) (fault : Fault)
    (failed : definition directive operands = .error fault) : fault.2.code = .directiveSyntax := by
  rw [definition] at failed
  split at failed
  · cases failed
    rfl
  · split at failed
    · cases failed
      rfl
    · split at failed
      · cases failed
      · rename_i paren inner _
        split at failed
        · cases listed : parameters paren inner with
          | ok given => simp [listed] at failed
          | error found =>
              rw [listed] at failed
              cases failed
              exact parameters_fault paren inner fault listed
        · cases failed

end Operand

namespace State

variable (state : State) (floor : Nat) (name : Token) (operands : List Token)

theorem obeys_same : Obeys floor name operands state state :=
  ⟨.same _, .same _, rfl, rfl, .same _, rfl, rfl⟩

theorem obeys_report (token : Token) (problem : Problem) (own : problem.code ≠ .includeNotFound) :
    Obeys floor name operands state (state.report token problem) :=
  ⟨.same _, .same _, rfl, rfl, .reported _ token problem own, rfl, rfl⟩

theorem obeys_moved (noted : State) (stack : Conditional.Stack)
    (reported : Obeys floor name operands state noted)
    (moves : Conditional.Stack.Moves floor state.stack stack) :
    Obeys floor name operands state { noted with stack := stack } :=
  ⟨moves, reported.macros, reported.output, reported.dependencies, reported.log, reported.reads,
    reported.lexings⟩

theorem obeys_openTest (defined : Bool) :
    Obeys floor name operands state (state.openTest defined name operands) := by
  have suppressed := Conditional.Stack.pushSuppressed_moves state.stack floor name
  rw [openTest]
  cases Operand.macroName? operands with
  | some operand =>
      exact obeys_moved state floor name operands state _ (obeys_same ..)
        (Conditional.Stack.push_moves state.stack floor _ name)
  | none =>
      cases state.isActive with
      | true =>
          exact obeys_moved state floor name operands _ _
            (obeys_report state floor name operands name (.missingMacroName name.text)
              (show Code.directiveSyntax ≠ _ by decide)) suppressed
      | false => exact obeys_moved state floor name operands state _ (obeys_same ..) suppressed

theorem obeys_openUnsupported : Obeys floor name operands state (state.openUnsupported name) := by
  have suppressed := Conditional.Stack.pushSuppressed_moves state.stack floor name
  rw [openUnsupported]
  cases state.isActive with
  | true =>
      exact obeys_moved state floor name operands _ _
        (obeys_report state floor name operands name .unsupportedIf (by decide)) suppressed
  | false => exact obeys_moved state floor name operands state _ (obeys_same ..) suppressed

theorem obeys_settle {α : Type} (outcome : Except Conditional.Misuse α × Conditional.Stack)
    (moves : Conditional.Stack.Moves floor state.stack outcome.2) :
    Obeys floor name operands state (state.settle name outcome) := by
  obtain ⟨answer, stack⟩ := outcome
  cases answer with
  | error misuse =>
      exact ⟨moves, .same _, rfl, rfl, .reported _ name (.misplacedConditional misuse)
        (show Code.unbalancedConditional ≠ _ by decide), rfl, rfl⟩
  | ok value => exact obeys_moved state floor name operands state stack (obeys_same ..) moves

theorem obeys_suppressBlock : Obeys floor name operands state (state.suppressBlock floor name) := by
  have moves := Conditional.Stack.suppress_moves state.stack floor
  have settled := obeys_settle state floor name operands (state.stack.suppress floor) moves
  rw [suppressBlock]
  generalize state.stack.suppress floor = outcome at moves settled
  obtain ⟨misuse | before, stack⟩ := outcome
  · exact settled
  · dsimp only
    by_cases taken : before = .taken
    · rw [if_pos taken]
      exact settled
    · rw [if_neg taken]
      exact ⟨moves, .same _, rfl, rfl, .reported _ name .unsupportedElif (by decide), rfl, rfl⟩

theorem obeys_flipBlock : Obeys floor name operands state (state.flipBlock floor name) :=
  obeys_settle state floor name operands _ (Conditional.Stack.flipElse_moves state.stack floor)

theorem obeys_closeBlock : Obeys floor name operands state (state.closeBlock floor name) :=
  obeys_settle state floor name operands _ (Conditional.Stack.pop_moves state.stack floor)

theorem obeys_defineMacro : Obeys floor name operands state (state.defineMacro name operands) := by
  rw [defineMacro]
  cases written : Operand.definition name operands with
  | error fault =>
      have malformed := Operand.definition_fault name operands fault written
      exact obeys_report state floor name operands fault.1 fault.2 (by rw [malformed]; decide)
  | ok definition =>
      exact ⟨.same _, .defined _ definition written, rfl, rfl, .same _, rfl, rfl⟩

theorem obeys_undefineMacro :
    Obeys floor name operands state (state.undefineMacro name operands) := by
  rw [undefineMacro]
  cases Operand.macroName? operands with
  | none =>
      exact obeys_report state floor name operands name _ (show Code.directiveSyntax ≠ _ by decide)
  | some operand => exact ⟨.same _, .erased _ operand.text, rfl, rfl, .same _, rfl, rfl⟩

theorem obey_obeys : Obeys floor name operands state (state.obey floor name operands) := by
  rw [obey]
  cases Directive.ofName name.text with
  | ifdef => exact obeys_openTest state floor name operands true
  | ifndef => exact obeys_openTest state floor name operands false
  | ifExpression => exact obeys_openUnsupported state floor name operands
  | elifExpression => exact obeys_suppressBlock state floor name operands
  | elseBranch => exact obeys_flipBlock state floor name operands
  | endif => exact obeys_closeBlock state floor name operands
  | inclusion => exact obeys_same state floor name operands
  | define =>
      cases state.isActive with
      | true => exact obeys_defineMacro state floor name operands
      | false => exact obeys_same state floor name operands
  | undef =>
      cases state.isActive with
      | true => exact obeys_undefineMacro state floor name operands
      | false => exact obeys_same state floor name operands
  | unknown =>
      cases state.isActive with
      | true =>
          exact obeys_report state floor name operands name _
            (show Code.unknownDirective ≠ _ by decide)
      | false => exact obeys_same state floor name operands

-- A change of something that blocks are not about, such as the macros or the output.
structure Aside (change : State → State) : Prop where
  stack : ∀ state, (change state).stack = state.stack
  log : ∀ state, (change state).log = state.log
  keeps : ∀ state stack log, change { state with stack := stack, log := log } =
    { change state with stack := stack, log := log }

section

variable {change : State → State} (aside : Aside change)
include aside

theorem Aside.isActive : (change state).isActive = state.isActive := by
  rw [State.isActive, State.isActive, aside.stack]

theorem Aside.report (token : Token) (problem : Problem) :
    (change state).report token problem = change (state.report token problem) := by
  have kept := aside.keeps state state.stack (state.log.report (problem.located token.location))
  rw [State.report, State.report, kept, ← aside.stack state, aside.log]

theorem Aside.move (stack : Conditional.Stack) :
    { change state with stack := stack } = change { state with stack := stack } := by
  have kept := aside.keeps state stack state.log
  rw [kept, ← aside.log state]

theorem Aside.openTest (defined : Bool)
    (same : ∀ operand ∈ Operand.macroName? operands,
      (change state).macros.contains operand.text = state.macros.contains operand.text) :
    (change state).openTest defined name operands = change (state.openTest defined name operands) := by
  rw [State.openTest, State.openTest]
  cases found : Operand.macroName? operands with
  | some operand =>
      dsimp only
      rw [same operand found, aside.move, aside.stack]
  | none =>
      dsimp only
      rw [aside.isActive, aside.report]
      cases state.isActive with
      | true => rw [if_pos rfl, if_pos rfl, aside.move, aside.stack]
      | false =>
          rw [if_neg Bool.false_ne_true, if_neg Bool.false_ne_true, aside.move, aside.stack]

theorem Aside.openUnsupported :
    (change state).openUnsupported name = change (state.openUnsupported name) := by
  rw [State.openUnsupported, State.openUnsupported, aside.isActive, aside.report]
  cases state.isActive with
  | true => rw [if_pos rfl, if_pos rfl, aside.move, aside.stack]
  | false => rw [if_neg Bool.false_ne_true, if_neg Bool.false_ne_true, aside.move, aside.stack]

theorem Aside.settle {α : Type} (outcome : Except Conditional.Misuse α × Conditional.Stack) :
    (change state).settle name outcome = change (state.settle name outcome) := by
  obtain ⟨answer, stack⟩ := outcome
  cases answer with
  | error misuse =>
      rw [State.settle, State.settle, aside.move]
      exact aside.report _ name _
  | ok value => exact aside.move state stack

theorem Aside.suppressBlock :
    (change state).suppressBlock floor name = change (state.suppressBlock floor name) := by
  have settled := aside.settle state name (state.stack.suppress floor)
  rw [State.suppressBlock, State.suppressBlock, aside.stack]
  generalize state.stack.suppress floor = outcome at settled
  obtain ⟨misuse | before, stack⟩ := outcome
  · exact settled
  · dsimp only
    rw [aside.move, aside.report]
    split <;> rfl

theorem Aside.flipBlock :
    (change state).flipBlock floor name = change (state.flipBlock floor name) := by
  rw [State.flipBlock, State.flipBlock, aside.stack]
  exact aside.settle state name _

theorem Aside.closeBlock :
    (change state).closeBlock floor name = change (state.closeBlock floor name) := by
  rw [State.closeBlock, State.closeBlock, aside.stack]
  exact aside.settle state name _

end

end State

def State.includes (state : State) (name : Token) : Bool :=
  Directive.ofName name.text == .inclusion && state.isActive

inductive Inclusion where
  | refused (problem : Problem) (failure : Option Failure)
  | entered (path : Path) (text : Text)

namespace Inclusion

def ofFound (config : Config) (files : List Path) (path : Path) (text : Text) : Inclusion :=
  if files.any (·.sameFile path) then .refused (.recursiveInclude path.text) none
  else if config.maxIncludeDepth ≤ files.length then
    .refused (.nestedTooDeep config.maxIncludeDepth path.text) none
  else .entered path text

def findSystem? (loader : Loader) (path : Text) (directories : List Path) :
    Option (Path × Text) :=
  directories.findSome? fun directory =>
    let candidate := directory.join ⟨path⟩
    match loader candidate with
    | .ok text => some (candidate, text)
    | .error _ => none

def tried (loader : Loader) (path : Text) : List Path → List Path
  | [] => []
  | directory :: directories =>
      let candidate := directory.join ⟨path⟩
      match loader candidate with
      | .ok _ => [candidate]
      | .error _ => candidate :: tried loader path directories

def asks (environment : Environment) (files : List Path) (operands : List Token) : List Path :=
  match Operand.includeTarget operands with
  | .error _ => []
  | .ok (.quoted path) => [(files.headD ⟨[]⟩).beside ⟨path⟩]
  | .ok (.system path) => tried environment.loader path environment.config.systemIncludeDirs

def ofTarget (environment : Environment) (files : List Path) (name : Token) :
    Operand.IncludeTarget → Inclusion
  | .quoted path =>
      let candidate := (files.headD ⟨[]⟩).beside ⟨path⟩
      match environment.loader candidate with
      | .ok text => ofFound environment.config files candidate text
      | .error reason =>
          .refused (.includeNotFound path reason.message)
            (some (.includeNotFound candidate name.location reason))
  | .system path =>
      match findSystem? environment.loader path environment.config.systemIncludeDirs with
      | some (candidate, text) => ofFound environment.config files candidate text
      | none =>
          let fatal := environment.config.missingSystemIncludeIsFatal
          .refused (.systemIncludeNotFound path fatal)
            (if fatal then some (.systemIncludeNotFound path name.location) else none)

def ofOperands (environment : Environment) (files : List Path) (name : Token)
    (operands : List Token) : Inclusion :=
  match Operand.includeTarget operands with
  | .error problem => .refused problem none
  | .ok target => ofTarget environment files name target

theorem ofFound_entered (config : Config) (files : List Path) (path found : Path) (text read : Text)
    (entered : ofFound config files path text = .entered found read) :
    found = path ∧ read = text ∧ files.any (·.sameFile path) = false ∧
      files.length < config.maxIncludeDepth := by
  rw [ofFound] at entered
  by_cases again : files.any (·.sameFile path) = true
  · rw [if_pos again] at entered
    cases entered
  · by_cases deep : config.maxIncludeDepth ≤ files.length
    · rw [if_neg again, if_pos deep] at entered
      cases entered
    · rw [if_neg again, if_neg deep] at entered
      cases entered
      exact ⟨rfl, rfl, by simpa using again, by omega⟩

theorem ofTarget_entered (environment : Environment) (files : List Path) (name : Token)
    (target : Operand.IncludeTarget) (path : Path) (text : Text)
    (entered : ofTarget environment files name target = .entered path text) :
    ofFound environment.config files path text = .entered path text := by
  cases target with
  | quoted quoted =>
      rw [ofTarget] at entered
      split at entered
      · obtain ⟨rfl, rfl, _⟩ := ofFound_entered _ _ _ _ _ _ entered
        exact entered
      · cases entered
  | system system =>
      rw [ofTarget] at entered
      split at entered
      · obtain ⟨rfl, rfl, _⟩ := ofFound_entered _ _ _ _ _ _ entered
        exact entered
      · cases entered

theorem entered_fresh (environment : Environment) (files : List Path) (name : Token)
    (operands : List Token) (path : Path) (text : Text)
    (entered : ofOperands environment files name operands = .entered path text) :
    files.any (·.sameFile path) = false ∧
      files.length < environment.config.maxIncludeDepth := by
  rw [ofOperands] at entered
  split at entered
  · cases entered
  · have allowed := ofTarget_entered environment files name _ path text entered
    exact (ofFound_entered _ _ _ _ _ _ allowed).2.2

theorem ofTarget_loaded (environment : Environment) (files : List Path) (name : Token)
    (target : Operand.IncludeTarget) (path : Path) (text : Text)
    (entered : ofTarget environment files name target = .entered path text) :
    environment.loader path = .ok text := by
  cases target with
  | quoted quoted =>
      rw [ofTarget] at entered
      split at entered
      · rename_i read loaded
        obtain ⟨rfl, rfl, _⟩ := ofFound_entered _ _ _ _ _ _ entered
        exact loaded
      · cases entered
  | system system =>
      rw [ofTarget] at entered
      split at entered
      · rename_i candidate read found
        obtain ⟨rfl, rfl, _⟩ := ofFound_entered _ _ _ _ _ _ entered
        obtain ⟨directory, _, tried⟩ := List.exists_of_findSome?_eq_some found
        dsimp only at tried
        split at tried
        · rename_i loaded
          cases tried
          exact loaded
        · cases tried
      · cases entered

theorem entered_loaded (environment : Environment) (files : List Path) (name : Token)
    (operands : List Token) (path : Path) (text : Text)
    (entered : ofOperands environment files name operands = .entered path text) :
    environment.loader path = .ok text := by
  rw [ofOperands] at entered
  split at entered
  · cases entered
  · exact ofTarget_loaded environment files name _ path text entered

end Inclusion

namespace State

def asked (state : State) (paths : List Path) : State :=
  { state with reads := state.reads ++ paths.toArray }

@[simp] theorem asked_asked (state : State) (first second : List Path) :
    (state.asked first).asked second = state.asked (first ++ second) := by
  simp [asked]

theorem read_asked (state : State) (environment : Environment) (path : Path) :
    state.read environment path = (environment.loader path, state.asked [path]) := by
  simp [read, asked]

def sought (state : State) (environment : Environment) (files : List Path)
    (operands : List Token) : State :=
  state.asked (Inclusion.asks environment files operands)

def entered (state : State) (environment : Environment) (path : Path) (text : Text) : State :=
  let (lexed, noted) := state.lexNext environment path.text text
  noted.addDependency lexed

section

variable (state : State) (environment : Environment) (path : Path) (text : Text)

@[simp] theorem entered_stack : (state.entered environment path text).stack = state.stack := rfl

@[simp] theorem entered_macros : (state.entered environment path text).macros = state.macros := rfl

@[simp] theorem entered_output : (state.entered environment path text).output = state.output := rfl

@[simp] theorem entered_dependencies : (state.entered environment path text).dependencies =
    state.dependencies.push (state.nextText environment path.text text) := rfl

@[simp] theorem entered_log : (state.entered environment path text).log =
    state.log.reportAll (state.nextText environment path.text text).diagnostics := rfl

@[simp] theorem entered_lexings :
    (state.entered environment path text).lexings = state.lexings + 1 := rfl

end

end State

namespace Engine

theorem Context.findSystem_asked (context : Context) (path : Text) (directories : List Path)
    (state : State) :
    context.findSystem path directories state =
      (Inclusion.findSystem? context.environment.loader path directories,
        state.asked (Inclusion.tried context.environment.loader path directories)) := by
  induction directories generalizing state with
  | nil => simp [findSystem, Inclusion.findSystem?, Inclusion.tried, State.asked]
  | cons directory directories ih =>
      rw [findSystem, Inclusion.findSystem?, Inclusion.tried, State.read_asked,
        List.findSome?_cons]
      dsimp only
      cases context.environment.loader (directory.join ⟨path⟩) with
      | ok text => rfl
      | error reason =>
          dsimp only
          rw [ih, State.asked_asked]
          rfl

def finish (floor : Nat) : State × Option Failure → State × Except Failure Nat
  | (after, some failure) =>
      ({ after with stack := (after.stack.closeAbove floor).2 }, .error failure)
  | (after, none) =>
      let closed := after.stack.closeAbove floor
      let reports := closed.1.map fun frame =>
        Problem.unterminatedConditional.withLocation (frame.opener.map Token.location)
      ({ after with stack := closed.2 }.reportAll reports, .ok closed.1.length)

theorem processFile_finish (context : Context) (tokens : List Token) (state : State) :
    context.processFile tokens state =
      finish state.stack.depth (context.lines state.stack.depth true tokens state) := by
  rw [Context.processFile]
  cases context.lines state.stack.depth true tokens state with
  | mk after result => cases result <;> rfl

theorem finish_same (floor : Nat) (outcome : State × Option Failure) :
    (finish floor outcome).1.macros = outcome.1.macros ∧
      (finish floor outcome).1.output = outcome.1.output ∧
      (finish floor outcome).1.dependencies = outcome.1.dependencies := by
  obtain ⟨after, result⟩ := outcome
  cases result <;> exact ⟨rfl, rfl, rfl⟩

def failureOf : Except Failure Nat → Option Failure
  | .ok _ => none
  | .error failure => some failure

theorem enterWith_failureOf (environment : Environment)
    (run : List Token → State → State × Except Failure Nat) (path : Path) (text : Text)
    (state : State) :
    enterWith environment run path text state =
      ((run (state.nextText environment path.text text).tokens
          (state.entered environment path text)).1,
        failureOf (run (state.nextText environment path.text text).tokens
          (state.entered environment path text)).2) := by
  rw [enterWith, State.entered]
  dsimp only [State.lexNext]
  generalize State.addDependency _ _ = entered
  cases run (state.nextText environment path.text text).tokens entered with
  | mk after result => cases result <;> rfl

def rootFailure (file : Text) : Except Failure Nat → Option Failure
  | .error failure => some failure
  | .ok count => if count = 0 then none else some (.unterminatedConditional file count)

def within (environment : Environment) (files : List Path) : Context :=
  ⟨environment, files,
    if environment.config.maxIncludeDepth ≤ files.length then none
    else some fun path =>
      enterWith environment
        (process environment (environment.config.maxIncludeDepth - (files.length + 1))
          (path :: files)) path⟩

theorem process_within (environment : Environment) (files : List Path) :
    process environment (environment.config.maxIncludeDepth - files.length) files =
      (within environment files).processFile := by
  funext tokens state
  rw [within]
  by_cases deep : environment.config.maxIncludeDepth ≤ files.length
  · rw [if_pos deep, Nat.sub_eq_zero_of_le deep, process]
  · have next : environment.config.maxIncludeDepth - files.length =
        environment.config.maxIncludeDepth - (files.length + 1) + 1 := by omega
    rw [if_neg deep, next, process]

theorem preprocess_within (environment : Environment) (root : Lexed) (state : State) :
    preprocess environment root state =
      (((within environment [⟨root.file⟩]).processFile root.tokens
          (state.reportAll root.diagnostics)).1,
        rootFailure root.file ((within environment [⟨root.file⟩]).processFile root.tokens
          (state.reportAll root.diagnostics)).2) := by
  have same := process_within environment [⟨root.file⟩]
  rw [List.length_singleton] at same
  rw [preprocess, same]
  cases (within environment [⟨root.file⟩]).processFile root.tokens
      (state.reportAll root.diagnostics) with
  | mk after result => cases result <;> rfl

def includeWithin (environment : Environment) (files : List Path) (path : Path) :
    Text → State → State × Option Failure :=
  enterWith environment (within environment (path :: files)).processFile path

theorem enterFound_within (environment : Environment) (files : List Path) (name : Token)
    (path : Path) (text : Text) (state : State) :
    (within environment files).enterFound name path text state =
      match Inclusion.ofFound environment.config files path text with
      | .refused problem failure => (state.report name problem, failure)
      | .entered path text => includeWithin environment files path text state := by
  rw [Context.enterFound, Inclusion.ofFound, within]
  by_cases again : files.any (·.sameFile path) = true
  · rw [if_pos again, if_pos again]
  · by_cases deep : environment.config.maxIncludeDepth ≤ files.length
    · rw [if_neg again, if_neg again, if_pos deep, if_pos deep]
      rfl
    · rw [if_neg again, if_neg again, if_neg deep, if_neg deep]
      have deeper := process_within environment (path :: files)
      rw [List.length_cons] at deeper
      dsimp only
      rw [deeper]
      rfl

theorem includeFile_within (environment : Environment) (files : List Path) (name : Token)
    (operands : List Token) (state : State) :
    (within environment files).includeFile name operands state =
      match Inclusion.ofOperands environment files name operands with
      | .refused problem failure =>
          ((state.sought environment files operands).report name problem, failure)
      | .entered path text =>
          includeWithin environment files path text (state.sought environment files operands) := by
  rw [Context.includeFile, Inclusion.ofOperands, State.sought, Inclusion.asks]
  cases Operand.includeTarget operands with
  | error problem => simp [State.asked]
  | ok target =>
      cases target with
      | quoted path =>
          dsimp only [Inclusion.ofTarget]
          rw [Context.includeQuoted, State.read_asked,
            show (within environment files).file = files.headD ⟨[]⟩ from rfl,
            show (within environment files).environment = environment from rfl]
          cases environment.loader ((files.headD ⟨[]⟩).beside ⟨path⟩) with
          | error reason => rfl
          | ok text => exact enterFound_within environment files name _ text _
      | system path =>
          dsimp only [Inclusion.ofTarget]
          rw [Context.includeSystem, Context.findSystem_asked,
            show (within environment files).config = environment.config from rfl,
            show (within environment files).environment = environment from rfl]
          cases Inclusion.findSystem? environment.loader path environment.config.systemIncludeDirs with
          | none => rfl
          | some found => exact enterFound_within environment files name found.1 found.2 _

-- Only an include line in an active block depends on where the file stands.
theorem Context.directive_obey (context : Context) (floor : Nat) (name : Token)
    (operands : List Token) (state : State) (stays : state.includes name = false) :
    context.directive floor name operands state = (state.obey floor name operands, none) := by
  rw [State.includes] at stays
  rw [Context.directive, State.obey]
  cases active : state.isActive with
  | true =>
      rw [active] at stays
      cases directive : Directive.ofName name.text with
      | inclusion =>
          rw [directive] at stays
          cases stays
      | _ => rfl
  | false => cases Directive.ofName name.text <;> rfl

theorem directive_within (environment : Environment) (files : List Path) (floor : Nat)
    (name : Token) (operands : List Token) (state : State) :
    (within environment files).directive floor name operands state =
      if state.includes name then
        match Inclusion.ofOperands environment files name operands with
        | .refused problem failure =>
            ((state.sought environment files operands).report name problem, failure)
        | .entered path text =>
            includeWithin environment files path text (state.sought environment files operands)
      else (state.obey floor name operands, none) := by
  cases includes : state.includes name with
  | true =>
      have parts := includes
      rw [State.includes, Bool.and_eq_true, beq_iff_eq] at parts
      rw [if_pos rfl, Context.directive, parts.1]
      simp only [if_pos parts.2]
      exact includeFile_within environment files name operands state
  | false =>
      rw [if_neg Bool.false_ne_true]
      exact Context.directive_obey _ floor name operands state includes

end Engine

end CPreprocessor
