import CPreprocessor.Directive.Line
import CPreprocessor.Engine.Effect

/-!
The engine. A line whose first token after blanks is `#`, followed by a name, is a directive and
produces nothing; all else is text, which is expanded and copied while the innermost block is
active. An included file is processed in place. Files nest no deeper than the configuration allows,
and no file is entered while it is being processed.
-/

set_option autoImplicit false

namespace CPreprocessor

namespace Engine

abbrev Enter := Path → Text → State → State × Option Failure

-- How a file is processed: in which environment, from which files, and how to enter another file,
-- unless files are nested too deep already. The files are those being processed, innermost first.
structure Context where
  environment : Environment
  files : List Path
  enter : Option Enter

namespace Context

def config (context : Context) : Config := context.environment.config

def file (context : Context) : Path := context.files.headD ⟨[]⟩

def enterFound (context : Context) (name : Token) (path : Path) (text : Text) (state : State) :
    State × Option Failure :=
  if context.files.any (·.sameFile path) then
    (state.report name (.recursiveInclude path.text), none)
  else
    match context.enter with
    | none =>
        (state.report name (.nestedTooDeep context.config.maxIncludeDepth path.text), none)
    | some enter => enter path text state

def findSystem (context : Context) (path : Text) :
    List Path → State → Option (Path × Text) × State
  | [], state => (none, state)
  | directory :: directories, state =>
      let candidate := directory.join ⟨path⟩
      match state.read context.environment candidate with
      | (.ok text, after) => (some (candidate, text), after)
      | (.error _, after) => context.findSystem path directories after

def includeQuoted (context : Context) (name : Token) (path : Text) (state : State) :
    State × Option Failure :=
  let candidate := context.file.beside ⟨path⟩
  match state.read context.environment candidate with
  | (.ok text, after) => context.enterFound name candidate text after
  | (.error reason, after) =>
      (after.report name (.includeNotFound path reason.message),
        some (.includeNotFound candidate name.location reason))

def includeSystem (context : Context) (name : Token) (path : Text) (state : State) :
    State × Option Failure :=
  match context.findSystem path context.config.systemIncludeDirs state with
  | (some (candidate, text), after) => context.enterFound name candidate text after
  | (none, after) =>
      let fatal := context.config.missingSystemIncludeIsFatal
      (after.report name (.systemIncludeNotFound path fatal),
        if fatal then some (.systemIncludeNotFound path name.location) else none)

def includeFile (context : Context) (name : Token) (operands : List Token) (state : State) :
    State × Option Failure :=
  match Operand.includeTarget operands with
  | .error problem => (state.report name problem, none)
  | .ok (.quoted path) => context.includeQuoted name path state
  | .ok (.system path) => context.includeSystem name path state

def effect (context : Context) (name : Token) (operands : List Token) (state : State) :
    Directive → State × Option Failure
  | .define => (state.defineMacro name operands, none)
  | .undef => (state.undefineMacro name operands, none)
  | .inclusion => context.includeFile name operands state
  | _ => (state.report name (.unknownDirective name.text), none)

def directive (context : Context) (floor : Nat) (name : Token) (operands : List Token)
    (state : State) : State × Option Failure :=
  match Directive.ofName name.text with
  | .ifdef => (state.openTest true name operands, none)
  | .ifndef => (state.openTest false name operands, none)
  | .ifExpression => (state.openUnsupported name, none)
  | .elifExpression => (state.suppressBlock floor name, none)
  | .elseBranch => (state.flipBlock floor name, none)
  | .endif => (state.closeBlock floor name, none)
  | other => if state.isActive then context.effect name operands state other else (state, none)

def lines (context : Context) (floor : Nat) (lineStart : Bool) (tokens : List Token)
    (state : State) : State × Option Failure :=
  match tokens with
  | [] => (state, none)
  | token :: tail =>
      match _line : if lineStart then DirectiveLine.ofLine? (token :: tail) else none with
      | some line =>
          match context.directive floor line.name line.operands state with
          | (after, some failure) => (after, some failure)
          | (after, none) => context.lines floor true line.rest after
      | none =>
          if state.isActive then
            let step := state.macros.expandHead [] token tail
            context.lines floor token.isNewline step.2 (state.emit step.1)
          else context.lines floor token.isNewline tail state
termination_by tokens.length
decreasing_by
  · split at _line
    · exact DirectiveLine.ofLine_rest_lt _line
    · cases _line
  · exact Nat.lt_succ_of_le (state.macros.expandHead_rest_le [] token tail)
  · exact Nat.lt_succ_self _

/-- Processes the tokens of one file. Blocks that it leaves open are reported and closed, and their
number is given. -/
def processFile (context : Context) (tokens : List Token) (state : State) :
    State × Except Failure Nat :=
  let floor := state.stack.depth
  match context.lines floor true tokens state with
  | (after, some failure) =>
      ({ after with stack := (after.stack.closeAbove floor).2 }, .error failure)
  | (after, none) =>
      let (leftover, stack) := after.stack.closeAbove floor
      let reports := leftover.map fun frame =>
        Problem.unterminatedConditional.withLocation (frame.opener.map Token.location)
      ({ after with stack := stack }.reportAll reports, .ok leftover.length)

end Context

-- A file that is entered becomes a dependency before it is processed, so a failure inside it keeps
-- it. Blocks that it leaves open are reported there and are no failure of the file that includes it.
def enterWith (environment : Environment)
    (run : List Token → State → State × Except Failure Nat) (path : Path) (text : Text)
    (state : State) : State × Option Failure :=
  let (lexed, noted) := state.lexNext environment path.text text
  match run lexed.tokens (noted.addDependency lexed) with
  | (after, .ok _) => (after, none)
  | (after, .error failure) => (after, some failure)

def process (environment : Environment) :
    Nat → List Path → List Token → State → State × Except Failure Nat
  | 0, files, tokens, state => Context.processFile ⟨environment, files, none⟩ tokens state
  | depth + 1, files, tokens, state =>
      let enter : Enter := fun path =>
        enterWith environment (process environment depth (path :: files)) path
      Context.processFile ⟨environment, files, some enter⟩ tokens state

def preprocess (environment : Environment) (root : Lexed) (state : State) :
    State × Option Failure :=
  match process environment (environment.config.maxIncludeDepth - 1) [⟨root.file⟩] root.tokens
      (state.reportAll root.diagnostics) with
  | (after, .error failure) => (after, some failure)
  | (after, .ok count) =>
      (after, if count = 0 then none else some (.unterminatedConditional root.file count))

end Engine

end CPreprocessor
