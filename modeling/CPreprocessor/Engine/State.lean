import CPreprocessor.Conditional.Stack
import CPreprocessor.Macro.Expansion
import CPreprocessor.Config.Basic
import CPreprocessor.Files.Loader

set_option autoImplicit false

namespace CPreprocessor

-- The serial numbers of the texts that are lexed, in their order. Two texts are told apart by them
-- even if they have the same name and content.
structure Numbering where
  serial : Nat → Nat
  distinct : ∀ first second, serial first = serial second → first = second

def Numbering.fromOne : Numbering := ⟨Nat.succ, fun _ _ => Nat.succ.inj⟩

structure Environment where
  config : Config
  loader : Loader
  numbering : Numbering

-- `reads` are the paths that the loader was asked for, and `lexings` counts the texts that were
-- lexed.
structure State where
  macros : MacroTable
  stack : Conditional.Stack
  output : Array Token
  dependencies : Array Lexed
  log : Log
  reads : Array Path
  lexings : Nat
deriving DecidableEq, Repr

namespace State

def initial : State := ⟨.empty, .empty, #[], #[], .empty, #[], 0⟩

def isActive (state : State) : Bool := state.stack.isActive

def report (state : State) (token : Token) (problem : Problem) : State :=
  { state with log := state.log.report (problem.located token.location) }

def reportAll (state : State) (diagnostics : List Diagnostic) : State :=
  { state with log := state.log.reportAll diagnostics }

def emit (state : State) (expansion : Expansion) : State :=
  { state with
    output := state.output ++ expansion.tokens
    log := state.log.reportAll expansion.diagnostics }

-- The loader's answer for a path. There is no other way to the loader.
def read (state : State) (environment : Environment) (path : Path) :
    Except LoadError Text × State :=
  (environment.loader path, { state with reads := state.reads.push path })

def nextText (state : State) (environment : Environment) (name content : Text) : Lexed :=
  .ofText (environment.numbering.serial state.lexings) name content

def lexNext (state : State) (environment : Environment) (name content : Text) : Lexed × State :=
  (state.nextText environment name content, { state with lexings := state.lexings + 1 })

def addDependency (state : State) (lexed : Lexed) : State :=
  { state.reportAll lexed.diagnostics with
    dependencies := state.dependencies.push lexed }

end State

inductive Failure where
  | includeNotFound (path : Path) (location : Location) (reason : LoadError)
  | systemIncludeNotFound (path : Text) (location : Location)
  | unterminatedConditional (file : Text) (count : Nat)
  | invalidMacroName (name : Text)
deriving DecidableEq, Repr

def Failure.message : Failure → String
  | .includeNotFound path location reason =>
      location.render ++ ": cannot open include file '" ++ String.ofList path.text ++ "': " ++
        reason.message
  | .systemIncludeNotFound path location =>
      location.render ++ ": system include <" ++ String.ofList path ++ "> not found"
  | .unterminatedConditional file count =>
      String.ofList file ++ ": " ++ toString count ++
        " conditional block(s) not closed at end of input"
  | .invalidMacroName name => (Problem.invalidMacroName name).message

end CPreprocessor
