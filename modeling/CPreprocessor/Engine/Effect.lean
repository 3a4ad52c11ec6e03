import CPreprocessor.Directive.Operand
import CPreprocessor.Engine.State

/-!
What directives do to the state. Blocks are opened and closed everywhere, so that nesting stays
balanced in suppressed code; macros change in an active block only, which the caller checks.
-/

set_option autoImplicit false

namespace CPreprocessor.State

def openTest (state : State) (defined : Bool) (name : Token) (operands : List Token) : State :=
  match Operand.macroName? operands with
  | some operand =>
      { state with
        stack := state.stack.push (state.macros.contains operand.text == defined) name }
  | none =>
      let noted :=
        if state.isActive then state.report name (.missingMacroName name.text) else state
      { noted with stack := noted.stack.pushSuppressed name }

-- `#if`: opens a block that is skipped whole.
def openUnsupported (state : State) (name : Token) : State :=
  let noted := if state.isActive then state.report name .unsupportedIf else state
  { noted with stack := noted.stack.pushSuppressed name }

def suppressBlock (state : State) (floor : Nat) (name : Token) : State :=
  match state.stack.suppress floor with
  | (.error misuse, stack) =>
      { state with stack := stack }.report name (.misplacedConditional misuse)
  | (.ok before, stack) =>
      let suppressed := { state with stack := stack }
      if before = .taken then suppressed else suppressed.report name .unsupportedElif

def settle {α : Type} (state : State) (name : Token) :
    Except Conditional.Misuse α × Conditional.Stack → State
  | (.error misuse, stack) =>
      { state with stack := stack }.report name (.misplacedConditional misuse)
  | (.ok _, stack) => { state with stack := stack }

def flipBlock (state : State) (floor : Nat) (name : Token) : State :=
  state.settle name (state.stack.flipElse floor)

def closeBlock (state : State) (floor : Nat) (name : Token) : State :=
  state.settle name (state.stack.pop floor)

def defineMacro (state : State) (name : Token) (operands : List Token) : State :=
  match Operand.definition name operands with
  | .ok definition => { state with macros := state.macros.define definition }
  | .error (token, problem) => state.report token problem

def undefineMacro (state : State) (name : Token) (operands : List Token) : State :=
  match Operand.macroName? operands with
  | some operand => { state with macros := state.macros.erase operand.text }
  | none => state.report name (.missingMacroName name.text)

end CPreprocessor.State
