import CPreprocessor.Lexing.Token

/-!
Macro definitions and the table that holds them. A definition is found under its name's text, and
a name has at most one definition.
-/

set_option autoImplicit false

namespace CPreprocessor

-- An object-like macro has no parameter list; a function-like one may have an empty list.
structure Macro where
  name : Token
  parameters : Option (List Token)
  body : List Token
deriving DecidableEq, Repr

namespace Macro

def key (definition : Macro) : Text := definition.name.text

def isFunctionLike (definition : Macro) : Bool := definition.parameters.isSome

def params (definition : Macro) : List Token := definition.parameters.getD []

def paramIndex? (definition : Macro) (name : Text) : Option Nat :=
  definition.params.findIdx? (·.text == name)

def tokensReadAlike : List Token → List Token → Bool
  | [], [] => true
  | left :: lefts, right :: rights => left.readsLike right && tokensReadAlike lefts rights
  | _, _ => false

def readsLike (left right : Macro) : Bool :=
  left.name.readsLike right.name && left.isFunctionLike == right.isFunctionLike &&
    tokensReadAlike left.params right.params && tokensReadAlike left.body right.body

def substituteToken (definition : Macro) (arguments : List (List Token)) (token : Token) :
    List Token :=
  let position := if token.kind = .name then definition.paramIndex? token.text else none
  match position.bind (arguments[·]?) with
  | some argument => argument
  | none => [token]

def substitute (definition : Macro) (arguments : List (List Token)) : List Token :=
  definition.body.flatMap (definition.substituteToken arguments)

end Macro

structure MacroTable where
  definitions : List Macro
deriving DecidableEq, Repr

namespace MacroTable

def empty : MacroTable := ⟨[]⟩

def lookup (table : MacroTable) (name : Text) : Option Macro :=
  table.definitions.find? (·.key == name)

def contains (table : MacroTable) (name : Text) : Bool := (table.lookup name).isSome

def erase (table : MacroTable) (name : Text) : MacroTable :=
  ⟨table.definitions.filter (·.key != name)⟩

def define (table : MacroTable) (definition : Macro) : MacroTable :=
  ⟨definition :: (table.erase definition.key).definitions⟩

def size (table : MacroTable) : Nat := table.definitions.length

end MacroTable

end CPreprocessor
