import CPreprocessor.Macro.Expansion
import CPreprocessor.Files.Path

set_option autoImplicit false

namespace CPreprocessor

namespace Operand

def macroName? (operands : List Token) : Option Token :=
  (Token.skipSpace operands).head?.filter (·.kind == .name)

abbrev Fault := Token × Problem

def moreParameters (paren : Token) (seen : List Token) (tokens : List Token) :
    Except Fault (List Token × List Token) :=
  match _start : Token.skipSpace tokens with
  | [] => .error (paren, .missingParameterName)
  | parameter :: tail =>
      if parameter.kind ≠ .name then .error (parameter, .missingParameterName)
      else if seen.any (·.text == parameter.text) then
        .error (parameter, .duplicateParameter parameter.text)
      else
        match _next : Token.skipSpace tail with
        | [] => .error (parameter, .malformedParameterList)
        | separator :: rest =>
            if separator.isOther ',' then moreParameters paren (seen ++ [parameter]) rest
            else if separator.isOther ')' then .ok (seen ++ [parameter], rest)
            else .error (separator, .malformedParameterList)
termination_by tokens.length
decreasing_by
  have start := Token.skipSpace_length_le tokens
  have next := Token.skipSpace_length_le tail
  rw [_start, List.length_cons] at start
  rw [_next, List.length_cons] at next
  omega

def parameters (paren : Token) (tokens : List Token) : Except Fault (List Token × List Token) :=
  match Token.skipSpace tokens with
  | [] => moreParameters paren [] tokens
  | token :: rest => if token.isOther ')' then .ok ([], rest) else moreParameters paren [] tokens

/-- The macro that the operands of `#define` describe. A parameter list follows its name with no
blank between them. -/
def definition (directive : Token) (operands : List Token) : Except Fault Macro :=
  match Token.skipSpace operands with
  | [] => .error (directive, .missingMacroName directive.text)
  | name :: rest =>
      if name.kind ≠ .name then .error (directive, .missingMacroName directive.text)
      else
        match rest with
        | [] => .ok ⟨name, none, []⟩
        | paren :: inner =>
            if paren.isOther '(' then
              match parameters paren inner with
              | .ok (params, body) => .ok ⟨name, some params, Token.trim body⟩
              | .error fault => .error fault
            else .ok ⟨name, none, Token.trim rest⟩

inductive IncludeTarget where
  | quoted (path : Text)
  | system (path : Text)
deriving DecidableEq, Repr

def joinAll? (first : Token) (rest : List Token) : Option Token :=
  rest.foldlM (fun joined next => joined.join? next) first

def quotedTarget (body : Text) : Except Problem IncludeTarget :=
  if body.getLast? = some '"' then
    if body.dropLast = [] then .error .emptyIncludeName else .ok (.quoted body.dropLast)
  else .error .unterminatedQuotedName

def angleTarget (tokens : List Token) : Except Problem IncludeTarget :=
  let inside := tokens.takeWhile (!·.isOther '>')
  if inside.length = tokens.length then .error .unterminatedAngleName
  else
    match inside with
    | [] => .error .emptyIncludeName
    | first :: rest =>
        match joinAll? first rest with
        | some joined => .ok (.system joined.text)
        | none => .error .malformedIncludeName

def includeTarget (operands : List Token) : Except Problem IncludeTarget :=
  match Token.skipSpace operands with
  | [] => .error .missingIncludeOperand
  | first :: rest =>
      match first.kind, first.text with
      | .string, '"' :: body => quotedTarget body
      | _, _ => if first.isOther '<' then angleTarget rest else .error .missingIncludeOperand

end Operand

end CPreprocessor
