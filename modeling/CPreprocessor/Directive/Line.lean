import CPreprocessor.Lexing.Token

set_option autoImplicit false

namespace CPreprocessor

inductive Directive where
  | ifdef
  | ifndef
  | ifExpression
  | elifExpression
  | elseBranch
  | endif
  | define
  | undef
  | inclusion
  | unknown
deriving DecidableEq, Repr

def Directive.ofName (name : Text) : Directive :=
  match String.ofList name with
  | "ifdef" => .ifdef
  | "ifndef" => .ifndef
  | "if" => .ifExpression
  | "elif" => .elifExpression
  | "else" => .elseBranch
  | "endif" => .endif
  | "define" => .define
  | "undef" => .undef
  | "include" => .inclusion
  | _ => .unknown

structure DirectiveLine where
  name : Token
  operands : List Token
  rest : List Token

namespace DirectiveLine

def ofHash? (tokens : List Token) : Option DirectiveLine :=
  match Token.skipSpace tokens with
  | [] => none
  | name :: tail =>
      if name.kind = .name then
        some ⟨name, tail.takeWhile (!·.isNewline), (tail.dropWhile (!·.isNewline)).drop 1⟩
      else none

def ofLine? (tokens : List Token) : Option DirectiveLine :=
  match Token.skipSpace tokens with
  | [] => none
  | hash :: tail => if hash.isOther '#' then ofHash? tail else none

theorem ofHash_rest_lt {tokens : List Token} {line : DirectiveLine}
    (found : ofHash? tokens = some line) : line.rest.length < tokens.length := by
  unfold ofHash? at found
  have skipped := Token.skipSpace_length_le tokens
  split at found
  · cases found
  · rename_i name tail same
    rw [same, List.length_cons] at skipped
    split at found
    · cases found
      have dropped := (List.dropWhile_sublist (l := tail) (fun token => !token.isNewline)).length_le
      simp only [List.length_drop]
      omega
    · cases found

theorem ofLine_rest_lt {tokens : List Token} {line : DirectiveLine}
    (found : ofLine? tokens = some line) : line.rest.length < tokens.length := by
  unfold ofLine? at found
  have skipped := Token.skipSpace_length_le tokens
  split at found
  · cases found
  · rename_i hash tail same
    rw [same, List.length_cons] at skipped
    split at found
    · have less := ofHash_rest_lt found
      omega
    · cases found

end DirectiveLine

end CPreprocessor
