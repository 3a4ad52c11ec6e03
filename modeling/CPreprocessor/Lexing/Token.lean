import CPreprocessor.Source.File
import CPreprocessor.Lexing.OffsetMap
import CPreprocessor.Lexing.Lexeme
import CPreprocessor.Diagnostic.Problem

/-!
Tokens: lexemes with the place they come from. A token knows its span in the normalized text and
the span of the bytes behind it, so it can be moved between token lists and still be located.
-/

set_option autoImplicit false

namespace CPreprocessor

-- A lexed text. Texts that were lexed apart are told apart by their serial number.
structure Source where
  serial : Nat
  file : SourceFile
  normalized : Text
  offsets : OffsetMap
deriving DecidableEq, Repr

structure Token where
  source : Source
  kind : Kind
  text : Text
  span : Span
  origin : Span
deriving DecidableEq, Repr

namespace Token

def file (token : Token) : Text := token.source.file.name

def originText (token : Token) : Text :=
  (token.source.file.content.slice? token.origin.start token.origin.stop).getD []

def location (token : Token) : Location := token.source.file.locate token.origin.start

def readsLike (left right : Token) : Bool := left.kind == right.kind && left.text == right.text

def isName (token : Token) (name : Text) : Bool := token.kind == .name && token.text == name

def isOther (token : Token) (c : Char) : Bool := token.kind == .other && token.text == [c]

def isSpace (token : Token) : Bool := token.kind == .spaceTab

def isNewline (token : Token) : Bool := token.kind == .newline

def isWhitespace (token : Token) : Bool := token.kind.isWhitespace

def sameSource (left right : Token) : Bool := left.source == right.source

/-- Two tokens of one source join if the second begins where the first ends. The kind is the
first one's. -/
def join? (left right : Token) : Option Token :=
  if left.sameSource right then
    (left.span.join? right.span).map fun span =>
      { left with
        text := left.text ++ right.text
        span := span
        origin := left.source.offsets.origin span }
  else none

def describe (token : Token) : String :=
  "Token(" ++ token.kind.label ++ ", " ++ String.ofList token.text.quoted ++ ")"

def skipSpace (tokens : List Token) : List Token := tokens.dropWhile isSpace

def trimEnd (tokens : List Token) : List Token :=
  (tokens.reverse.dropWhile isWhitespace).reverse

def trim (tokens : List Token) : List Token := trimEnd (tokens.dropWhile isWhitespace)

theorem skipSpace_length_le (tokens : List Token) : (skipSpace tokens).length ≤ tokens.length :=
  (List.dropWhile_sublist isSpace).length_le

def place (source : Source) (position : Nat) : List Lexeme → List Token
  | [] => []
  | lexeme :: lexemes =>
      let span : Span := ⟨position, position + lexeme.text.byteLength⟩
      ⟨source, lexeme.kind, lexeme.text, span, source.offsets.origin span⟩ ::
        place source span.stop lexemes

end Token

structure Lexed where
  source : Source
  tokens : List Token
  openComment : Option Nat
deriving DecidableEq, Repr

namespace Lexed

def ofText (serial : Nat) (name content : Text) : Lexed :=
  let normalized := Normalized.ofText content
  let source : Source :=
    ⟨serial, .make name content, normalized.text, .ofPieces normalized.pieces⟩
  ⟨source, Token.place source 0 (Lexeme.scan normalized.text), normalized.openComment⟩

def file (lexed : Lexed) : Text := lexed.source.file.name

def kindAt (lexed : Lexed) (index : Nat) : Kind :=
  match lexed.tokens[index]? with
  | some token => token.kind
  | none => .nothing

def endsInComment (lexed : Lexed) : Bool := lexed.openComment.isSome

def diagnostics (lexed : Lexed) : List Diagnostic :=
  match lexed.openComment with
  | some offset => [Problem.unterminatedComment.located (lexed.source.file.locate offset)]
  | none => []

end Lexed

/-- The tokens of a text that has no serial number of its own. -/
def lex (name content : Text) : Lexed := .ofText 0 name content

end CPreprocessor
