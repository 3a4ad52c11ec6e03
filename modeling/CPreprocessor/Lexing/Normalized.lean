import CPreprocessor.Text.Basic
import CPreprocessor.Text.CharClass

/-!
Normalizing a text: line splices (a backslash before a line end) vanish, each comment becomes one
blank, and literals are left as they are, so that comment markers inside them stay text. Every
piece of the result remembers the bytes it stands for.
-/

set_option autoImplicit false

namespace CPreprocessor

inductive Piece where
  | copied (char : Char) (offset : Nat)
  | comment (start stop : Nat)
deriving DecidableEq, Repr

def Piece.char : Piece → Char
  | .copied char _ => char
  | .comment _ _ => ' '

/-- The pieces in order, and where a block comment starts that never closes. Nothing from that
comment on is kept. -/
structure Normalized where
  pieces : List Piece
  openComment : Option Nat
deriving DecidableEq, Repr

namespace Normalized

def text (normalized : Normalized) : Text := normalized.pieces.map Piece.char

def prepend (pieces : List Piece) (normalized : Normalized) : Normalized :=
  { normalized with pieces := pieces ++ normalized.pieces }

end Normalized

-- What the characters read so far are part of. A slash is held back until the next character tells
-- whether a comment starts with it.
inductive Mode where
  | code
  | slash (start : Nat)
  | lineComment (start : Nat)
  | blockComment (start : Nat)
  | blockStar (start : Nat)
  | literal (quote : Char) (escaped : Bool)
deriving DecidableEq, Repr

namespace Mode

def codeStep (offset : Nat) (c : Char) : List Piece × Mode :=
  if c = '/' then ([], .slash offset)
  else ([.copied c offset], if CharClass.isQuote c then .literal c false else .code)

def blockStep (start : Nat) (c : Char) : Mode :=
  if c = '*' then .blockStar start else .blockComment start

def step (lineEnd : Bool) (offset : Nat) (c : Char) : Mode → List Piece × Mode
  | .code => codeStep offset c
  | .slash start =>
      if c = '/' then ([], .lineComment start)
      else if c = '*' then ([], .blockComment start)
      else
        let after := codeStep offset c
        (.copied '/' start :: after.1, after.2)
  | .lineComment start =>
      if lineEnd then ([.comment start offset, .copied c offset], .code)
      else ([], .lineComment start)
  | .blockComment start => ([], blockStep start c)
  | .blockStar start =>
      if c = '/' then ([.comment start (offset + 1)], .code) else ([], blockStep start c)
  | .literal quote escaped =>
      ([.copied c offset],
        if lineEnd then .code
        else if escaped then .literal quote false
        else if c = quote then .code
        else .literal quote (c = '\\'))

def finish (offset : Nat) : Mode → Normalized
  | .code => ⟨[], none⟩
  | .slash start => ⟨[.copied '/' start], none⟩
  | .lineComment start => ⟨[.comment start offset], none⟩
  | .blockComment start => ⟨[], some start⟩
  | .blockStar start => ⟨[], some start⟩
  | .literal _ _ => ⟨[], none⟩

end Mode

namespace Normalized

def scan (mode : Mode) (offset : Nat) : Text → Normalized
  | [] => mode.finish offset
  | '\\' :: '\n' :: rest => scan mode (offset + 2) rest
  | '\\' :: '\r' :: '\n' :: rest => scan mode (offset + 3) rest
  | c :: rest =>
      let after := mode.step (Text.atLineEnd (c :: rest)) offset c
      (scan after.2 (offset + c.utf8Size) rest).prepend after.1

def ofText (text : Text) : Normalized := scan .code 0 text

end Normalized

end CPreprocessor
