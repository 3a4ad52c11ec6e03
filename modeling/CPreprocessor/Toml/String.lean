import CPreprocessor.Text.Basic
import CPreprocessor.Text.CharClass

set_option autoImplicit false

namespace CPreprocessor.Toml

abbrev Reader (α : Type) := Text → Option (α × Text)

def prepend (front : Text) : Option (Text × Text) → Option (Text × Text)
  | some (text, rest) => some (front ++ text, rest)
  | none => none

def skipBlanks (text : Text) : Text := text.dropWhile CharClass.isSpaceTab

def isPrintable (c : Char) : Bool := c == '\t' || (0x20 ≤ c.toNat && c.toNat != 0x7F)

def escapedChar? (c : Char) : Option Char :=
  match c with
  | 'b' => some '\x08'
  | 't' => some '\t'
  | 'n' => some '\n'
  | 'f' => some '\x0c'
  | 'r' => some '\r'
  | '"' => some '"'
  | '\\' => some '\\'
  | _ => none

def codeDigits? (c : Char) : Option Nat :=
  match c with
  | 'u' => some 4
  | 'U' => some 8
  | _ => none

def scalar? (code : Nat) : Option Char :=
  if code < 0xD800 ∨ (0xDFFF < code ∧ code < 0x110000) then some (Char.ofNat code) else none

-- Where a reader of an escaped string stands. After a backslash that ends a line, blanks and line
-- ends are skipped; `quotes` counts quotes that may close a string of several lines.
inductive Stage where
  | plain
  | escape
  | code (left value : Nat)
  | lineEnd
  | skipping
  | quotes (count : Nat)
deriving DecidableEq, Repr

def Stage.afterDigit (left value : Nat) : Option (Text × Stage) :=
  if left ≤ 1 then (scalar? value).map fun c => ([c], .plain) else some ([], .code (left - 1) value)

def Stage.afterEscape (c : Char) : Option (Text × Stage) :=
  match escapedChar? c, codeDigits? c with
  | some d, _ => some ([d], .plain)
  | none, some count => some ([], .code count 0)
  | none, none => none

def Stage.afterCode (left value : Nat) (c : Char) : Option (Text × Stage) :=
  match CharClass.hexValue? c with
  | some digit => Stage.afterDigit left (value * 16 + digit)
  | none => none

def basicString (stage : Stage) : Reader Text
  | [] => none
  | c :: rest =>
      match stage with
      | .plain =>
          if c = '"' then some ([], rest)
          else if c = '\\' then basicString .escape rest
          else if isPrintable c then prepend [c] (basicString .plain rest)
          else none
      | .escape =>
          match Stage.afterEscape c with
          | some (text, next) => prepend text (basicString next rest)
          | none => none
      | .code left value =>
          match Stage.afterCode left value c with
          | some (text, next) => prepend text (basicString next rest)
          | none => none
      | _ => none

def literalString : Reader Text
  | [] => none
  | c :: rest =>
      if c = '\'' then some ([], rest)
      else if isPrintable c then prepend [c] (literalString rest)
      else none

-- A string of several lines takes up to two quotes before the three that close it.
def closeQuotes (quote : Char) (count : Nat) (rest : Text) : Option (Text × Text) :=
  if 3 ≤ count then some (List.replicate (count - 3) quote, rest) else none

def plainMulti (c : Char) : Option (Text × Stage) :=
  if c = '"' then some ([], .quotes 1)
  else if c = '\\' then some ([], .escape)
  else if isPrintable c then some ([c], .plain)
  else none

def Stage.afterChar (c : Char) : Stage → Option (Text × Stage)
  | .plain => plainMulti c
  | .escape => if CharClass.isSpaceTab c then some ([], .lineEnd) else Stage.afterEscape c
  | .code left value => Stage.afterCode left value c
  | .lineEnd => if CharClass.isSpaceTab c then some ([], .lineEnd) else none
  | .skipping => if CharClass.isSpaceTab c then some ([], .skipping) else plainMulti c
  | .quotes count =>
      if c = '"' then some ([], .quotes (count + 1))
      else (plainMulti c).map fun (text, next) => (List.replicate count '"' ++ text, next)

def Stage.afterLine : Stage → Option (Text × Stage)
  | .plain => some (['\n'], .plain)
  | .escape => some ([], .skipping)
  | .code _ _ => none
  | .lineEnd => some ([], .skipping)
  | .skipping => some ([], .skipping)
  | .quotes count => some (List.replicate count '"' ++ ['\n'], .plain)

def Stage.isClosed (next : Text) : Stage → Bool
  | .quotes count => 3 ≤ count && (next.head? != some '"' || 5 ≤ count)
  | _ => false

def Stage.close (rest : Text) : Stage → Option (Text × Text)
  | .quotes count => closeQuotes '"' count rest
  | _ => none

def multiBasic (stage : Stage) : Reader Text
  | [] => stage.close []
  | '\r' :: '\n' :: rest =>
      if stage.isClosed ['\r'] then stage.close ('\r' :: '\n' :: rest)
      else
        match stage.afterLine with
        | some (text, next) => prepend text (multiBasic next rest)
        | none => none
  | c :: rest =>
      if stage.isClosed [c] then stage.close (c :: rest)
      else
        match if c = '\n' then stage.afterLine else stage.afterChar c with
        | some (text, next) => prepend text (multiBasic next rest)
        | none => none

def multiLiteral (count : Nat) : Reader Text
  | [] => closeQuotes '\'' count []
  | '\r' :: '\n' :: rest =>
      if 3 ≤ count then closeQuotes '\'' count ('\r' :: '\n' :: rest)
      else prepend (List.replicate count '\'' ++ ['\n']) (multiLiteral 0 rest)
  | c :: rest =>
      if 3 ≤ count ∧ (c ≠ '\'' ∨ 5 ≤ count) then closeQuotes '\'' count (c :: rest)
      else if c = '\'' then multiLiteral (count + 1) rest
      else if isPrintable c ∨ c = '\n' then
        prepend (List.replicate count '\'' ++ [c]) (multiLiteral 0 rest)
      else none

def dropLineEnd : Text → Text
  | '\n' :: rest => rest
  | '\r' :: '\n' :: rest => rest
  | text => text

def string : Reader Text
  | '"' :: '"' :: '"' :: rest => multiBasic .plain (dropLineEnd rest)
  | '\'' :: '\'' :: '\'' :: rest => multiLiteral 0 (dropLineEnd rest)
  | '"' :: rest => basicString .plain rest
  | '\'' :: rest => literalString rest
  | _ => none

end CPreprocessor.Toml
