import CPreprocessor.Text.Utf8
import CPreprocessor.Text.CharClass

/-!
The value of a string or character literal: the quotes come off and escapes are resolved. A numeric
escape denotes one byte, the low byte of its value.
-/

set_option autoImplicit false

namespace CPreprocessor.Literal

def endsInEscape (text : Text) : Bool :=
  (text.reverse.takeWhile (· == '\\')).length % 2 == 1

def stripClosing (quote : Char) (body : Text) : Text :=
  if body.getLast? = some quote ∧ !endsInEscape body.dropLast then body.dropLast else body

def stripQuotes : Text → Text
  | [] => []
  | c :: body => if CharClass.isQuote c then stripClosing c body else c :: body

def controlByte? (c : Char) : Option UInt8 :=
  match c with
  | 'n' => some 0x0A
  | 't' => some 0x09
  | 'r' => some 0x0D
  | 'a' => some 0x07
  | 'b' => some 0x08
  | 'f' => some 0x0C
  | 'v' => some 0x0B
  | _ => none

def numberByte (base : Nat) (digits : List Nat) : UInt8 :=
  UInt8.ofNat (digits.foldl (fun value digit => value * base + digit) 0)

def escapedBytes (c : Char) : List UInt8 :=
  match controlByte? c with
  | some byte => [byte]
  | none => String.utf8EncodeChar c

-- What is being read: a plain character, the character after a backslash, or the digits of a
-- numeric escape (the octal ones with the number of digits that may still follow).
inductive Reading where
  | plain
  | escape
  | octal (digits : List Nat) (left : Nat)
  | hex (digits : List Nat)
deriving DecidableEq, Repr

def Reading.close : Reading → List UInt8
  | .plain => []
  | .escape => ['\\'.toUInt8]
  | .octal digits _ => [numberByte 8 digits]
  | .hex [] => ['x'.toUInt8]
  | .hex digits => [numberByte 16 digits]

def plainStep (c : Char) : List UInt8 × Reading :=
  if c = '\\' then ([], .escape) else (String.utf8EncodeChar c, .plain)

def Reading.step (c : Char) : Reading → List UInt8 × Reading
  | .plain => plainStep c
  | .escape =>
      match CharClass.octalValue? c with
      | some digit => ([], .octal [digit] 2)
      | none => if c = 'x' then ([], .hex []) else (escapedBytes c, .plain)
  | .octal digits left =>
      match CharClass.octalValue? c, left with
      | some digit, left + 1 => ([], .octal (digits ++ [digit]) left)
      | _, _ =>
          let after := plainStep c
          (numberByte 8 digits :: after.1, after.2)
  | .hex digits =>
      match CharClass.hexValue? c with
      | some digit => ([], .hex (digits ++ [digit]))
      | none =>
          let after := plainStep c
          ((Reading.hex digits).close ++ after.1, after.2)

def decodeBody (reading : Reading) : Text → List UInt8
  | [] => reading.close
  | c :: rest =>
      let after := reading.step c
      after.1 ++ decodeBody after.2 rest

/-- The bytes that a literal denotes. A missing closing quote is tolerated. -/
def bytes (raw : Text) : List UInt8 := decodeBody .plain (stripQuotes raw)

def text (raw : Text) : Text := Utf8.decodeLossy (bytes raw)

end CPreprocessor.Literal
