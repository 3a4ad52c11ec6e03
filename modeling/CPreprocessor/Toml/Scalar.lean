import CPreprocessor.Toml.Value
import CPreprocessor.Toml.String

set_option autoImplicit false

namespace CPreprocessor.Toml

-- Digits with single underscores between them; the underscores are left out. A digit must come
-- first if one is `needed`.
def digits (holds : Char → Bool) (needed : Bool) : Reader Text
  | [] => if needed then none else some ([], [])
  | c :: rest =>
      if holds c then prepend [c] (digits holds false rest)
      else if needed then none
      else if c = '_' then digits holds true rest
      else some ([], c :: rest)

def valueOf (base : Nat) (text : Text) : Nat :=
  text.foldl (fun value c => value * base + (CharClass.hexValue? c).getD 0) 0

def sign : Text → Text × Text
  | '+' :: rest => (['+'], rest)
  | '-' :: rest => (['-'], rest)
  | text => ([], text)

def wholePart : Reader Text
  | '0' :: rest => some (['0'], rest)
  | text => digits Char.isDigit true text

def fractionPart : Reader Text
  | '.' :: rest => digits Char.isDigit true rest
  | text => some ([], text)

def exponentPart : Reader (Option Int)
  | [] => some (none, [])
  | c :: rest =>
      if CharClass.isExponentMarker c then
        let (mark, unsigned) := sign rest
        (digits Char.isDigit true unsigned).map fun (exponent, rest) =>
          let size : Int := valueOf 10 exponent
          (some (if mark = ['-'] then -size else size), rest)
      else some (none, c :: rest)

def infinityThreshold : Nat := Nat.pow 2 1024 - Nat.pow 2 970

-- Does `mantissa · 10 ^ exponent` exceed the finite doubles? Far from the border the number of
-- digits tells.
def roundsToInfinity (mantissa : Nat) (exponent : Int) : Bool :=
  let size : Int := exponent + (Nat.toDigits 10 mantissa).length
  if mantissa = 0 ∨ size < 300 then false
  else if 320 < size then true
  else if 0 ≤ exponent then infinityThreshold ≤ mantissa * Nat.pow 10 exponent.toNat
  else infinityThreshold * Nat.pow 10 (-exponent).toNat ≤ mantissa

def integer? (negative : Bool) (size : Nat) : Option Value :=
  if negative then if size ≤ Nat.pow 2 63 then some (.integer (-size)) else none
  else if size < Nat.pow 2 63 then some (.integer size) else none

def spanBefore (text rest : Text) : Text := text.take (text.length - rest.length)

def decimal (text : Text) : Option (Value × Text) := do
  let (mark, unsigned) := sign text
  let (whole, afterWhole) ← wholePart unsigned
  let (fraction, afterFraction) ← fractionPart afterWhole
  let (exponent?, rest) ← exponentPart afterFraction
  let negative := mark == ['-']
  if fraction.isEmpty && exponent?.isNone then
    (integer? negative (valueOf 10 whole)).map (·, rest)
  else
    let scale := exponent?.getD 0 - fraction.length
    if !negative && roundsToInfinity (valueOf 10 (whole ++ fraction)) scale then none
    else some (.float (spanBefore text rest), rest)

def based (base : Nat) (holds : Char → Bool) (text : Text) : Option (Value × Text) := do
  let (number, rest) ← digits holds true text
  (integer? false (valueOf base number)).map (·, rest)

def isHex (c : Char) : Bool := (CharClass.hexValue? c).isSome
def isOctal (c : Char) : Bool := (CharClass.octalValue? c).isSome
def isBinary (c : Char) : Bool := c == '0' || c == '1'

def word (expected : Text) (text : Text) : Option Text :=
  if expected.isPrefixOf text then some (text.drop expected.length) else none

def specialFloat (text : Text) : Option (Value × Text) :=
  let (mark, unsigned) := sign text
  match word "inf".toList unsigned, word "nan".toList unsigned with
  | some rest, _ => some (.float (mark ++ "inf".toList), rest)
  | none, some rest => some (.float (mark ++ "nan".toList), rest)
  | none, none => none

def number (text : Text) : Option (Value × Text) :=
  match text with
  | '0' :: 'x' :: rest => based 16 isHex rest
  | '0' :: 'o' :: rest => based 8 isOctal rest
  | '0' :: 'b' :: rest => based 2 isBinary rest
  | _ =>
      match specialFloat text with
      | some found => some found
      | none => decimal text

def field (count low high : Nat) (text : Text) : Option (Nat × Text) :=
  let front := text.take count
  let value := valueOf 10 front
  if front.length = count ∧ front.all Char.isDigit ∧ low ≤ value ∧ value ≤ high then
    some (value, text.drop count)
  else none

def mark (c : Char) (text : Text) : Option Text := word [c] text

def isLeapYear (year : Nat) : Bool := year % 4 == 0 && (year % 100 != 0 || year % 400 == 0)

def daysInMonth (year month : Nat) : Nat :=
  if month = 2 then if isLeapYear year then 29 else 28
  else if month = 4 ∨ month = 6 ∨ month = 9 ∨ month = 11 then 30
  else 31

def date (text : Text) : Option Text := do
  let (year, text) ← field 4 0 9999 text
  let text ← mark '-' text
  let (month, text) ← field 2 1 12 text
  let text ← mark '-' text
  let (_, text) ← field 2 1 (daysInMonth year month) text
  some text

def secondFraction (text : Text) : Text :=
  match text with
  | '.' :: c :: rest => if c.isDigit then rest.dropWhile Char.isDigit else text
  | _ => text

def time (text : Text) : Option Text := do
  let (_, text) ← field 2 0 23 text
  let text ← mark ':' text
  let (_, text) ← field 2 0 59 text
  let text ← mark ':' text
  let (_, text) ← field 2 0 60 text
  some (secondFraction text)

def offset (text : Text) : Option Text :=
  match text with
  | 'Z' :: rest => some rest
  | 'z' :: rest => some rest
  | '+' :: rest => hours rest
  | '-' :: rest => hours rest
  | _ => some text
where
  hours (text : Text) : Option Text := do
    let (_, text) ← field 2 0 23 text
    let text ← mark ':' text
    let (_, text) ← field 2 0 59 text
    some text

def startsTime (text : Text) : Bool :=
  (text.take 2).all Char.isDigit && (text.drop 2).head? == some ':' && 2 < text.length

def startsDate (text : Text) : Bool :=
  (text.take 4).all Char.isDigit && (text.drop 4).head? == some '-' && 4 < text.length

def timeAfterDate (text : Text) : Option Text :=
  match text with
  | c :: rest =>
      if (c = 'T' ∨ c = 't' ∨ c = ' ') ∧ startsTime rest then (time rest).bind offset
      else some text
  | [] => some []

def datetime (text : Text) : Option (Value × Text) :=
  let read :=
    if startsDate text then (date text).bind timeAfterDate else time text
  read.map fun rest => (.datetime (spanBefore text rest), rest)

def boolean (text : Text) : Option (Value × Text) :=
  match word "true".toList text, word "false".toList text with
  | some rest, _ => some (.boolean true, rest)
  | none, some rest => some (.boolean false, rest)
  | none, none => none

def scalar (text : Text) : Option (Value × Text) :=
  match text with
  | [] => none
  | c :: _ =>
      if startsDate text || startsTime text then datetime text
      else if c.isDigit || c == '+' || c == '-' || c == 'i' || c == 'n' then number text
      else boolean text

end CPreprocessor.Toml
