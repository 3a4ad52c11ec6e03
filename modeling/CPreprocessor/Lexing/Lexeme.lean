import CPreprocessor.Text.Basic
import CPreprocessor.Text.CharClass

/-!
The lexical grammar. A normalized text falls into lexemes: names, numbers, blanks, newlines,
literals, and single characters that start none of these. Each takes as much as it can.
-/

set_option autoImplicit false

namespace CPreprocessor

inductive Kind where
  | nothing
  | name
  | number
  | spaceTab
  | newline
  | string
  | other
deriving DecidableEq, Repr

namespace Kind

def all : List Kind := [.nothing, .name, .number, .spaceTab, .newline, .string, .other]

def isWhitespace (kind : Kind) : Bool := kind == .spaceTab || kind == .newline

def describe : Kind → String
  | .nothing => "nothing"
  | .name => "name"
  | .number => "number"
  | .spaceTab => "space/tab"
  | .newline => "newline"
  | .string => "string"
  | .other => "character"

def label : Kind → String
  | .nothing => "None"
  | .name => "Name"
  | .number => "Number"
  | .spaceTab => "SpaceTab"
  | .newline => "Newline"
  | .string => "String"
  | .other => "Other"

end Kind

structure Lexeme where
  kind : Kind
  text : Text
deriving DecidableEq, Repr

namespace Lexeme

def literal (quote : Char) (escaped : Bool) : Text → Text × Text
  | [] => ([], [])
  | c :: rest =>
      if Text.atLineEnd (c :: rest) then ([], c :: rest)
      else if !escaped && c == quote then ([c], rest)
      else
        let tail := literal quote (!escaped && c == '\\') rest
        (c :: tail.1, tail.2)

def run (holds : Char → Bool) (text : Text) : Text × Text :=
  (text.takeWhile holds, text.dropWhile holds)

def fraction : Text → Text × Text
  | '.' :: rest => ('.' :: rest.takeWhile Char.isDigit, rest.dropWhile Char.isDigit)
  | text => ([], text)

def sign : Text → Text × Text
  | '+' :: rest => (['+'], rest)
  | '-' :: rest => (['-'], rest)
  | text => ([], text)

def exponent : Text → Text × Text
  | [] => ([], [])
  | c :: rest =>
      if CharClass.isExponentMarker c then
        let signed := sign rest
        let digits := run Char.isDigit signed.2
        (c :: signed.1 ++ digits.1, digits.2)
      else ([], c :: rest)

def number (text : Text) : Text × Text :=
  let whole := run Char.isDigit text
  let fractional := fraction whole.2
  let scaled := exponent fractional.2
  let suffix := run CharClass.isNameContinue scaled.2
  (whole.1 ++ fractional.1 ++ scaled.1 ++ suffix.1, suffix.2)

def first (c : Char) (rest : Text) : Lexeme × Text :=
  if CharClass.isQuote c then
    let tail := literal c false rest
    (⟨.string, c :: tail.1⟩, tail.2)
  else if CharClass.isNameStart c then
    let tail := run CharClass.isNameContinue rest
    (⟨.name, c :: tail.1⟩, tail.2)
  else if c.isDigit then
    let tail := number (c :: rest)
    (⟨.number, tail.1⟩, tail.2)
  else if CharClass.isSpaceTab c then
    let tail := run CharClass.isSpaceTab rest
    (⟨.spaceTab, c :: tail.1⟩, tail.2)
  else
    match c, rest with
    | '\n', _ => (⟨.newline, ['\n']⟩, rest)
    | '\r', '\n' :: rest => (⟨.newline, ['\r', '\n']⟩, rest)
    | _, _ => (⟨.other, [c]⟩, rest)

@[simp] theorem run_append (holds : Char → Bool) (text : Text) :
    (run holds text).1 ++ (run holds text).2 = text :=
  List.takeWhile_append_dropWhile

@[simp] theorem literal_append (quote : Char) (escaped : Bool) (text : Text) :
    (literal quote escaped text).1 ++ (literal quote escaped text).2 = text := by
  induction text generalizing escaped with
  | nil => rfl
  | cons c rest ih =>
      simp only [literal]
      split
      · rfl
      · split
        · rfl
        · simp [ih]

@[simp] theorem fraction_append (text : Text) : (fraction text).1 ++ (fraction text).2 = text := by
  unfold fraction
  split <;> simp [List.takeWhile_append_dropWhile]

@[simp] theorem sign_append (text : Text) : (sign text).1 ++ (sign text).2 = text := by
  unfold sign
  split <;> rfl

@[simp] theorem exponent_append (text : Text) : (exponent text).1 ++ (exponent text).2 = text := by
  unfold exponent
  split
  · rfl
  · split
    · simp only [List.cons_append, List.append_assoc, run_append, sign_append]
    · rfl

@[simp] theorem number_append (text : Text) : (number text).1 ++ (number text).2 = text := by
  simp only [number, List.append_assoc, run_append, exponent_append, fraction_append]

@[simp] theorem first_append (c : Char) (rest : Text) :
    (first c rest).1.text ++ (first c rest).2 = c :: rest := by
  unfold first
  split
  · simp
  · split
    · simp
    · split
      · exact number_append (c :: rest)
      · split
        · simp
        · split <;> rfl

theorem number_ne_nil (c : Char) (rest : Text) (digit : c.isDigit = true) :
    (number (c :: rest)).1 ≠ [] := by
  simp [number, run, digit]

theorem first_text_ne_nil (c : Char) (rest : Text) : (first c rest).1.text ≠ [] := by
  unfold first
  split
  · simp
  · split
    · simp
    · split
      · exact number_ne_nil c rest ‹_›
      · split
        · simp
        · split <;> simp

theorem first_rest_lt (c : Char) (rest : Text) : (first c rest).2.length < rest.length + 1 := by
  have whole := congrArg List.length (first_append c rest)
  have filled := List.length_pos_iff.mpr (first_text_ne_nil c rest)
  simp only [List.length_append, List.length_cons] at whole
  omega

def scan : Text → List Lexeme
  | [] => []
  | c :: rest => (first c rest).1 :: scan (first c rest).2
termination_by text => text.length
decreasing_by exact first_rest_lt c rest

end Lexeme

end CPreprocessor
