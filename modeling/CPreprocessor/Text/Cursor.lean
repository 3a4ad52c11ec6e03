import CPreprocessor.Text.Utf8

/-!
A cursor walks over a text byte by byte. It may come to stand inside a character; looking at bytes
is still possible there, but taking text is not.
-/

set_option autoImplicit false

namespace CPreprocessor

structure Cursor where
  text : Text
  position : Nat
deriving DecidableEq, Repr

namespace Cursor

def start (text : Text) : Cursor := ⟨text, 0⟩

def ahead (cursor : Cursor) : List UInt8 := (Utf8.encode cursor.text).drop cursor.position

def peek? (cursor : Cursor) (distance : Nat) : Option UInt8 := cursor.ahead[distance]?

def current? (cursor : Cursor) : Option UInt8 := cursor.peek? 0

def atEnd (cursor : Cursor) : Bool := cursor.ahead.isEmpty

def lookingAt (cursor : Cursor) (holds : UInt8 → Bool) : Bool := cursor.current?.any holds

def atLineEnd (cursor : Cursor) : Bool :=
  match cursor.ahead with
  | 0x0A :: _ => true
  | 0x0D :: 0x0A :: _ => true
  | _ => false

def moved (cursor : Cursor) (distance : Nat) : Cursor :=
  { cursor with position := cursor.position + distance }

def advance (cursor : Cursor) : Cursor := if cursor.atEnd then cursor else cursor.moved 1

def advanceChar? (cursor : Cursor) : Option Cursor :=
  (cursor.text.dropBytes? cursor.position).map fun rest =>
    match rest with
    | [] => cursor
    | c :: _ => cursor.moved c.utf8Size

def eatWhile (cursor : Cursor) (holds : UInt8 → Bool) : Nat × Cursor :=
  let count := (cursor.ahead.takeWhile holds).length
  (count, cursor.moved count)

def eat (cursor : Cursor) (expected : UInt8) : Bool × Cursor :=
  if cursor.current? = some expected then (true, cursor.moved 1) else (false, cursor)

def sliceFrom? (cursor : Cursor) (start : Nat) : Option Text :=
  cursor.text.slice? start cursor.position

def remaining? (cursor : Cursor) : Option Text := cursor.text.dropBytes? cursor.position

end Cursor

end CPreprocessor
