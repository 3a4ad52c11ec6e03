/-!
A text is a list of characters. Positions in a text count the bytes of its UTF-8 form, so a
character is as wide as its encoding, and a position may fall inside one.
-/

set_option autoImplicit false

namespace CPreprocessor

abbrev Text := List Char

instance : LawfulBEq Text := inferInstance

namespace Text

def byteLength (text : Text) : Nat := text.foldr (fun c length => c.utf8Size + length) 0

def atLineEnd : Text → Bool
  | '\n' :: _ => true
  | '\r' :: '\n' :: _ => true
  | _ => false

-- The text from a byte position on, if a character starts or the text ends there.
def dropBytes? (position : Nat) : Text → Option Text
  | [] => if position = 0 then some [] else none
  | c :: rest =>
      if position = 0 then some (c :: rest)
      else if c.utf8Size ≤ position then dropBytes? (position - c.utf8Size) rest
      else none

def takeBytes? (count : Nat) : Text → Option Text
  | [] => if count = 0 then some [] else none
  | c :: rest =>
      if count = 0 then some []
      else if c.utf8Size ≤ count then (takeBytes? (count - c.utf8Size) rest).map (c :: ·)
      else none

/-- The bytes from `start` up to `stop`, if both are character boundaries of the text. -/
def slice? (start stop : Nat) (text : Text) : Option Text :=
  if start ≤ stop then (dropBytes? start text).bind (takeBytes? (stop - start)) else none

def isBoundary (position : Nat) (text : Text) : Bool := (dropBytes? position text).isSome

def splitOn (separator : Char) : Text → List Text
  | [] => [[]]
  | c :: rest =>
      if c = separator then [] :: splitOn separator rest
      else
        match splitOn separator rest with
        | [] => [[c]]
        | piece :: pieces => (c :: piece) :: pieces

def joinWith (separator : Char) : List Text → Text
  | [] => []
  | [piece] => piece
  | piece :: pieces => piece ++ separator :: joinWith separator pieces

end Text

end CPreprocessor
