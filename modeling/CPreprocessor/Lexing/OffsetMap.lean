import CPreprocessor.Source.Span
import CPreprocessor.Lexing.Normalized

/-!
The way back from the normalized text. Bytes that were copied one after the other share a segment;
a comment's blank has one of its own.
-/

set_option autoImplicit false

namespace CPreprocessor

inductive Segment where
  | verbatim (norm orig : Nat)
  | comment (norm start stop : Nat)
deriving DecidableEq, Repr

namespace Segment

def norm : Segment → Nat
  | .verbatim norm _ => norm
  | .comment norm _ _ => norm

def startOf (position : Nat) : Segment → Nat
  | .verbatim norm orig => orig + (position - norm)
  | .comment _ start _ => start

def endOf (position : Nat) : Segment → Nat
  | .verbatim norm orig => orig + (position - norm) + 1
  | .comment _ _ stop => stop

def extendsTo (norm orig : Nat) : Segment → Bool
  | .verbatim norm₀ orig₀ => orig₀ + (norm - norm₀) == orig
  | .comment _ _ _ => false

end Segment

/-- The segments, last one first. -/
structure OffsetMap where
  segments : List Segment
deriving DecidableEq, Repr

namespace OffsetMap

def empty : OffsetMap := ⟨[]⟩

def push (map : OffsetMap) (segment : Segment) : OffsetMap := ⟨segment :: map.segments⟩

def copied (map : OffsetMap) (norm orig : Nat) : OffsetMap :=
  if map.segments.head?.any (Segment.extendsTo norm orig) then map
  else map.push (.verbatim norm orig)

def add (map : OffsetMap) (norm : Nat) : Piece → OffsetMap
  | .copied _ offset => map.copied norm offset
  | .comment start stop => map.push (.comment norm start stop)

def addAll (map : OffsetMap) (norm : Nat) : List Piece → OffsetMap
  | [] => map
  | piece :: pieces => (map.add norm piece).addAll (norm + piece.char.utf8Size) pieces

def ofPieces (pieces : List Piece) : OffsetMap := empty.addAll 0 pieces

def segment? (map : OffsetMap) (position : Nat) : Option Segment :=
  map.segments.find? (·.norm ≤ position)

def startOf (map : OffsetMap) (position : Nat) : Nat :=
  match map.segment? position with
  | some segment => segment.startOf position
  | none => position

def endOf (map : OffsetMap) (position : Nat) : Nat :=
  match map.segment? position with
  | some segment => segment.endOf position
  | none => position + 1

def origin (map : OffsetMap) (span : Span) : Span :=
  if span.isEmpty then ⟨map.startOf span.start, map.startOf span.start⟩
  else ⟨map.startOf span.start, map.endOf (span.stop - 1)⟩

end OffsetMap

end CPreprocessor
