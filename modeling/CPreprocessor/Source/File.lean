import CPreprocessor.Text.Basic
import CPreprocessor.Text.Quoted

/-!
Named texts and places in them. Lines and columns count from one; a column counts bytes.
-/

set_option autoImplicit false

namespace CPreprocessor

structure Location where
  file : Text
  line : Nat
  column : Nat
deriving DecidableEq, Repr

def Location.render (location : Location) : String :=
  String.ofList location.file ++ " (" ++ toString location.line ++ ", " ++
    toString location.column ++ ")"

structure SourceFile where
  name : Text
  content : Text
  lineStarts : List Nat
deriving DecidableEq, Repr

namespace SourceFile

def startsAfterBreaks (position : Nat) : Text → List Nat
  | [] => []
  | c :: rest =>
      let next := position + c.utf8Size
      if c = '\n' then next :: startsAfterBreaks next rest else startsAfterBreaks next rest

def make (name content : Text) : SourceFile := ⟨name, content, 0 :: startsAfterBreaks 0 content⟩

def lineCount (file : SourceFile) : Nat := file.lineStarts.length

def startsUpTo (file : SourceFile) (position : Nat) : List Nat :=
  file.lineStarts.takeWhile (· ≤ position)

/-- Line and column of a position. Past the end of the text the last line goes on. -/
def lineColumn (file : SourceFile) (position : Nat) : Nat × Nat :=
  let starts := file.startsUpTo position
  (starts.length, position - starts.getLastD 0 + 1)

def locate (file : SourceFile) (position : Nat) : Location :=
  let place := file.lineColumn position
  ⟨file.name, place.1, place.2⟩

def describe (file : SourceFile) : String :=
  "SourceFile \x7b name: " ++ String.ofList file.name.quoted ++ ", line_count: " ++
    toString file.lineCount ++ " \x7d"

end SourceFile

end CPreprocessor
