import CPreprocessor.Files.Path
import CPreprocessor.Text.Utf8

/-!
A tree of files as an operating system shows it to a program that runs at its top: paths are walked
piece by piece, and each failure has the system's own wording.
-/

set_option autoImplicit false

namespace CPreprocessor

inductive SystemError where
  | notFound
  | notDirectory
  | isDirectory
  | nameTooLong
  | nulInName
deriving DecidableEq, Repr

def SystemError.message : SystemError → String
  | .notFound => "No such file or directory (os error 2)"
  | .notDirectory => "Not a directory (os error 20)"
  | .isDirectory => "Is a directory (os error 21)"
  | .nameTooLong => "File name too long (os error 36)"
  | .nulInName => "file name contained an unexpected NUL byte"

-- Entries are named by their pieces; the last entry of a name counts. Directories above an entry
-- exist with it.
structure FileTree where
  files : List (List Text × List UInt8)
  directories : List (List Text)
deriving DecidableEq, Repr

namespace FileTree

def empty : FileTree := ⟨[], []⟩

def piecesOf (path : Text) : List Text := (Text.splitOn '/' path).filter (!Path.isIdle ·)

def addFile (tree : FileTree) (path : Text) (content : List UInt8) : FileTree :=
  { tree with files := (piecesOf path, content) :: tree.files }

def addDirectory (tree : FileTree) (path : Text) : FileTree :=
  { tree with directories := piecesOf path :: tree.directories }

inductive Place where
  | outside
  | directory (names : List Text)
  | file (content : List UInt8)
deriving DecidableEq, Repr

def isDirectory (tree : FileTree) (names : List Text) : Bool :=
  names.isEmpty || tree.directories.any (names.isPrefixOf ·) ||
    tree.files.any fun entry => names.isPrefixOf entry.1 && names.length < entry.1.length

def place? (tree : FileTree) (names : List Text) : Option Place :=
  match tree.files.lookup names with
  | some content => some (.file content)
  | none => if tree.isDirectory names then some (.directory names) else none

def nameLimit : Nat := 255

def pathLimit : Nat := 4096

def enter (tree : FileTree) (piece : Text) : Place → Except SystemError Place
  | .file _ => .error .notDirectory
  | .outside =>
      if Path.isIdle piece ∨ piece = ['.', '.'] then .ok .outside
      else if nameLimit < Text.byteLength piece then .error .nameTooLong
      else .error .notFound
  | .directory names =>
      if Path.isIdle piece then .ok (.directory names)
      else if piece = ['.', '.'] then
        if names.isEmpty then .ok .outside else .ok (.directory names.dropLast)
      else if nameLimit < Text.byteLength piece then .error .nameTooLong
      else
        match tree.place? (names ++ [piece]) with
        | some place => .ok place
        | none => .error .notFound

def walk (tree : FileTree) (place : Place) : List Text → Except SystemError Place
  | [] => .ok place
  | piece :: rest =>
      match tree.enter piece place with
      | .ok next => tree.walk next rest
      | .error error => .error error

def read (tree : FileTree) (path : Path) : Except SystemError (List UInt8) :=
  if path.text.any (·.toNat == 0) then .error .nulInName
  else if path.text.isEmpty then .error .notFound
  else if pathLimit ≤ Text.byteLength path.text then .error .nameTooLong
  else
    let start := if path.isAbsolute then Place.outside else .directory []
    match tree.walk start (Text.splitOn '/' path.text) with
    | .ok (.file content) => .ok content
    | .ok _ => .error .isDirectory
    | .error error => .error error

end FileTree

end CPreprocessor
