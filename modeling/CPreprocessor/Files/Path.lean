import CPreprocessor.Text.Basic

/-!
File paths. A path keeps the text it was written in; two paths are the same file to the
preprocessor if they have the same components. Empty pieces and inner dots are no components, a dot
at the start of a relative path is one, and two dots are never resolved.
-/

set_option autoImplicit false

namespace CPreprocessor

structure Path where
  text : Text
deriving DecidableEq, Repr

namespace Path

inductive Component where
  | root
  | here
  | up
  | name (text : Text)
deriving DecidableEq, Repr

inductive Anchor where
  | root
  | here
  | relative
deriving DecidableEq, Repr

def isAbsolute (path : Path) : Bool := path.text.head? == some '/'

def pieces (path : Path) : Anchor × List Text :=
  if path.isAbsolute then (.root, Text.splitOn '/' (path.text.drop 1))
  else
    match Text.splitOn '/' path.text with
    | ['.'] :: rest => (.here, rest)
    | body => (.relative, body)

def isIdle (piece : Text) : Bool := piece == [] || piece == ['.']

def component? (piece : Text) : Option Component :=
  if isIdle piece then none else if piece = ['.', '.'] then some .up else some (.name piece)

def components (path : Path) : List Component :=
  let (anchor, body) := path.pieces
  let named := body.filterMap component?
  match anchor with
  | .root => .root :: named
  | .here => .here :: named
  | .relative => named

def sameFile (left right : Path) : Bool := left.components == right.components

def render (anchor : Anchor) (body : List Text) : Path :=
  match anchor with
  | .root => ⟨'/' :: Text.joinWith '/' body⟩
  | .here => ⟨Text.joinWith '/' (['.'] :: body)⟩
  | .relative => ⟨Text.joinWith '/' body⟩

def dropIdleEnd (body : List Text) : List Text := (body.reverse.dropWhile isIdle).reverse

def parent? (path : Path) : Option Path :=
  let (anchor, body) := path.pieces
  let kept := dropIdleEnd body
  if kept.isEmpty then if anchor = .here then some ⟨[]⟩ else none
  else some (render anchor (dropIdleEnd kept.dropLast))

def join (directory path : Path) : Path :=
  if path.isAbsolute ∨ directory.text = [] then path
  else if directory.text.getLast? = some '/' then ⟨directory.text ++ path.text⟩
  else ⟨directory.text ++ '/' :: path.text⟩

def beside (file path : Path) : Path := (file.parent?.getD ⟨[]⟩).join path

end Path

end CPreprocessor
