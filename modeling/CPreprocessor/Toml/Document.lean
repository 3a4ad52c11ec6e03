import CPreprocessor.Toml.Scalar

/-!
TOML documents: lines that set keys and headers that open tables. Reading gives the root table, or
nothing if the text is no document. Arrays and tables in braces nest, and keys have parts, below a
fixed limit.
-/

set_option autoImplicit false

namespace CPreprocessor.Toml

def nestingLimit : Nat := 80

def simpleKey : Reader Text
  | '"' :: rest => basicString .plain rest
  | '\'' :: rest => literalString rest
  | text =>
      let name := text.takeWhile isBareKey
      if name.isEmpty then none else some (name, text.dropWhile isBareKey)

-- The parts of a dotted key, with blanks around them. The fuel bounds their number.
def keyParts (fuel : Nat) (text : Text) : Option (List Text × Text) :=
  match fuel with
  | 0 => none
  | fuel + 1 =>
      match simpleKey (skipBlanks text) with
      | none => none
      | some (part, rest) =>
          match skipBlanks rest with
          | '.' :: rest => (keyParts fuel rest).map fun (parts, rest) => (part :: parts, rest)
          | rest => some ([part], rest)

def key (text : Text) : Option ((List Text × Text) × Text) := do
  let (parts, rest) ← keyParts (nestingLimit - 1) text
  let name ← parts.getLast?
  some ((parts.dropLast, name), rest)

def skipComment : Text → Text
  | '#' :: rest => rest.dropWhile isPrintable
  | text => text

-- Skips blanks, line ends and comments. The fuel bounds the number of line ends.
def skipLines (fuel : Nat) (text : Text) : Text :=
  match fuel with
  | 0 => text
  | fuel + 1 =>
      match skipComment (skipBlanks text) with
      | '\n' :: rest => skipLines fuel rest
      | '\r' :: '\n' :: rest => skipLines fuel rest
      | rest => rest

mutual

/-- A value, with the number of levels that may still nest in it. The fuel bounds the number of
values, elements and pairs. -/
def value (fuel levels : Nat) (text : Text) : Option (Value × Text) :=
  match fuel with
  | 0 => none
  | fuel + 1 =>
      match text with
      | '"' :: _ => (string text).map fun (content, rest) => (.string content, rest)
      | '\'' :: _ => (string text).map fun (content, rest) => (.string content, rest)
      | '[' :: rest =>
          match levels with
          | 0 => none
          | levels + 1 => (items fuel levels rest).map fun (found, rest) => (.array found, rest)
      | '\x7b' :: rest =>
          match levels with
          | 0 => none
          | levels + 1 =>
              match skipBlanks rest with
              | '\x7d' :: rest => some (.table .braces [], rest)
              | _ =>
                  (pairs fuel levels (.empty .header) rest).map fun (table, rest) =>
                    (.table .braces table.entries, rest)
      | _ => scalar text

def items (fuel levels : Nat) (text : Text) : Option (List Value × Text) :=
  match fuel with
  | 0 => none
  | fuel + 1 =>
      match skipLines text.length text with
      | ']' :: rest => some ([], rest)
      | start =>
          match value fuel levels start with
          | none => none
          | some (first, rest) =>
              match skipLines rest.length rest with
              | ',' :: rest => (items fuel levels rest).map fun (more, rest) => (first :: more, rest)
              | ']' :: rest => some ([first], rest)
              | _ => none

def pairs (fuel levels : Nat) (table : Table) (text : Text) : Option (Table × Text) :=
  match fuel with
  | 0 => none
  | fuel + 1 =>
      match key text with
      | some ((path, name), '=' :: rest) =>
          match value fuel levels (skipBlanks rest) with
          | none => none
          | some (content, rest) =>
              match table.set? path name content with
              | none => none
              | some table =>
                  match skipBlanks rest with
                  | ',' :: rest => pairs fuel levels table rest
                  | '\x7d' :: rest => some (table, rest)
                  | _ => none
      | _ => none

end

def endOfLine (text : Text) : Option Text :=
  match skipComment (skipBlanks text) with
  | [] => some []
  | '\n' :: rest => some rest
  | '\r' :: '\n' :: rest => some rest
  | _ => none

structure Progress where
  root : Table
  current : List Text

def Progress.start : Progress := ⟨.empty .header, []⟩

def header (close : Text) (progress : Progress)
    (opened : Table → List Text → Text → Option Table) (text : Text) : Option (Progress × Text) := do
  let ((path, name), rest) ← key text
  let rest ← word close rest
  let rest ← endOfLine rest
  let root ← opened progress.root path name
  some (⟨root, path ++ [name]⟩, rest)

def setting (progress : Progress) (text : Text) : Option (Progress × Text) :=
  match key text with
  | some ((path, name), '=' :: rest) => do
      let (content, rest) ← value (2 * rest.length + 2) (nestingLimit - 1) (skipBlanks rest)
      let rest ← endOfLine rest
      let root ← progress.root.modify? false (·.set? path name content) progress.current
      some (⟨root, progress.current⟩, rest)
  | _ => none

def statement (progress : Progress) (text : Text) : Option (Progress × Text) :=
  match text with
  | '[' :: '[' :: rest => header "]]".toList progress Table.openElement? rest
  | '[' :: rest => header "]".toList progress Table.openTable? rest
  | _ => setting progress text

-- Reads statements to the end of the text. The fuel bounds the number of lines.
def statements (fuel : Nat) (progress : Progress) (text : Text) : Option Table :=
  match fuel with
  | 0 => none
  | fuel + 1 =>
      match skipBlanks text with
      | [] => some progress.root
      | '#' :: rest => (endOfLine ('#' :: rest)).bind (statements fuel progress)
      | '\n' :: rest => statements fuel progress rest
      | '\r' :: '\n' :: rest => statements fuel progress rest
      | start =>
          match statement progress start with
          | some (after, rest) => statements fuel after rest
          | none => none

def dropByteOrderMark : Text → Text
  | '\uFEFF' :: rest => rest
  | text => text

def read? (text : Text) : Option Table :=
  let body := dropByteOrderMark text
  statements (body.length + 1) .start body

end CPreprocessor.Toml
