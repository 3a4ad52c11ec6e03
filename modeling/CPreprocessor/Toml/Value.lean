import CPreprocessor.Text.Entries

/-!
TOML values. Keys keep the order in which they are first set. A table remembers how it came about,
which decides what may still be added to it.
-/

set_option autoImplicit false

namespace CPreprocessor.Toml

-- A table is named by a header, implied by the header of a table inside it, made by a dotted key,
-- or written in braces.
inductive Origin where
  | header
  | implied
  | dotted
  | braces
deriving DecidableEq, Repr

-- Floats and dates are kept as they are written.
inductive Value where
  | string (text : Text)
  | integer (value : Int)
  | float (text : Text)
  | boolean (value : Bool)
  | datetime (text : Text)
  | array (items : List Value)
  | table (origin : Origin) (entries : List (Text × Value))
  | tables (elements : List (List (Text × Value)))

structure Table where
  origin : Origin
  entries : Entries Value

def isBareKey (c : Char) : Bool := c.isAlphanum || c == '_' || c == '-'

namespace Table

def empty (origin : Origin) : Table := ⟨origin, []⟩

def find? (table : Table) (key : Text) : Option Value := table.entries.lookup key

def put (table : Table) (key : Text) (value : Value) : Table :=
  { table with entries := table.entries.put key value }

def add? (table : Table) (key : Text) (value : Value) : Option Table :=
  match table.find? key with
  | none => some (table.put key value)
  | some _ => none

/-- Changes the table at the end of a path and makes those tables on the way that are missing. An
array of tables is entered at its last element. Dotted keys enter no table that has a header or an
array element of its own, and nothing enters a table in braces. -/
def modify? (dotted : Bool) (change : Table → Option Table) (table : Table) :
    List Text → Option Table
  | [] => change table
  | key :: path =>
      match table.find? key with
      | none =>
          ((empty (if dotted then .dotted else .implied)).modify? dotted change path).map
            fun inner => table.put key (.table inner.origin inner.entries)
      | some (.table .braces _) => none
      | some (.table .header entries) =>
          if dotted then none
          else
            ((Table.mk .header entries).modify? dotted change path).map fun inner =>
              table.put key (.table inner.origin inner.entries)
      | some (.table origin entries) =>
          ((Table.mk origin entries).modify? dotted change path).map fun inner =>
            table.put key (.table inner.origin inner.entries)
      | some (.tables elements) =>
          match elements.getLast? with
          | none => none
          | some last =>
              ((Table.mk .header last).modify? dotted change path).map fun inner =>
                table.put key (.tables (elements.dropLast ++ [inner.entries]))
      | some _ => none

def set? (table : Table) (path : List Text) (key : Text) (value : Value) : Option Table :=
  table.modify? true
    (fun target =>
      if (target.origin == .dotted) == path.isEmpty then none else target.add? key value)
    path

def openTable? (table : Table) (path : List Text) (key : Text) : Option Table :=
  table.modify? false
    (fun target =>
      match target.find? key with
      | none => some (target.put key (.table .header []))
      | some (.table .implied entries) => some (target.put key (.table .header entries))
      | some _ => none)
    path

def openElement? (table : Table) (path : List Text) (key : Text) : Option Table :=
  table.modify? false
    (fun target =>
      match target.find? key with
      | none => some (target.put key (.tables [[]]))
      | some (.tables elements) => some (target.put key (.tables (elements ++ [[]])))
      | some _ => none)
    path

end Table

end CPreprocessor.Toml
