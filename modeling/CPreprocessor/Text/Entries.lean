import CPreprocessor.Text.Basic

/-!
Association lists in the order in which their keys were first set.
-/

set_option autoImplicit false

namespace CPreprocessor

abbrev Entries (α : Type) := List (Text × α)

-- A key that is there already keeps its place and takes the new value.
def Entries.put {α : Type} (key : Text) (value : α) : Entries α → Entries α
  | [] => [(key, value)]
  | entry :: rest =>
      if entry.1 = key then (key, value) :: rest else entry :: Entries.put key value rest

end CPreprocessor
