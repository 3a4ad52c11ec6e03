import CPreprocessor.Lexing.Normalized
import CPreprocessor.Proofs.Text.Bytes

/-!
Line splices, and how a text is read with them: at each position there is the end of the text, a
splice, or a character that is no part of one.
-/

set_option autoImplicit false

namespace CPreprocessor

inductive Splice : Text → Prop where
  | feed : Splice ['\\', '\n']
  | returnFeed : Splice ['\\', '\r', '\n']

inductive Splices : Text → Prop where
  | none : Splices []
  | more (splice rest : Text) (first : Splice splice) (later : Splices rest) :
      Splices (splice ++ rest)

theorem Splice.splices {splice : Text} (single : Splice splice) : Splices splice := by
  have whole := Splices.more splice [] single .none
  rwa [List.append_nil] at whole

theorem Splices.append {first second : Text} (left : Splices first) (right : Splices second) :
    Splices (first ++ second) := by
  induction left with
  | none => exact right
  | more splice rest single _ ih =>
      rw [List.append_assoc]
      exact .more splice _ single ih

namespace Text

def startsSplice : Text → Bool
  | '\\' :: '\n' :: _ => true
  | '\\' :: '\r' :: '\n' :: _ => true
  | _ => false

theorem splice_of_starts (text : Text) (starts : text.startsSplice = true) :
    ∃ splice rest, Splice splice ∧ text = splice ++ rest := by
  unfold startsSplice at starts
  split at starts
  · rename_i rest
    exact ⟨['\\', '\n'], rest, .feed, rfl⟩
  · rename_i rest
    exact ⟨['\\', '\r', '\n'], rest, .returnFeed, rfl⟩
  · cases starts

theorem atLineEnd_iff (c : Char) (rest : Text) :
    atLineEnd (c :: rest) = true ↔ c = '\n' ∨ c = '\r' ∧ rest.head? = some '\n' := by
  constructor
  · intro ends
    unfold atLineEnd at ends
    split at ends
    · rename_i same
      exact .inl (List.cons.inj same).1
    · rename_i same
      obtain ⟨rfl, rfl⟩ := List.cons.inj same
      exact .inr ⟨rfl, rfl⟩
    · cases ends
  · rintro (rfl | ⟨rfl, feed⟩)
    · rfl
    · obtain ⟨more, rfl⟩ := List.head?_eq_some_iff.mp feed
      rfl

theorem startsSplice_iff (c : Char) (rest : Text) :
    startsSplice (c :: rest) = true ↔ c = '\\' ∧ atLineEnd rest = true := by
  constructor
  · intro starts
    obtain ⟨splice, later, single, same⟩ := splice_of_starts _ starts
    cases single with
    | feed =>
        cases same
        exact ⟨rfl, rfl⟩
    | returnFeed =>
        cases same
        exact ⟨rfl, rfl⟩
  · rintro ⟨rfl, ends⟩
    unfold atLineEnd at ends
    split at ends
    · rfl
    · rfl
    · cases ends

theorem splice_induction {motive : Text → Prop} (nil : motive [])
    (splice : ∀ splice rest, Splice splice → motive rest → motive (splice ++ rest))
    (char : ∀ c rest, startsSplice (c :: rest) = false → motive rest → motive (c :: rest))
    (text : Text) : motive text := by
  induction measured : text.length using Nat.strongRecOn generalizing text with
  | ind size ih =>
      cases text with
      | nil => exact nil
      | cons c rest =>
          by_cases starts : startsSplice (c :: rest) = true
          · obtain ⟨first, later, single, same⟩ := splice_of_starts _ starts
            have shorter : later.length < size := by
              rw [← measured, same]
              cases single <;> simp only [List.cons_append, List.nil_append, List.length_cons] <;> omega
            rw [same]
            exact splice first later single (ih _ shorter later rfl)
          · have shorter : rest.length < size := by
              rw [← measured]
              exact Nat.lt_succ_self _
            exact char c rest (by simpa using starts) (ih _ shorter rest rfl)

end Text

namespace Normalized

theorem scan_splice (mode : Mode) (offset : Nat) (splice rest : Text) (single : Splice splice) :
    scan mode offset (splice ++ rest) = scan mode (offset + splice.byteLength) rest := by
  cases single with
  | feed => rfl
  | returnFeed => rfl

theorem scan_char (mode : Mode) (offset : Nat) (c : Char) (rest : Text)
    (kept : Text.startsSplice (c :: rest) = false) :
    scan mode offset (c :: rest) =
      (scan (mode.step (Text.atLineEnd (c :: rest)) offset c).2 (offset + c.utf8Size) rest).prepend
        (mode.step (Text.atLineEnd (c :: rest)) offset c).1 := by
  apply scan.eq_4
  · intro tail isBackslash feed
    rw [isBackslash, feed] at kept
    cases kept
  · intro tail isBackslash returnFeed
    rw [isBackslash, returnFeed] at kept
    cases kept

end Normalized

end CPreprocessor
