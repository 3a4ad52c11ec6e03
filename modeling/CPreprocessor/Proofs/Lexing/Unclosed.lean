import CPreprocessor.Proofs.Lexing.Splices

/-!
Block comments that never close: where such a comment begins, what the text has there and after it, and
that what is read up to its slash is all that the text before it gives.
-/

set_option autoImplicit false

namespace CPreprocessor

namespace Text

def SlashNext (text : Text) : Prop := ∃ gap after, text = gap ++ '/' :: after ∧ Splices gap

def ClosesComment (text : Text) : Prop :=
  ∃ before gap after, text = before ++ '*' :: (gap ++ '/' :: after) ∧ Splices gap

theorem slashNext_splice (splice rest : Text) (single : Splice splice)
    (next : SlashNext (splice ++ rest)) : SlashNext rest := by
  obtain ⟨gap, after, same, splices⟩ := next
  cases splices with
  | none => cases single <;> cases same
  | more other gap first later =>
      refine ⟨gap, after, ?_, later⟩
      rw [List.append_assoc] at same
      cases single with
      | feed =>
          cases first with
          | feed => exact (List.cons.inj (List.cons.inj same).2).2
          | returnFeed => cases same
      | returnFeed =>
          cases first with
          | feed => cases same
          | returnFeed => exact (List.cons.inj (List.cons.inj (List.cons.inj same).2).2).2

theorem slashNext_char (c : Char) (rest : Text) (kept : startsSplice (c :: rest) = false)
    (next : SlashNext (c :: rest)) : c = '/' := by
  obtain ⟨gap, after, same, splices⟩ := next
  cases splices with
  | none => exact (List.cons.inj same).1
  | more splice gap first later =>
      rw [same] at kept
      cases first with
      | feed => cases kept
      | returnFeed => cases kept

theorem closesComment_cons (c : Char) (rest : Text) (closes : ClosesComment (c :: rest)) :
    c = '*' ∧ SlashNext rest ∨ ClosesComment rest := by
  obtain ⟨before, gap, after, same, splices⟩ := closes
  cases before with
  | nil =>
      obtain ⟨star, later⟩ := List.cons.inj same
      exact .inl ⟨star, gap, after, later, splices⟩
  | cons d before => exact .inr ⟨before, gap, after, (List.cons.inj same).2, splices⟩

theorem closesComment_splice (splice rest : Text) (single : Splice splice)
    (closes : ClosesComment (splice ++ rest)) : ClosesComment rest := by
  have plain : ∀ c more, c ≠ '*' → ClosesComment (c :: more) → ClosesComment more :=
    fun c more other here => (closesComment_cons c more here).resolve_left fun star => other star.1
  cases single with
  | feed => exact plain _ _ (by decide) (plain _ _ (by decide) closes)
  | returnFeed => exact plain _ _ (by decide) (plain _ _ (by decide) (plain _ _ (by decide) closes))

theorem atLineEnd_slash (c : Char) (before rest : Text) :
    atLineEnd (c :: (before ++ '/' :: rest)) = atLineEnd (c :: before) := by
  rw [Bool.eq_iff_iff, atLineEnd_iff, atLineEnd_iff]
  cases before with
  | nil => simp
  | cons d before => rfl

theorem startsSplice_slash (c : Char) (before rest : Text) :
    startsSplice (c :: (before ++ '/' :: rest)) = startsSplice (c :: before) := by
  rw [Bool.eq_iff_iff, startsSplice_iff, startsSplice_iff]
  cases before with
  | nil => simp [atLineEnd]
  | cons d before => rw [List.cons_append, atLineEnd_slash]

end Text

namespace Mode

def Opened (start : Nat) (text : Text) : Mode → Prop
  | .slash begun => begun = start ∧
      ∃ gap body, text = gap ++ '*' :: body ∧ Splices gap ∧ ¬ Text.ClosesComment body
  | .blockComment begun => begun = start ∧ ¬ text.ClosesComment
  | .blockStar begun => begun = start ∧ ¬ text.ClosesComment ∧ ¬ text.SlashNext
  | .code | .lineComment _ | .literal _ _ => False

theorem opened_splice (mode : Mode) (start : Nat) (splice rest : Text) (single : Splice splice)
    (opened : mode.Opened start rest) : mode.Opened start (splice ++ rest) := by
  cases mode with
  | slash begun =>
      obtain ⟨same, gap, body, rfl, splices, unclosed⟩ := opened
      exact ⟨same, splice ++ gap, body, (List.append_assoc ..).symm, single.splices.append splices,
        unclosed⟩
  | blockComment begun => exact ⟨opened.1, mt (Text.closesComment_splice splice rest single) opened.2⟩
  | blockStar begun =>
      exact ⟨opened.1, mt (Text.closesComment_splice splice rest single) opened.2.1,
        mt (Text.slashNext_splice splice rest single) opened.2.2⟩
  | code => exact opened
  | lineComment begun => exact opened
  | literal quote escaped => exact opened

theorem not_opened_codeStep (offset start : Nat) (c : Char) (rest : Text) (other : c ≠ '/') :
    ¬ (codeStep offset c).2.Opened start rest := by
  rw [codeStep, if_neg other]
  dsimp only
  split <;> exact id

theorem opened_blockStep (begun start : Nat) (c : Char) (rest : Text)
    (opened : (blockStep begun c).Opened start rest) :
    begun = start ∧ ¬ Text.ClosesComment (c :: rest) := by
  rw [blockStep] at opened
  split at opened
  · refine ⟨opened.1, fun closes => ?_⟩
    exact (Text.closesComment_cons c rest closes).elim (fun star => opened.2.2 star.2) opened.2.1
  · rename_i other
    refine ⟨opened.1, fun closes => ?_⟩
    exact (Text.closesComment_cons c rest closes).elim (fun star => other star.1) opened.2

-- A character that leads into the comment belongs to it, and completes no piece; or it is the slash.
theorem opened_step (mode : Mode) (lineEnd : Bool) (offset start : Nat) (c : Char) (rest : Text)
    (kept : Text.startsSplice (c :: rest) = false)
    (opened : (mode.step lineEnd offset c).2.Opened start rest) :
    (mode.step lineEnd offset c).1 = [] ∧
      (mode.Opened start (c :: rest) ∨
        mode = .code ∧ c = '/' ∧ offset = start ∧ (Mode.slash start).Opened start rest) := by
  cases mode with
  | code =>
      by_cases slash : c = '/'
      · rw [step, codeStep, if_pos slash] at opened ⊢
        obtain rfl := opened.1
        exact ⟨rfl, .inr ⟨rfl, slash, rfl, opened⟩⟩
      · exact absurd opened (not_opened_codeStep offset start c rest slash)
  | slash begun =>
      rw [step] at opened ⊢
      by_cases line : c = '/'
      · rw [if_pos line] at opened
        exact opened.elim
      rw [if_neg line] at opened ⊢
      by_cases block : c = '*'
      · rw [if_pos block] at opened ⊢
        exact ⟨rfl, .inl ⟨opened.1, [], rest, by rw [block]; rfl, .none, opened.2⟩⟩
      · rw [if_neg block] at opened
        exact absurd opened (not_opened_codeStep offset start c rest line)
  | lineComment begun =>
      rw [step] at opened
      split at opened
      · exact opened.elim
      · exact opened.elim
  | blockComment begun => exact ⟨rfl, .inl (opened_blockStep begun start c rest opened)⟩
  | blockStar begun =>
      rw [step] at opened ⊢
      by_cases closes : c = '/'
      · rw [if_pos closes] at opened
        exact opened.elim
      · rw [if_neg closes] at opened ⊢
        obtain ⟨same, unclosed⟩ := opened_blockStep begun start c rest opened
        exact ⟨rfl, .inl ⟨same, unclosed, mt (Text.slashNext_char c rest kept) closes⟩⟩
  | literal quote escaped =>
      rw [step] at opened
      dsimp only at opened
      split at opened
      · exact opened.elim
      · split at opened
        · exact opened.elim
        · split at opened
          · exact opened.elim
          · exact opened.elim

end Mode

namespace Normalized

-- The text has a comment from `start` on that never closes, and what is read before it is all that
-- the text before it gives.
structure OpensAt (mode : Mode) (offset start : Nat) (text before rest : Text) : Prop where
  whole : text = before ++ '/' :: rest
  place : offset + before.byteLength = start
  opened : (Mode.slash start).Opened start rest
  same : scan mode offset before = ⟨(scan mode offset text).pieces, none⟩

theorem scan_opened (mode : Mode) (offset start : Nat) (text : Text)
    (unclosed : (scan mode offset text).openComment = some start) :
    (mode.Opened start text ∧ (scan mode offset text).pieces = []) ∨
      ∃ before rest, OpensAt mode offset start text before rest := by
  induction text using Text.splice_induction generalizing mode offset with
  | nil =>
      have nowhere : ¬ Text.ClosesComment [] := by
        rintro ⟨before, gap, after, same, _⟩
        simp at same
      cases mode with
      | blockComment begun =>
          cases unclosed
          exact .inl ⟨⟨rfl, nowhere⟩, rfl⟩
      | blockStar begun =>
          cases unclosed
          refine .inl ⟨⟨rfl, nowhere, ?_⟩, rfl⟩
          rintro ⟨gap, after, same, _⟩
          simp at same
      | code => cases unclosed
      | slash begun => cases unclosed
      | lineComment begun => cases unclosed
      | literal quote escaped => cases unclosed
  | splice splice rest single ih =>
      rw [scan_splice mode offset splice rest single] at unclosed ⊢
      rcases ih mode _ unclosed with ⟨opened, none⟩ | ⟨before, tail, opens⟩
      · exact .inl ⟨mode.opened_splice start splice rest single opened, none⟩
      · refine .inr ⟨splice ++ before, tail, ?_, ?_, opens.opened, ?_⟩
        · rw [opens.whole, List.append_assoc]
        · rw [Text.byteLength_append, ← Nat.add_assoc, opens.place]
        · rw [scan_splice mode offset splice before single, scan_splice mode offset splice rest single,
            opens.same]
  | char c rest kept ih =>
      have reads := scan_char mode offset c rest kept
      rw [reads] at unclosed ⊢
      rcases ih _ _ unclosed with ⟨opened, none⟩ | ⟨before, tail, opens⟩
      · obtain ⟨nothing, belongs | ⟨rfl, rfl, rfl, slash⟩⟩ :=
          mode.opened_step _ offset start c rest kept opened
        · exact .inl ⟨belongs, by rw [prepend, nothing, none]; rfl⟩
        · refine .inr ⟨[], rest, rfl, rfl, slash, ?_⟩
          rw [reads, prepend, nothing, none]
          rfl
      · have whole := opens.whole
        refine .inr ⟨c :: before, tail, by rw [whole]; rfl, ?_, opens.opened, ?_⟩
        · rw [Text.byteLength_cons, ← Nat.add_assoc, opens.place]
        · have keptBefore : Text.startsSplice (c :: before) = false := by
            rw [← Text.startsSplice_slash c before tail, ← whole]
            exact kept
          have sameEnd : Text.atLineEnd (c :: rest) = Text.atLineEnd (c :: before) := by
            rw [whole, Text.atLineEnd_slash]
          rw [scan_char mode offset c before keptBefore, reads, ← sameEnd, opens.same]
          rfl

theorem ofText_opened (text : Text) (start : Nat)
    (unclosed : (ofText text).openComment = some start) :
    ∃ before rest, OpensAt .code 0 start text before rest :=
  (scan_opened .code 0 start text unclosed).resolve_left fun inside => inside.1

end Normalized

end CPreprocessor
