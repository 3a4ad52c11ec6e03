import CPreprocessor.Source.Span
import CPreprocessor.Proofs.Lexing.Splices

/-!
The pieces of a normalized text account for the text that they were made of: each stands for a part
of it, in order, and between these parts there are line splices only. Where a block comment never
closes, the account ends at its start.
-/

set_option autoImplicit false

namespace CPreprocessor

-- The spans lie in a text that begins at `position`, in order, none of them empty, with splices
-- before, between and after them.
def Covers : Nat → Text → List Span → Prop
  | _, text, [] => Splices text
  | position, text, span :: later =>
      ∃ gap own rest, text = gap ++ (own ++ rest) ∧ Splices gap ∧ own ≠ [] ∧
        span = ⟨position + gap.byteLength, position + gap.byteLength + own.byteLength⟩ ∧
        Covers span.stop rest later

theorem covers_splices (position : Nat) (gap text : Text) (spans : List Span) (splices : Splices gap)
    (covers : Covers (position + gap.byteLength) text spans) :
    Covers position (gap ++ text) spans := by
  cases spans with
  | nil => exact splices.append covers
  | cons span later =>
      obtain ⟨more, own, rest, same, moreSplices, filled, at_, tail⟩ := covers
      refine ⟨gap ++ more, own, rest, ?_, splices.append moreSplices, filled, ?_, tail⟩
      · rw [same, List.append_assoc]
      · rw [at_, Text.byteLength_append, Nat.add_assoc]

theorem covers_own (position : Nat) (own text : Text) (spans : List Span) (filled : own ≠ [])
    (covers : Covers (position + own.byteLength) text spans) :
    Covers position (own ++ text) (⟨position, position + own.byteLength⟩ :: spans) :=
  ⟨[], own, text, rfl, .none, filled, rfl, covers⟩

theorem covers_merge (position : Nat) (text : Text) (first second : Span) (spans : List Span)
    (covers : Covers position text (first :: second :: spans)) :
    Covers position text (⟨first.start, second.stop⟩ :: spans) := by
  obtain ⟨gap, own, _, textSame, splices, filled, firstAt, between, nextOwn, rest, restSame, _, _,
    secondAt, tail⟩ := covers
  refine ⟨gap, own ++ (between ++ nextOwn), rest, ?_, splices, ?_, ?_, tail⟩
  · rw [textSame, restSame]
    simp [List.append_assoc]
  · simp [filled]
  · rw [secondAt, firstAt]
    simp [Nat.add_assoc]

def Piece.origin : Piece → Span
  | .copied char offset => ⟨offset, offset + char.utf8Size⟩
  | .comment start stop => ⟨start, stop⟩

namespace Mode

def anchor (offset : Nat) : Mode → Nat
  | .code => offset
  | .slash start => start
  | .lineComment start => start
  | .blockComment start => start
  | .blockStar start => start
  | .literal _ _ => offset

-- The text between the anchor and the offset: a slash that is held back, with splices after it, or
-- a comment so far.
def Holds (offset : Nat) (held : Text) : Mode → Prop
  | .code => held = []
  | .slash start => ∃ gap : Text, held = '/' :: gap ∧ Splices gap ∧ start + held.byteLength = offset
  | .lineComment start => held ≠ [] ∧ start + held.byteLength = offset
  | .blockComment start => held ≠ [] ∧ start + held.byteLength = offset
  | .blockStar start => held ≠ [] ∧ start + held.byteLength = offset
  | .literal _ _ => held = []

-- Reading on turns `done`, from the anchor on, into pieces, and leaves the text after it held.
structure Advances (mode : Mode) (offset : Nat) (held read : Text) (pieces : List Piece)
    (next : Mode) (done rest : Text) : Prop where
  same : held ++ read = done ++ rest
  anchored : next.anchor (offset + read.byteLength) = mode.anchor offset + done.byteLength
  holds : next.Holds (offset + read.byteLength) rest
  covers : ∀ text spans, Covers (mode.anchor offset + done.byteLength) text spans →
    Covers (mode.anchor offset) (done ++ text) (pieces.map Piece.origin ++ spans)

variable {offset : Nat} {held : Text}

theorem advances_grow {mode next : Mode} (read : Text)
    (anchored : next.anchor (offset + read.byteLength) = mode.anchor offset)
    (holds : next.Holds (offset + read.byteLength) (held ++ read)) :
    Advances mode offset held read [] next [] (held ++ read) := by
  refine ⟨rfl, anchored, holds, ?_⟩
  intro text spans covers
  exact covers

theorem advances_copy {mode next : Mode} (c : Char) (here : mode.anchor offset = offset)
    (ahead : next.anchor (offset + c.utf8Size) = offset + c.utf8Size)
    (holds : next.Holds (offset + c.utf8Size) []) :
    Advances mode offset [] [c] [.copied c offset] next [c] [] := by
  have width : Text.byteLength [c] = c.utf8Size := by simp
  refine ⟨rfl, ?_, ?_, ?_⟩
  · rw [width, here, ahead]
  · rw [width]
    exact holds
  · intro text spans covers
    rw [here] at covers ⊢
    have own := covers_own offset [c] text spans (List.cons_ne_nil c []) covers
    rwa [width] at own

theorem advances_code (offset : Nat) (c : Char) :
    ∃ done rest, Advances .code offset [] [c] (codeStep offset c).1 (codeStep offset c).2 done rest := by
  unfold codeStep
  by_cases slash : c = '/'
  · subst slash
    rw [if_pos rfl]
    exact ⟨_, _, advances_grow ['/'] rfl ⟨[], rfl, .none, rfl⟩⟩
  · rw [if_neg slash]
    by_cases quote : CharClass.isQuote c = true
    · rw [if_pos quote]
      exact ⟨_, _, advances_copy c rfl rfl rfl⟩
    · rw [if_neg quote]
      exact ⟨_, _, advances_copy c rfl rfl rfl⟩

-- A slash that begins no comment is a piece of its own; the splices after it are a gap.
theorem advances_slash (start : Nat) (c : Char) (holds : (Mode.slash start).Holds offset held) :
    ∃ done rest, Advances (.slash start) offset held [c]
      (.copied '/' start :: (codeStep offset c).1) (codeStep offset c).2 done rest := by
  obtain ⟨gap, heldSame, splices, reached⟩ := holds
  obtain ⟨done, rest, code⟩ := advances_code offset c
  have reachedGap : start + Text.byteLength ['/'] + gap.byteLength = offset := by
    rw [heldSame] at reached
    simpa [Nat.add_assoc] using reached
  refine ⟨held ++ done, rest, ⟨?_, ?_, code.holds, ?_⟩⟩
  · rw [List.append_assoc, ← code.same]
    rfl
  · rw [code.anchored, Text.byteLength_append, ← Nat.add_assoc]
    exact congrArg (· + done.byteLength) reached.symm
  · intro text spans covers
    have inner : Covers offset (done ++ text) ((codeStep offset c).1.map Piece.origin ++ spans) := by
      apply code.covers
      rw [Text.byteLength_append, ← Nat.add_assoc] at covers
      exact reached ▸ covers
    have between := covers_splices (start + Text.byteLength ['/']) gap _ _ splices
      (by rwa [reachedGap])
    have whole : held ++ done ++ text = ['/'] ++ (gap ++ (done ++ text)) := by
      simp [heldSame, List.append_assoc]
    rw [whole]
    exact covers_own start ['/'] _ _ (List.cons_ne_nil _ _) between

theorem covers_comment (start : Nat) (filled : held ≠ []) (reached : start + held.byteLength = offset)
    (text : Text) (spans : List Span) (covers : Covers offset text spans) :
    Covers start (held ++ text) ((Piece.comment start offset).origin :: spans) := by
  have own := covers_own start held text spans filled (by rwa [reached])
  rwa [reached] at own

theorem held_append (start : Nat) (read : Text)
    (sofar : held ≠ [] ∧ start + held.byteLength = offset) :
    held ++ read ≠ [] ∧
      start + Text.byteLength (held ++ read) = offset + Text.byteLength read := by
  refine ⟨by simp [sofar.1], ?_⟩
  rw [Text.byteLength_append, ← Nat.add_assoc, sofar.2]

theorem advances_step (mode : Mode) (lineEnd : Bool) (c : Char) (holds : mode.Holds offset held) :
    ∃ done rest, Advances mode offset held [c] (mode.step lineEnd offset c).1
      (mode.step lineEnd offset c).2 done rest := by
  have width : Text.byteLength [c] = c.utf8Size := by simp
  cases mode with
  | code =>
      subst holds
      exact advances_code offset c
  | literal quote escaped =>
      subst holds
      dsimp only [step]
      split
      · exact ⟨_, _, advances_copy c rfl rfl rfl⟩
      · split
        · exact ⟨_, _, advances_copy c rfl rfl rfl⟩
        · split
          · exact ⟨_, _, advances_copy c rfl rfl rfl⟩
          · exact ⟨_, _, advances_copy c rfl rfl rfl⟩
  | slash start =>
      obtain ⟨gap, heldSame, splices, reached⟩ := holds
      have sofar : held ≠ [] ∧ start + held.byteLength = offset := ⟨by simp [heldSame], reached⟩
      dsimp only [step]
      by_cases line : c = '/'
      · rw [if_pos line]
        exact ⟨_, _, advances_grow [c] rfl (held_append start [c] sofar)⟩
      · rw [if_neg line]
        by_cases block : c = '*'
        · rw [if_pos block]
          exact ⟨_, _, advances_grow [c] rfl (held_append start [c] sofar)⟩
        · rw [if_neg block]
          exact advances_slash start c ⟨gap, heldSame, splices, reached⟩
  | lineComment start =>
      dsimp only [step]
      by_cases ends : lineEnd = true
      · rw [if_pos ends]
        refine ⟨held ++ [c], [], ⟨by simp, ?_, rfl, ?_⟩⟩
        · rw [Text.byteLength_append, ← Nat.add_assoc]
          exact congrArg (· + Text.byteLength [c]) holds.2.symm
        · intro text spans covers
          rw [List.append_assoc]
          apply covers_comment start holds.1 holds.2
          have own := covers_own offset [c] text spans (List.cons_ne_nil c [])
            (by rwa [Text.byteLength_append, ← Nat.add_assoc, anchor, holds.2] at covers)
          rwa [width] at own
      · rw [if_neg ends]
        exact ⟨_, _, advances_grow [c] rfl (held_append start [c] holds)⟩
  | blockComment start =>
      dsimp only [step, blockStep]
      split
      · exact ⟨_, _, advances_grow [c] rfl (held_append start [c] holds)⟩
      · exact ⟨_, _, advances_grow [c] rfl (held_append start [c] holds)⟩
  | blockStar start =>
      dsimp only [step, blockStep]
      by_cases closes : c = '/'
      · subst closes
        rw [if_pos rfl]
        have more := held_append start ['/'] holds
        refine ⟨held ++ ['/'], [], ⟨by simp, ?_, rfl, ?_⟩⟩
        · exact more.2.symm
        · intro text spans covers
          apply covers_comment start more.1 more.2
          rwa [anchor, more.2] at covers
      · rw [if_neg closes]
        split
        · exact ⟨_, _, advances_grow [c] rfl (held_append start [c] holds)⟩
        · exact ⟨_, _, advances_grow [c] rfl (held_append start [c] holds)⟩

theorem advances_splice (mode : Mode) (splice : Text) (holds : mode.Holds offset held)
    (splices : Splices splice) : ∃ done rest, Advances mode offset held splice [] mode done rest := by
  cases mode with
  | code =>
      subst holds
      exact ⟨splice, [], by simp, rfl, rfl, fun text spans => covers_splices offset splice text spans splices⟩
  | literal quote escaped =>
      subst holds
      exact ⟨splice, [], by simp, rfl, rfl, fun text spans => covers_splices offset splice text spans splices⟩
  | slash start =>
      obtain ⟨gap, heldSame, gapSplices, reached⟩ := holds
      have more := held_append start splice ⟨by simp [heldSame], reached⟩
      exact ⟨_, _, advances_grow splice rfl
        ⟨gap ++ splice, by rw [heldSame]; rfl, gapSplices.append splices, more.2⟩⟩
  | lineComment start => exact ⟨_, _, advances_grow splice rfl (held_append start splice holds)⟩
  | blockComment start => exact ⟨_, _, advances_grow splice rfl (held_append start splice holds)⟩
  | blockStar start => exact ⟨_, _, advances_grow splice rfl (held_append start splice holds)⟩

end Mode

namespace Normalized

def Accounts (mode : Mode) (offset : Nat) (held text : Text) (normalized : Normalized) : Prop :=
  ∃ kept rest, held ++ text = kept ++ rest ∧
    Covers (mode.anchor offset) kept (normalized.pieces.map Piece.origin) ∧
    mode.anchor offset + kept.byteLength =
      normalized.openComment.getD (offset + text.byteLength)

theorem finish_accounts (mode : Mode) (offset : Nat) (held : Text) (holds : mode.Holds offset held) :
    Accounts mode offset held [] (mode.finish offset) := by
  cases mode with
  | code =>
      subst holds
      exact ⟨[], [], rfl, .none, rfl⟩
  | literal quote escaped =>
      subst holds
      exact ⟨[], [], rfl, .none, rfl⟩
  | slash start =>
      obtain ⟨gap, heldSame, splices, reached⟩ := holds
      refine ⟨held, [], rfl, ?_, reached⟩
      rw [heldSame]
      exact covers_own start ['/'] gap [] (List.cons_ne_nil _ _) splices
  | lineComment start =>
      refine ⟨held, [], rfl, ?_, holds.2⟩
      have own := Mode.covers_comment start holds.1 holds.2 [] [] .none
      rwa [List.append_nil] at own
  | blockComment start => exact ⟨[], held, by simp, .none, rfl⟩
  | blockStar start => exact ⟨[], held, by simp, .none, rfl⟩

theorem accounts_advance (mode next : Mode) (offset : Nat) (held read done rest text : Text)
    (pieces : List Piece) (normalized : Normalized)
    (advances : mode.Advances offset held read pieces next done rest)
    (later : Accounts next (offset + read.byteLength) rest text normalized) :
    Accounts mode offset held (read ++ text) (normalized.prepend pieces) := by
  obtain ⟨kept, unread, same, covers, reached⟩ := later
  rw [advances.anchored] at covers reached
  refine ⟨done ++ kept, unread, ?_, ?_, ?_⟩
  · rw [← List.append_assoc, advances.same, List.append_assoc, same, List.append_assoc]
  · have whole := advances.covers kept _ covers
    rwa [← List.map_append] at whole
  · rw [Text.byteLength_append, ← Nat.add_assoc, reached, Text.byteLength_append, ← Nat.add_assoc]
    rfl

theorem scan_accounts (mode : Mode) (offset : Nat) (held text : Text)
    (holds : mode.Holds offset held) : Accounts mode offset held text (scan mode offset text) := by
  induction text using Text.splice_induction generalizing mode offset held with
  | nil => exact finish_accounts mode offset held holds
  | splice splice rest single ih =>
      obtain ⟨done, left, advances⟩ := Mode.advances_splice mode splice holds single.splices
      rw [scan_splice mode offset splice rest single]
      exact accounts_advance mode mode offset held splice done left rest [] _ advances
        (ih mode _ left advances.holds)
  | char c rest kept ih =>
      obtain ⟨done, left, advances⟩ := Mode.advances_step mode (Text.atLineEnd (c :: rest)) c holds
      have width : Text.byteLength [c] = c.utf8Size := by simp
      have later := ih _ _ left advances.holds
      rw [width] at later
      rw [scan_char mode offset c rest kept]
      exact accounts_advance mode _ offset held [c] done left rest _ _ advances (by rwa [width])

theorem ofText_covers (text : Text) :
    ∃ kept rest, text = kept ++ rest ∧
      Covers 0 kept ((ofText text).pieces.map Piece.origin) ∧
      kept.byteLength = (ofText text).openComment.getD text.byteLength := by
  obtain ⟨kept, rest, same, covers, reached⟩ := scan_accounts .code 0 [] text rfl
  refine ⟨kept, rest, same, covers, ?_⟩
  simpa [Mode.anchor, ofText] using reached

end Normalized

end CPreprocessor
