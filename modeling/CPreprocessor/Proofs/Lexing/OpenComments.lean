import CPreprocessor.Proofs.Lexing.InPlace.Normalizer
import CPreprocessor.Proofs.Lexing.Unclosed

/-!
A block comment that never closes takes away nothing before it. What is read up to its slash does not
depend on the slash or on anything after it, so the tokens are those of the text that ends there. A
text without such a comment is read to its end.
-/

set_option autoImplicit false

namespace CPreprocessor

theorem Token.place_offsets (left right : Source) (position : Nat) (lexemes : List Lexeme)
    (same : right.offsets = left.offsets) :
    place right position lexemes = (place left position lexemes).map (moved right 0 0) := by
  induction lexemes generalizing position with
  | nil => rfl
  | cons lexeme lexemes ih =>
      rw [place, place, List.map_cons, ih, same]
      rfl

theorem InPlace.Draft.run_ended (draft last : Draft) (ran : draft.run? = some (last, none)) :
    last.cursor.atEnd = true := by
  fun_induction run? draft with
  | case1 draft ends =>
      cases ran
      rw [Cursor.current?, Cursor.peek?, ← List.head?_eq_getElem?, List.head?_eq_none_iff] at ends
      exact List.isEmpty_iff.mpr ends
  | case2 draft byte here lost => cases ran
  | case3 draft byte here next start turned => cases ran
  | case4 draft byte here next turned ih => exact ih ran

theorem Token.location_of_reading (left right : Token) (same : left.reading = right.reading)
    (files : left.file = right.file) : left.location = right.location := by
  have line : left.location.line = right.location.line := congrArg Reading.line same
  have column : left.location.column = right.location.column := congrArg Reading.column same
  calc left.location
    _ = ⟨left.file, left.location.line, left.location.column⟩ := rfl
    _ = ⟨right.file, right.location.line, right.location.column⟩ := by rw [files, line, column]
    _ = right.location := rfl

namespace Lexed

variable (serial other : Nat) (name : Text)

theorem tokens_before (start : Nat) (text before rest : Text)
    (opens : Normalized.OpensAt .code 0 start text before rest) :
    (ofText serial name text).tokens =
      (ofText other name before).tokens.map
        (Token.moved (ofText serial name text).source 0 0) := by
  have pieces : (Normalized.ofText before).pieces = (Normalized.ofText text).pieces := by
    rw [Normalized.ofText, opens.same]
    rfl
  have offsets : (ofText serial name text).source.offsets = (ofText other name before).source.offsets :=
    congrArg OffsetMap.ofPieces pieces.symm
  have normalized : (Normalized.ofText before).text = (Normalized.ofText text).text :=
    congrArg (List.map Piece.char) pieces
  calc (ofText serial name text).tokens
    _ = Token.place (ofText serial name text).source 0
          (Lexeme.scan (Normalized.ofText before).text) := by
        rw [normalized]
        rfl
    _ = _ := Token.place_offsets _ _ 0 _ offsets

theorem readings_before (start : Nat) (text before rest : Text)
    (opens : Normalized.OpensAt .code 0 start text before rest) :
    (ofText serial name text).tokens.map Token.reading =
        (ofText other name before).tokens.map Token.reading ∧
      (ofText serial name text).tokens.map Token.location =
        (ofText other name before).tokens.map Token.location := by
  have readings : ∀ token ∈ (ofText other name before).tokens,
      (token.moved (ofText serial name text).source 0 0).reading = token.reading := by
    intro token member
    have front := reading_front serial other name name before ('/' :: rest) token member
    rwa [← opens.whole] at front
  have locations : ∀ token ∈ (ofText other name before).tokens,
      (token.moved (ofText serial name text).source 0 0).location = token.location := by
    intro token member
    refine Token.location_of_reading _ _ (readings token member) ?_
    rw [Token.file, Token.file, Token.place_source _ _ _ token member]
    rfl
  rw [tokens_before serial other name start text before rest opens, List.map_map, List.map_map]
  exact ⟨List.map_congr_left readings, List.map_congr_left locations⟩

theorem open_comment_loses_nothing (text : Text) :
    (∀ start, (ofText serial name text).openComment = some start →
      ∃ before gap body, text = before ++ '/' :: (gap ++ '*' :: body) ∧ before.byteLength = start ∧
        Splices gap ∧ ¬ Text.ClosesComment body ∧
        (ofText other name before).openComment = none ∧
        (ofText serial name text).tokens.map Token.reading =
          (ofText other name before).tokens.map Token.reading ∧
        (ofText serial name text).tokens.map Token.location =
          (ofText other name before).tokens.map Token.location ∧
        Token.Tile 0 before (ofText serial name text).tokens) ∧
    ((ofText serial name text).openComment = none →
      (∃ last, (InPlace.Draft.start text).run? = some (last, none) ∧ last.cursor.atEnd = true) ∧
      Covers 0 text ((Normalized.ofText text).pieces.map Piece.origin)) := by
  refine ⟨fun start unclosed => ?_, fun closed => ⟨?_, ?_⟩⟩
  · obtain ⟨before, rest, opens⟩ := Normalized.ofText_opened text start unclosed
    obtain ⟨_, gap, body, same, splices, runsOn⟩ := opens.opened
    obtain ⟨readings, locations⟩ := readings_before serial other name start text before rest opens
    have place : before.byteLength = start := by rw [← opens.place, Nat.zero_add]
    refine ⟨before, gap, body, ?_, place, splices, runsOn, congrArg Normalized.openComment opens.same,
      readings, locations, ?_⟩
    · rw [opens.whole, same]
    · obtain ⟨kept, later, whole, reached, tile⟩ := ofText_tile serial name text
      rw [limit, unclosed, Option.getD_some, ← place] at reached
      rwa [Text.front_unique (whole.symm.trans opens.whole) reached] at tile
  · obtain ⟨last, ran, _⟩ := InPlace.Draft.run_toward (InPlace.Draft.toward_start text)
    rw [show (Normalized.ofText text).openComment = none from closed] at ran
    exact ⟨last, ran, InPlace.Draft.run_ended _ last ran⟩
  · obtain ⟨kept, rest, whole, covers, reached⟩ := Normalized.ofText_covers text
    rw [show (Normalized.ofText text).openComment = none from closed, Option.getD_none, whole,
      Text.byteLength_append] at reached
    obtain rfl : rest = [] := by
      by_contra filled
      have wide := Text.byteLength_pos rest filled
      omega
    rw [List.append_nil] at whole
    exact whole ▸ covers

-- The slash and the star of the comment are spliced, so are a star and a slash before it, and the
-- carriage return before it is no line end.
theorem open_comment_loses_nothing_sample :
    let text := "a/*é*\\\n/'/*'\\\r/\\\n*/\\*".toList
    let before := "a/*é*\\\n/'/*'\\\r".toList
    (ofText 1 [] text).openComment = some 15 ∧ (ofText 2 [] before).openComment = none ∧
      (ofText 1 [] text).tokens.map Token.reading =
        (ofText 2 [] before).tokens.map Token.reading ∧
      (ofText 1 [] text).tokens.map Token.text =
        ["a", " ", "'/*'", "\\", "\r"].map String.toList := by
  intro text before
  have unclosed : (ofText 1 [] text).openComment = some 15 := by decide +kernel
  obtain ⟨own, gap, body, whole, length, _, _, closed, tokens, _⟩ :=
    (open_comment_loses_nothing 1 2 [] text).1 15 unclosed
  have same : own = before :=
    Text.front_unique (whole.symm.trans (show text = before ++ "/\\\n*/\\*".toList by decide +kernel))
      (length.trans (by decide +kernel))
  rw [same] at closed tokens
  exact ⟨unclosed, closed, tokens, by decide +kernel⟩

end Lexed

end CPreprocessor
