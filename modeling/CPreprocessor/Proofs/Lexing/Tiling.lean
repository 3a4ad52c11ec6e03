import CPreprocessor.Lexing.Token
import CPreprocessor.Proofs.Lexing.ByteSpans
import CPreprocessor.Proofs.Lexing.Coverage
import CPreprocessor.Proofs.Lexing.Unclosed

/-!
Tokens account for the text that was lexed: what each of them stands for lies at its span in the
original text, and between these parts there are line splices and nothing else.
-/

set_option autoImplicit false

namespace CPreprocessor

namespace Lexeme

@[simp] theorem scan_append (text : Text) : (scan text).flatMap Lexeme.text = text := by
  fun_induction scan text with
  | case1 => rfl
  | case2 c rest ih => rw [List.flatMap_cons, ih, first_append]

theorem scan_filled (text : Text) : ∀ lexeme ∈ scan text, lexeme.text ≠ [] := by
  fun_induction scan text with
  | case1 =>
      intro lexeme member
      cases member
  | case2 c rest ih =>
      intro lexeme member
      rcases List.mem_cons.mp member with same | later
      · rw [same]
        exact first_text_ne_nil c rest
      · exact ih lexeme later

end Lexeme

def Span.hull (first : Span) : List Span → Span
  | [] => first
  | next :: later => hull ⟨first.start, next.stop⟩ later

@[simp] theorem Span.hull_concat (first : Span) (middle : List Span) (last : Span) :
    first.hull (middle ++ [last]) = ⟨first.start, last.stop⟩ := by
  induction middle generalizing first with
  | nil => rfl
  | cons next middle ih => exact ih ⟨first.start, next.stop⟩

theorem covers_hull (position : Nat) (text : Text) (first : Span) (group later : List Span)
    (covers : Covers position text (first :: (group ++ later))) :
    Covers position text (first.hull group :: later) := by
  induction group generalizing first with
  | nil => exact covers
  | cons next group ih => exact ih _ (covers_merge position text first next _ covers)

namespace OffsetMap

variable (map : OffsetMap) (before after : List Span) (piece : Piece)

theorem startOf_piece (records : Records map (before ++ (piece.byteSpans ++ after))) :
    map.startOf before.length = piece.origin.start := by
  have first : ∃ span, piece.byteSpans[0]? = some span ∧ span.start = piece.origin.start := by
    cases piece with
    | comment start stop => exact ⟨⟨start, stop⟩, rfl, rfl⟩
    | copied char offset =>
        have wide := Char.utf8Size_pos char
        exact ⟨⟨offset, offset + 1⟩, by simp [Piece.byteSpans, wide], rfl⟩
  obtain ⟨span, found, start⟩ := first
  have bound := (List.getElem?_eq_some_iff.mp found).1
  rw [← start]
  apply startOf_of_records map _ records
  rw [List.getElem?_append_right (Nat.le_refl _), Nat.sub_self, List.getElem?_append_left bound]
  exact found

theorem endOf_piece (records : Records map (before ++ (piece.byteSpans ++ after))) :
    map.endOf (before.length + piece.char.utf8Size - 1) = piece.origin.stop := by
  have wide := Char.utf8Size_pos piece.char
  have last : ∃ span, piece.byteSpans[piece.char.utf8Size - 1]? = some span ∧
      span.stop = piece.origin.stop := by
    cases piece with
    | comment start stop => exact ⟨⟨start, stop⟩, rfl, rfl⟩
    | copied char offset =>
        refine ⟨⟨offset + (char.utf8Size - 1), offset + (char.utf8Size - 1) + 1⟩, ?_, ?_⟩
        · have within : char.utf8Size - 1 < char.utf8Size := Nat.sub_one_lt_of_lt wide
          simp [Piece.byteSpans, Piece.char, within]
        · change offset + (char.utf8Size - 1) + 1 = offset + char.utf8Size
          have positive : 0 < char.utf8Size := wide
          omega
  obtain ⟨span, found, stop⟩ := last
  have bound := (List.getElem?_eq_some_iff.mp found).1
  have index : before.length + piece.char.utf8Size - 1 - before.length = piece.char.utf8Size - 1 := by
    omega
  rw [← stop]
  apply endOf_of_records map _ records
  rw [List.getElem?_append_right (by omega), index, List.getElem?_append_left bound]
  exact found

end OffsetMap

@[simp] theorem Piece.byteSpans_flatMap_length (pieces : List Piece) :
    (pieces.flatMap Piece.byteSpans).length = Text.byteLength (pieces.map Piece.char) := by
  induction pieces with
  | nil => rfl
  | cons piece pieces ih =>
      rw [List.flatMap_cons, List.length_append, ih, Piece.byteSpans_length]
      simp

theorem OffsetMap.origin_group (map : OffsetMap) (before after : List Piece) (first : Piece)
    (more : List Piece)
    (records : Records map ((before ++ (first :: more ++ after)).flatMap Piece.byteSpans)) :
    map.origin ⟨Text.byteLength (before.map Piece.char),
        Text.byteLength (before.map Piece.char) + Text.byteLength ((first :: more).map Piece.char)⟩ =
      first.origin.hull (more.map Piece.origin) := by
  have wide := Char.utf8Size_pos first.char
  have filled : Text.byteLength (before.map Piece.char) ≠
      Text.byteLength (before.map Piece.char) + Text.byteLength ((first :: more).map Piece.char) := by
    rw [List.map_cons, Text.byteLength_cons]
    omega
  have start : map.startOf (Text.byteLength (before.map Piece.char)) = first.origin.start := by
    rw [← Piece.byteSpans_flatMap_length]
    apply startOf_piece map _ ((more ++ after).flatMap Piece.byteSpans) first
    simpa [List.flatMap_append, List.append_assoc] using records
  rw [origin, Span.isEmpty, if_neg (by simpa using filled), start]
  rcases List.eq_nil_or_concat more with none | ⟨middle, last, same⟩
  · subst none
    have stop := endOf_piece map _ (after.flatMap Piece.byteSpans) first
      (by simpa [List.flatMap_append] using records)
    rw [Piece.byteSpans_flatMap_length] at stop
    simp [Span.hull, stop]
  · subst same
    have stop := endOf_piece map ((before ++ (first :: middle)).flatMap Piece.byteSpans)
      (after.flatMap Piece.byteSpans) last
      (by simpa [List.flatMap_append, List.append_assoc] using records)
    rw [Piece.byteSpans_flatMap_length] at stop
    have index : Text.byteLength (before.map Piece.char) +
          Text.byteLength ((first :: (middle ++ [last])).map Piece.char) - 1 =
        Text.byteLength ((before ++ (first :: middle)).map Piece.char) + last.char.utf8Size - 1 := by
      simp [Nat.add_assoc]
    rw [List.concat_eq_append, List.map_append, List.map_singleton, Span.hull_concat, index, stop]

namespace Token

-- The pieces fall into runs, one for each lexeme; a token's origin is the hull of its run.
theorem place_covers (source : Source) (lexemes : List Lexeme) (before pieces : List Piece)
    (records : source.offsets.Records ((before ++ pieces).flatMap Piece.byteSpans))
    (texts : lexemes.flatMap Lexeme.text = pieces.map Piece.char)
    (filled : ∀ lexeme ∈ lexemes, lexeme.text ≠ []) (position : Nat) (text : Text)
    (covers : Covers position text (pieces.map Piece.origin)) :
    Covers position text
      ((place source (Text.byteLength (before.map Piece.char)) lexemes).map Token.origin) := by
  induction lexemes generalizing before pieces position text with
  | nil =>
      have none : pieces = [] := List.map_eq_nil_iff.mp texts.symm
      rwa [none] at covers
  | cons lexeme lexemes ih =>
      rw [List.flatMap_cons] at texts
      obtain ⟨group, later, piecesSame, own, rest⟩ := List.map_eq_append_iff.mp texts.symm
      subst piecesSame
      cases group with
      | nil => exact absurd own.symm (filled lexeme List.mem_cons_self)
      | cons first more =>
          have spans : (first :: more ++ later).map Piece.origin =
              first.origin :: (more.map Piece.origin ++ later.map Piece.origin) := by simp
          rw [spans] at covers
          obtain ⟨gap, part, tail, textSame, splices, partFilled, at_, after⟩ :=
            covers_hull position text _ _ _ covers
          have origin := source.offsets.origin_group before later first more records
          have next := ih (before ++ (first :: more)) later (by simpa using records) rest.symm
            (fun other member => filled other (List.mem_cons_of_mem _ member)) _ tail after
          rw [List.map_append, Text.byteLength_append, own] at next
          rw [own] at origin
          refine ⟨gap, part, tail, textSame, splices, partFilled, ?_, ?_⟩
          · rw [origin, at_]
          · rw [origin]
            exact next

theorem place_source (source : Source) (position : Nat) (lexemes : List Lexeme) :
    ∀ token ∈ place source position lexemes, token.source = source := by
  induction lexemes generalizing position with
  | nil =>
      intro token member
      cases member
  | cons lexeme lexemes ih =>
      intro token member
      rcases List.mem_cons.mp member with same | later
      · rw [same]
      · exact ih _ token later

-- The tokens' own texts lie in a text that begins at `position`, at the tokens' spans, with splices
-- before, between and after them.
def Tile : Nat → Text → List Token → Prop
  | _, text, [] => Splices text
  | position, text, token :: later =>
      ∃ gap rest, text = gap ++ (token.originText ++ rest) ∧ Splices gap ∧ token.originText ≠ [] ∧
        token.origin = ⟨position + gap.byteLength,
          position + gap.byteLength + token.originText.byteLength⟩ ∧
        Tile token.origin.stop rest later

theorem tile_of_covers (content before text after : Text) (tokens : List Token)
    (whole : content = before ++ (text ++ after))
    (sources : ∀ token ∈ tokens, token.source.file.content = content)
    (covers : Covers before.byteLength text (tokens.map Token.origin)) :
    Tile before.byteLength text tokens := by
  induction tokens generalizing before text with
  | nil => exact covers
  | cons token tokens ih =>
      obtain ⟨gap, own, rest, textSame, splices, filled, at_, tail⟩ := covers
      have ownText : token.originText = own := by
        have slice := Text.slice_append (before ++ gap) own (rest ++ after)
        have split : content = before ++ gap ++ (own ++ (rest ++ after)) := by
          simp [whole, textSame, List.append_assoc]
        rw [Text.byteLength_append, ← split] at slice
        rw [originText, sources token List.mem_cons_self, at_, slice]
        rfl
      have stop : token.origin.stop = Text.byteLength (before ++ (gap ++ own)) := by
        rw [at_]
        simp [Nat.add_assoc]
      refine ⟨gap, rest, by rw [ownText, textSame], splices, by rwa [ownText],
        by rw [ownText, at_], ?_⟩
      rw [stop] at tail ⊢
      apply ih _ _ _ (fun other member => sources other (List.mem_cons_of_mem _ member)) tail
      rw [whole, textSame]
      simp [List.append_assoc]

theorem tile_bounds (position : Nat) (text : Text) (tokens : List Token)
    (tile : Tile position text tokens) : ∀ token ∈ tokens,
      position ≤ token.origin.start ∧ token.origin.start < token.origin.stop ∧
        token.origin.stop ≤ position + text.byteLength := by
  induction tokens generalizing position text with
  | nil =>
      intro token member
      cases member
  | cons head tokens ih =>
      obtain ⟨gap, rest, textSame, _, filled, at_, tail⟩ := tile
      have wide := Text.byteLength_pos _ filled
      intro token member
      rcases List.mem_cons.mp member with same | later
      · rw [same, at_, textSame]
        simp only [Text.byteLength_append]
        omega
      · have bounds := ih _ _ tail token later
        simp only [at_] at bounds
        rw [textSame]
        simp only [Text.byteLength_append]
        omega

theorem tile_ordered (position : Nat) (text : Text) (tokens : List Token)
    (tile : Tile position text tokens) :
    tokens.Pairwise fun first second => first.origin.stop ≤ second.origin.start := by
  induction tokens generalizing position text with
  | nil => exact List.Pairwise.nil
  | cons head tokens ih =>
      obtain ⟨gap, rest, _, _, _, _, tail⟩ := tile
      refine List.pairwise_cons.mpr ⟨?_, ih _ _ tail⟩
      intro token member
      exact (tile_bounds _ rest tokens tail token member).1

end Token

@[simp] theorem OffsetMap.origin_start (map : OffsetMap) (span : Span) :
    (map.origin span).start = map.startOf span.start := by
  rw [origin]
  split <;> rfl

theorem Token.place_origin (source : Source) (position : Nat) (lexemes : List Lexeme) :
    ∀ token ∈ place source position lexemes, token.origin = source.offsets.origin token.span := by
  induction lexemes generalizing position with
  | nil => simp [place]
  | cons lexeme lexemes ih => exact List.forall_mem_cons.mpr ⟨rfl, ih _⟩

namespace Lexed

-- The end of the text, or the start of a block comment that never closes.
def limit (lexed : Lexed) : Nat :=
  lexed.openComment.getD lexed.source.file.content.byteLength

theorem ofText_tile (serial : Nat) (name content : Text) :
    ∃ kept rest, content = kept ++ rest ∧
      kept.byteLength = (ofText serial name content).limit ∧
      Token.Tile 0 kept (ofText serial name content).tokens := by
  obtain ⟨kept, rest, whole, covers, reached⟩ := Normalized.ofText_covers content
  have placed := Token.place_covers (ofText serial name content).source
    (Lexeme.scan (Normalized.ofText content).text) [] (Normalized.ofText content).pieces
    (OffsetMap.records_ofPieces _) (Lexeme.scan_append _) (Lexeme.scan_filled _) 0 kept covers
  refine ⟨kept, rest, whole, reached, Token.tile_of_covers content [] kept rest _ whole ?_ placed⟩
  intro token member
  rw [Token.place_source _ _ _ token member]
  rfl

theorem ofText_token_lt (serial : Nat) (name content : Text) :
    ∀ token ∈ (ofText serial name content).tokens, token.origin.start < content.byteLength := by
  obtain ⟨kept, rest, whole, _, tile⟩ := ofText_tile serial name content
  intro token member
  have bounds := Token.tile_bounds 0 kept _ tile token member
  rw [whole, Text.byteLength_append]
  omega

theorem ofText_openComment_lt (serial : Nat) (name content : Text) (start : Nat)
    (unclosed : (ofText serial name content).openComment = some start) :
    start < content.byteLength := by
  obtain ⟨before, rest, opens⟩ := Normalized.ofText_opened content start unclosed
  have slash := Char.utf8Size_pos '/'
  have place := opens.place
  rw [opens.whole, Text.byteLength_append, Text.byteLength_cons]
  omega

theorem tokens_tile (serial : Nat) (name content : Text) :
    ∃ kept, content.slice? 0 (ofText serial name content).limit = some kept ∧
      Token.Tile 0 kept (ofText serial name content).tokens ∧
      (ofText serial name content).tokens.Pairwise
        (fun first second => first.origin.stop ≤ second.origin.start) ∧
      (∀ token ∈ (ofText serial name content).tokens, token.origin.start < token.origin.stop ∧
        token.origin.stop ≤ content.byteLength) ∧
      match (ofText serial name content).openComment with
      | none => kept = content
      | some start => kept.byteLength = start ∧ ∃ gap body,
          content = kept ++ '/' :: (gap ++ '*' :: body) ∧ Splices gap ∧
            ¬ Text.ClosesComment body := by
  obtain ⟨kept, rest, whole, reached, tile⟩ := ofText_tile serial name content
  have slice := Text.slice_append [] kept rest
  refine ⟨kept, ?_, tile, Token.tile_ordered 0 kept _ tile, ?_, ?_⟩
  · rw [List.nil_append, ← whole, Text.byteLength_nil, Nat.zero_add, reached] at slice
    exact slice
  · intro token member
    have bounds := Token.tile_bounds 0 kept _ tile token member
    refine ⟨bounds.2.1, ?_⟩
    rw [whole, Text.byteLength_append]
    omega
  · rw [limit] at reached
    cases unclosed : (ofText serial name content).openComment with
    | none =>
        rw [unclosed, Option.getD_none] at reached
        exact Text.front_unique (whole.symm.trans (List.append_nil _).symm) reached
    | some start =>
        rw [unclosed, Option.getD_some] at reached
        obtain ⟨before, later, opens⟩ := Normalized.ofText_opened content start unclosed
        obtain ⟨_, gap, body, same, splices, runsOn⟩ := opens.opened
        obtain rfl : kept = before := by
          refine Text.front_unique (whole.symm.trans opens.whole) ?_
          rw [reached, ← opens.place, Nat.zero_add]
        exact ⟨reached, gap, body, by rw [opens.whole, same], splices, runsOn⟩

end Lexed

end CPreprocessor
