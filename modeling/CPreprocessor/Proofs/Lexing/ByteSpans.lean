import CPreprocessor.Lexing.OffsetMap

/-!
The offset map against the plain list that it compresses: one span of the original text for each
byte of the normalized text, in order. Looking a byte up in the segments gives its span.
-/

set_option autoImplicit false

namespace CPreprocessor

namespace Piece

def byteSpans : Piece → List Span
  | .copied char offset => (List.range char.utf8Size).map fun i => ⟨offset + i, offset + i + 1⟩
  | .comment start stop => [⟨start, stop⟩]

@[simp] theorem byteSpans_length (piece : Piece) : piece.byteSpans.length = piece.char.utf8Size := by
  cases piece with
  | copied char offset => simp [byteSpans, Piece.char]
  | comment start stop => rfl

end Piece

namespace OffsetMap

-- The segments know every byte of the list, and nothing lies past its end.
structure Records (map : OffsetMap) (spans : List Span) : Prop where
  before : ∀ segment ∈ map.segments, segment.norm < spans.length
  found : ∀ position span, spans[position]? = some span →
    ∃ segment, map.segment? position = some segment ∧
      segment.startOf position = span.start ∧ segment.endOf position = span.stop

theorem records_empty : Records empty [] := by
  refine ⟨?_, ?_⟩
  · intro segment member
    cases member
  · intro position span found
    cases found

theorem segment_push (map : OffsetMap) (segment : Segment) (position : Nat) :
    (map.push segment).segment? position =
      if segment.norm ≤ position then some segment else map.segment? position := by
  unfold push segment?
  rw [List.find?_cons]
  by_cases reached : segment.norm ≤ position
  · simp [reached]
  · simp [reached]

theorem records_push (map : OffsetMap) (spans more : List Span) (segment : Segment)
    (records : Records map spans) (begins : segment.norm = spans.length) (filled : more ≠ [])
    (own : ∀ index span, more[index]? = some span →
      segment.startOf (spans.length + index) = span.start ∧
        segment.endOf (spans.length + index) = span.stop) :
    Records (map.push segment) (spans ++ more) := by
  have longer := List.length_pos_iff.mpr filled
  refine ⟨?_, ?_⟩
  · intro other member
    rw [List.length_append]
    rcases List.mem_cons.mp member with same | old
    · subst same
      omega
    · have bound := records.before other old
      omega
  · intro position span found
    rw [segment_push]
    by_cases reached : segment.norm ≤ position
    · rw [begins] at reached
      rw [List.getElem?_append_right reached] at found
      have here := own _ span found
      rw [Nat.add_sub_cancel' reached] at here
      exact ⟨segment, if_pos (begins ▸ reached), here⟩
    · rw [begins] at reached
      rw [List.getElem?_append_left (Nat.lt_of_not_le reached)] at found
      rw [if_neg (begins ▸ reached)]
      exact records.found position span found

theorem byteSpans_copied (char : Char) (offset index : Nat) (span : Span)
    (found : (Piece.copied char offset).byteSpans[index]? = some span) :
    span = ⟨offset + index, offset + index + 1⟩ := by
  simp only [Piece.byteSpans, List.getElem?_map, Option.map_eq_some_iff] at found
  obtain ⟨i, at_, same⟩ := found
  have bound : i = index := by
    rw [List.getElem?_eq_some_iff] at at_
    obtain ⟨_, value⟩ := at_
    simpa using value.symm
  rw [← same, bound]

-- The last segment goes on: it already gives the right answer for the bytes that are added.
theorem records_extend (map : OffsetMap) (spans : List Span) (char : Char) (offset : Nat)
    (records : Records map spans)
    (goesOn : map.segments.head?.any (Segment.extendsTo spans.length offset) = true) :
    Records map (spans ++ (Piece.copied char offset).byteSpans) := by
  obtain ⟨segments⟩ := map
  cases segments with
  | nil => simp at goesOn
  | cons last earlier =>
      cases last with
      | comment norm start stop => simp [Segment.extendsTo] at goesOn
      | verbatim norm orig =>
          have meets : orig + (spans.length - norm) = offset := by
            simpa [Segment.extendsTo] using goesOn
          have bound : norm < spans.length := records.before _ List.mem_cons_self
          refine ⟨?_, ?_⟩
          · intro segment member
            have old := records.before segment member
            rw [List.length_append]
            omega
          · intro position span found
            by_cases reached : spans.length ≤ position
            · rw [List.getElem?_append_right reached] at found
              have value := byteSpans_copied char offset _ span found
              have covers : norm ≤ position := by omega
              refine ⟨.verbatim norm orig, ?_, ?_, ?_⟩
              · simp [segment?, Segment.norm, covers]
              · rw [value]
                simp only [Segment.startOf]
                omega
              · rw [value]
                simp only [Segment.endOf]
                omega
            · rw [List.getElem?_append_left (Nat.lt_of_not_le reached)] at found
              exact records.found position span found

theorem records_add (map : OffsetMap) (spans : List Span) (piece : Piece)
    (records : Records map spans) :
    Records (map.add spans.length piece) (spans ++ piece.byteSpans) := by
  cases piece with
  | comment start stop =>
      apply records_push map spans _ _ records rfl (List.cons_ne_nil _ _)
      intro index span found
      cases index with
      | zero => cases found; exact ⟨rfl, rfl⟩
      | succ index => simp at found
  | copied char offset =>
      rw [add, copied]
      by_cases goesOn : map.segments.head?.any (Segment.extendsTo spans.length offset) = true
      · rw [if_pos goesOn]
        exact records_extend map spans char offset records goesOn
      · rw [if_neg goesOn]
        apply records_push map spans _ _ records rfl
        · have wide := Char.utf8Size_pos char
          rw [← List.length_pos_iff, Piece.byteSpans_length]
          exact wide
        · intro index span found
          rw [byteSpans_copied char offset index span found]
          simp only [Segment.startOf, Segment.endOf, Nat.add_sub_cancel_left, and_self]

theorem records_addAll (map : OffsetMap) (spans : List Span) (pieces : List Piece)
    (records : Records map spans) :
    Records (map.addAll spans.length pieces) (spans ++ pieces.flatMap Piece.byteSpans) := by
  induction pieces generalizing map spans with
  | nil => simpa [addAll] using records
  | cons piece pieces ih =>
      have step := ih _ _ (records_add map spans piece records)
      rw [List.length_append, Piece.byteSpans_length] at step
      rw [addAll, List.flatMap_cons, ← List.append_assoc]
      exact step

theorem records_ofPieces (pieces : List Piece) :
    Records (ofPieces pieces) (pieces.flatMap Piece.byteSpans) :=
  records_addAll empty [] pieces records_empty

theorem startOf_of_records (map : OffsetMap) (spans : List Span) (records : Records map spans)
    (position : Nat) (span : Span) (found : spans[position]? = some span) :
    map.startOf position = span.start := by
  obtain ⟨segment, looked, start, _⟩ := records.found position span found
  rw [startOf, looked]
  exact start

theorem endOf_of_records (map : OffsetMap) (spans : List Span) (records : Records map spans)
    (position : Nat) (span : Span) (found : spans[position]? = some span) :
    map.endOf position = span.stop := by
  obtain ⟨segment, looked, _, stop⟩ := records.found position span found
  rw [endOf, looked]
  exact stop

end OffsetMap

end CPreprocessor
