import CPreprocessor.Proofs.Lexing.Partition
import CPreprocessor.Proofs.Source.Positions

/-!
Where tokens stand. Every piece of a normalized text stands in the original text where it says: a
copied character is found there, and behind a blank there is a whole comment. A token is located by
its first piece, through the segments of the offset map and the line starts, both searched by
halving.
-/

set_option autoImplicit false

namespace CPreprocessor

theorem Span.Cuts.append {span : Span} {text own : Text} (cuts : span.Cuts text own) (more : Text) :
    span.Cuts (text ++ more) own := by
  obtain ⟨before, after, rfl, same⟩ := cuts
  exact ⟨before, after ++ more, by simp, same⟩

def Text.OpensComment (marker : Char) (text : Text) : Prop :=
  ∃ gap body, Splices gap ∧ text = '/' :: (gap ++ marker :: body)

theorem Text.OpensComment.append {marker : Char} {text : Text} (opens : OpensComment marker text)
    (more : Text) : OpensComment marker (text ++ more) := by
  obtain ⟨gap, body, splices, rfl⟩ := opens
  exact ⟨gap, body ++ more, splices, by simp⟩

def Text.IsComment (text : Text) : Prop :=
  OpensComment '/' text ∨ ∃ opening gap, OpensComment '*' opening ∧ Splices gap ∧
    text = opening ++ '*' :: (gap ++ ['/'])

def Piece.StandsIn (text : Text) : Piece → Prop
  | .copied c offset => (Piece.copied c offset).origin.Cuts text [c]
  | .comment start stop => ∃ own, (Piece.comment start stop).origin.Cuts text own ∧ own.IsComment

theorem Piece.StandsIn.append {text : Text} {piece : Piece} (stands : piece.StandsIn text)
    (more : Text) : piece.StandsIn (text ++ more) := by
  cases piece with
  | copied c offset => exact Span.Cuts.append stands more
  | comment start stop =>
      obtain ⟨own, cuts, comment⟩ := stands
      exact ⟨own, cuts.append more, comment⟩

def Text.Since (start : Nat) (own read : Text) : Prop :=
  ∃ front, read = front ++ own ∧ Text.byteLength front = start

section Since

variable {start : Nat} {own read : Text} (since : Text.Since start own read)
include since

theorem Text.Since.append (more : Text) : Since start (own ++ more) (read ++ more) := by
  obtain ⟨front, rfl, reached⟩ := since
  exact ⟨front, by simp, reached⟩

theorem Text.Since.cuts : Span.Cuts ⟨start, read.byteLength⟩ read own := by
  obtain ⟨front, rfl, rfl⟩ := since
  exact ⟨front, [], by simp, by simp⟩

end Since

theorem Text.since_char (read : Text) (c : Char) : Since read.byteLength [c] (read ++ [c]) :=
  ⟨read, rfl, rfl⟩

theorem Piece.copied_stands (read : Text) (c : Char) :
    (Piece.copied c read.byteLength).StandsIn (read ++ [c]) := by
  have cuts := (Text.since_char read c).cuts
  simpa [StandsIn, origin] using cuts

namespace Mode

-- What a mode knows of the text before it: the slash that is held back, or the comment so far.
def Begun (read : Text) : Mode → Prop
  | .code => True
  | .slash start => ∃ gap, Splices gap ∧ Text.Since start ('/' :: gap) read
  | .lineComment start => ∃ own, Text.OpensComment '/' own ∧ Text.Since start own read
  | .blockComment start => ∃ own, Text.OpensComment '*' own ∧ Text.Since start own read
  | .blockStar start => ∃ own gap, Text.OpensComment '*' own ∧ Splices gap ∧
      Text.Since start (own ++ '*' :: gap) read
  | .literal _ _ => True

variable {read : Text} {start : Nat}

theorem begun_opens {gap : Text} (splices : Splices gap) (since : Text.Since start ('/' :: gap) read)
    (marker : Char) :
    ∃ own, Text.OpensComment marker own ∧ Text.Since start own (read ++ [marker]) :=
  ⟨_, ⟨gap, [], splices, rfl⟩, since.append [marker]⟩

theorem begun_codeStep (read : Text) (c : Char) :
    (∀ piece ∈ (codeStep read.byteLength c).1, piece.StandsIn (read ++ [c])) ∧
      (codeStep read.byteLength c).2.Begun (read ++ [c]) := by
  unfold codeStep
  by_cases slash : c = '/'
  · subst slash
    simpa using ⟨[], .none, Text.since_char read '/'⟩
  · by_cases quote : CharClass.isQuote c = true
    · simpa [slash, quote, Begun] using Piece.copied_stands read c
    · simpa [slash, quote, Begun] using Piece.copied_stands read c

theorem begun_blockStep {own : Text} (opens : Text.OpensComment '*' own)
    (since : Text.Since start own read) (c : Char) : (blockStep start c).Begun (read ++ [c]) := by
  unfold blockStep
  by_cases star : c = '*'
  · subst star
    exact ⟨own, [], opens, .none, since.append ['*']⟩
  · rw [if_neg star]
    exact ⟨own ++ [c], opens.append [c], since.append [c]⟩

theorem comment_stands {own : Text} (comment : own.IsComment) (since : Text.Since start own read) :
    (Piece.comment start read.byteLength).StandsIn read :=
  ⟨own, since.cuts, comment⟩

theorem begun_step (mode : Mode) (lineEnd : Bool) (c : Char) (begun : mode.Begun read) :
    (∀ piece ∈ (mode.step lineEnd read.byteLength c).1, piece.StandsIn (read ++ [c])) ∧
      (mode.step lineEnd read.byteLength c).2.Begun (read ++ [c]) := by
  cases mode with
  | code => exact begun_codeStep read c
  | literal quote escaped =>
      refine ⟨by simpa [step] using Piece.copied_stands read c, ?_⟩
      simp only [step]
      repeat' split
      all_goals trivial
  | slash start =>
      obtain ⟨gap, splices, since⟩ := begun
      by_cases line : c = '/'
      · subst line
        exact ⟨by simp [step], begun_opens splices since '/'⟩
      · by_cases block : c = '*'
        · subst block
          exact ⟨by simp [step], begun_opens splices since '*'⟩
        · obtain ⟨stand, next⟩ := begun_codeStep read c
          have slash : (Piece.copied '/' start).StandsIn (read ++ [c]) := by
            obtain ⟨front, rfl, rfl⟩ := since
            have own := (Piece.copied_stands front '/').append (gap ++ [c])
            simpa using own
          simp only [step, if_neg line, if_neg block]
          exact ⟨List.forall_mem_cons.mpr ⟨slash, stand⟩, next⟩
  | lineComment start =>
      obtain ⟨own, opens, since⟩ := begun
      cases lineEnd with
      | true =>
          have comment := (comment_stands (.inl opens) since).append [c]
          simpa [step, Begun] using ⟨comment, Piece.copied_stands read c⟩
      | false => simpa [step] using ⟨own ++ [c], opens.append [c], since.append [c]⟩
  | blockComment start =>
      obtain ⟨own, opens, since⟩ := begun
      exact ⟨by simp [step], begun_blockStep opens since c⟩
  | blockStar start =>
      obtain ⟨own, gap, opens, splices, since⟩ := begun
      by_cases closes : c = '/'
      · subst closes
        have width : Text.byteLength (read ++ ['/']) = read.byteLength + 1 := by
          rw [Text.byteLength_append]
          rfl
        have comment := comment_stands (.inr ⟨own, gap, opens, splices, by simp⟩)
          (since.append ['/'])
        rw [width] at comment
        simpa [step, Begun] using comment
      · simp only [step, if_neg closes]
        exact ⟨by simp, begun_blockStep (opens.append ('*' :: gap)) since c⟩

theorem begun_splice (mode : Mode) (splice : Text) (single : Splice splice) (begun : mode.Begun read) :
    mode.Begun (read ++ splice) := by
  cases mode with
  | code => trivial
  | literal quote escaped => trivial
  | slash start =>
      obtain ⟨gap, splices, since⟩ := begun
      exact ⟨gap ++ splice, splices.append single.splices, since.append splice⟩
  | lineComment start =>
      obtain ⟨own, opens, since⟩ := begun
      exact ⟨own ++ splice, opens.append splice, since.append splice⟩
  | blockComment start =>
      obtain ⟨own, opens, since⟩ := begun
      exact ⟨own ++ splice, opens.append splice, since.append splice⟩
  | blockStar start =>
      obtain ⟨own, gap, opens, splices, since⟩ := begun
      exact ⟨own, gap ++ splice, opens, splices.append single.splices, by
        simpa using since.append splice⟩

theorem begun_finish (mode : Mode) (begun : mode.Begun read) :
    ∀ piece ∈ (mode.finish read.byteLength).pieces, piece.StandsIn read := by
  cases mode with
  | slash start =>
      obtain ⟨gap, splices, front, rfl, rfl⟩ := begun
      have own := (Piece.copied_stands front '/').append gap
      simpa [finish] using own
  | lineComment start =>
      obtain ⟨own, opens, since⟩ := begun
      simpa [finish] using comment_stands (.inl opens) since
  | code => simp [finish]
  | blockComment start => simp [finish]
  | blockStar start => simp [finish]
  | literal quote escaped => simp [finish]

end Mode

namespace Normalized

theorem scan_stands (mode : Mode) (read text : Text) (begun : mode.Begun read) :
    ∀ piece ∈ (scan mode read.byteLength text).pieces, piece.StandsIn (read ++ text) := by
  induction text using Text.splice_induction generalizing mode read with
  | nil =>
      rw [List.append_nil]
      exact Mode.begun_finish mode begun
  | splice splice rest single ih =>
      have later := ih mode (read ++ splice) (Mode.begun_splice mode splice single begun)
      rw [scan_splice mode _ splice rest single]
      simpa using later
  | char c rest kept ih =>
      obtain ⟨stand, next⟩ := Mode.begun_step mode (Text.atLineEnd (c :: rest)) c begun
      have later := ih _ (read ++ [c]) next
      rw [scan_char mode _ c rest kept]
      intro piece member
      rcases List.mem_append.mp member with own | rests
      · simpa using (stand piece own).append rest
      · simpa using later piece (by simpa using rests)

theorem ofText_stands (text : Text) : ∀ piece ∈ (ofText text).pieces, piece.StandsIn text :=
  scan_stands .code [] text trivial

end Normalized

namespace OffsetMap

-- The later a segment begins, the earlier it is listed, and all begin before `norm`.
def Descends (map : OffsetMap) (norm : Nat) : Prop :=
  map.segments.Pairwise (fun later earlier => earlier.norm < later.norm) ∧
    ∀ segment ∈ map.segments, segment.norm < norm

theorem Descends.raise {map : OffsetMap} {norm : Nat} (descends : map.Descends norm) (width : Nat) :
    map.Descends (norm + width) :=
  ⟨descends.1, fun segment member => Nat.lt_add_right width (descends.2 segment member)⟩

theorem descends_push (map : OffsetMap) (segment : Segment) (descends : map.Descends segment.norm)
    (width : Nat) (wide : 0 < width) : (map.push segment).Descends (segment.norm + width) :=
  ⟨.cons descends.2 descends.1,
    List.forall_mem_cons.mpr ⟨Nat.lt_add_of_pos_right wide, (descends.raise width).2⟩⟩

theorem descends_add (map : OffsetMap) (norm : Nat) (piece : Piece) (descends : map.Descends norm) :
    (map.add norm piece).Descends (norm + piece.char.utf8Size) := by
  have wide := piece.char.utf8Size_pos
  cases piece with
  | comment start stop => exact descends_push map (.comment norm start stop) descends _ wide
  | copied char offset =>
      rw [add, copied]
      split
      · exact descends.raise _
      · exact descends_push map (.verbatim norm offset) descends _ wide

theorem descends_addAll (map : OffsetMap) (norm : Nat) (pieces : List Piece)
    (descends : map.Descends norm) :
    (map.addAll norm pieces).segments.Pairwise fun later earlier => earlier.norm < later.norm := by
  induction pieces generalizing map norm with
  | nil => exact descends.1
  | cons piece pieces ih => exact ih _ _ (descends_add map norm piece descends)

theorem ofPieces_descends (pieces : List Piece) :
    (ofPieces pieces).segments.Pairwise fun later earlier => earlier.norm < later.norm :=
  descends_addAll empty 0 pieces ⟨.nil, by simp [empty]⟩

def reach (position : Nat) (segment : Segment) : Ordering :=
  if segment.norm ≤ position then .lt else .gt

theorem reach_lt (position : Nat) (segment : Segment) :
    reach position segment = .lt ↔ segment.norm ≤ position := by
  by_cases near : segment.norm ≤ position
  · simp [reach, near]
  · simp [reach, near]

theorem reach_gt (position : Nat) (segment : Segment) :
    reach position segment = .gt ↔ position < segment.norm := by
  by_cases near : segment.norm ≤ position
  · simp [reach, near]
  · simp [reach, near]
    omega

end OffsetMap

def Search.segment? (segments : List Segment) : Search → Option (Option Segment)
  | .hit 0 => some none
  | .miss 0 => some none
  | .hit (index + 1) => segments[index]?.map some
  | .miss (index + 1) => segments[index]?.map some

namespace OffsetMap

theorem segment_split (map : OffsetMap) (position : Nat) (near far : List Segment)
    (split : map.segments.reverse = near ++ far) (reached : ∀ segment ∈ near, segment.norm ≤ position)
    (ahead : ∀ segment ∈ far, position < segment.norm) :
    map.segment? position = near.getLast? := by
  have order : map.segments = far.reverse ++ near.reverse := by
    rw [← List.reverse_append, ← split, List.reverse_reverse]
  have passed : far.reverse.find? (·.norm ≤ position) = none := by
    simpa using ahead
  rw [segment?, order, List.find?_append, passed, Option.none_or, List.getLast?_eq_head?_reverse]
  cases last : near.reverse with
  | nil => rfl
  | cons segment earlier =>
      have own : segment.norm ≤ position := by
        apply reached
        rw [← List.mem_reverse, last]
        exact List.mem_cons_self
      simp [own]

theorem segment_of_finds (map : OffsetMap) (position : Nat) (found : Search)
    (finds : found.Finds (reach position) map.segments.reverse) :
    found.segment? map.segments.reverse = some (map.segment? position) := by
  cases found with
  | hit index =>
      obtain ⟨segment, _, same⟩ := Option.map_eq_some_iff.mp finds
      unfold reach at same
      split at same <;> cases same
  | miss index =>
      obtain ⟨within, near, far⟩ := finds
      simp only [reach_lt] at near
      simp only [reach_gt] at far
      rw [segment_split map position _ _ (List.take_append_drop index _).symm near far]
      cases index with
      | zero => rfl
      | succ index =>
          have here := List.getElem?_eq_getElem (Nat.lt_of_succ_le within)
          rw [Search.segment?, List.take_add_one, here, Option.map_some, Option.toList_some,
            List.getLast?_concat]

theorem segment_halving (pieces : List Piece) (position : Nat) :
    (Search.halving (reach position) (ofPieces pieces).segments.reverse 0
      (ofPieces pieces).segments.reverse.length).segment? (ofPieces pieces).segments.reverse =
      some ((ofPieces pieces).segment? position) := by
  apply segment_of_finds
  apply Search.halving_all_finds
  refine List.pairwise_reverse.mpr ((ofPieces_descends pieces).imp ?_)
  intro later earlier before
  simp only [reach_lt, reach_gt]
  omega

end OffsetMap

namespace Lexed

end Lexed

end CPreprocessor
