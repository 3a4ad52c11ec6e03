import CPreprocessor.Lexing.OffsetMap
import CPreprocessor.Proofs.Lexing.Joining
import CPreprocessor.Proofs.Text.Cursor

/-!
Normalizing in place. A cursor goes over the bytes of the text, looks ahead over splices where it has
to, and copies out what is kept, one whole character at a time, noting for each byte where it came
from. It never stops inside a character, and what it writes is the normalized text.
-/

set_option autoImplicit false

namespace CPreprocessor.InPlace

def skipSplices (cursor : Cursor) : Cursor :=
  match _here : cursor.ahead with
  | 0x5C :: 0x0A :: _ => skipSplices (cursor.moved 2)
  | 0x5C :: 0x0D :: 0x0A :: _ => skipSplices (cursor.moved 3)
  | _ => cursor
termination_by cursor.ahead.length
decreasing_by
  · rw [Cursor.ahead_moved, _here]
    simp only [List.drop_succ_cons, List.drop_zero, List.length_cons]
    omega
  · rw [Cursor.ahead_moved, _here]
    simp only [List.drop_succ_cons, List.drop_zero, List.length_cons]
    omega

theorem skipSplices_le (cursor : Cursor) :
    (skipSplices cursor).ahead.length ≤ cursor.ahead.length := by
  fun_induction skipSplices cursor with
  | case1 cursor more here ih => exact Nat.le_trans ih (cursor.moved_le 2)
  | case2 cursor more here ih => exact Nat.le_trans ih (cursor.moved_le 3)
  | case3 cursor feed returnFeed => exact Nat.le_refl _

theorem skipped_moved_le (cursor : Cursor) (distance : Nat) :
    ((skipSplices cursor).moved distance).ahead.length ≤ cursor.ahead.length :=
  Nat.le_trans (Cursor.moved_le _ _) (skipSplices_le cursor)

theorem skipped_moved_lt (cursor : Cursor) (distance : Nat)
    (more : (skipSplices cursor).atEnd = false) (moves : 0 < distance) :
    ((skipSplices cursor).moved distance).ahead.length < cursor.ahead.length :=
  Nat.lt_of_lt_of_le (Cursor.moved_lt _ distance more moves) (skipSplices_le cursor)

def beyond (cursor : Cursor) : Cursor := skipSplices (cursor.moved 1)

def lineComment? (cursor : Cursor) : Option Cursor :=
  if _stops : ((skipSplices cursor).atEnd || (skipSplices cursor).atLineEnd) = true then
    some (skipSplices cursor)
  else
    match _found : (skipSplices cursor).charLength? with
    | none => none
    | some length => lineComment? ((skipSplices cursor).moved length)
termination_by cursor.ahead.length
decreasing_by
  exact skipped_moved_lt cursor length (Cursor.not_atEnd _ _stops)
    (Cursor.charLength_pos _ length _found)

def blockComment? (cursor : Cursor) : Option (Bool × Cursor) :=
  match _here : (skipSplices cursor).current? with
  | none => some (false, skipSplices cursor)
  | some byte =>
      if byte = '*'.toUInt8 then
        if (beyond (skipSplices cursor)).current? = some '/'.toUInt8 then
          some (true, (beyond (skipSplices cursor)).moved 1)
        else blockComment? ((skipSplices cursor).moved 1)
      else
        match _found : (skipSplices cursor).charLength? with
        | none => none
        | some length => blockComment? ((skipSplices cursor).moved length)
termination_by cursor.ahead.length
decreasing_by
  · exact skipped_moved_lt cursor 1 (Cursor.current_more _ byte _here) Nat.one_pos
  · exact skipped_moved_lt cursor length (Cursor.current_more _ byte _here)
      (Cursor.charLength_pos _ length _found)

structure Draft where
  cursor : Cursor
  out : Text
  offsets : OffsetMap

namespace Draft

def start (text : Text) : Draft := ⟨.start text, [], .empty⟩

def skip (draft : Draft) : Draft := { draft with cursor := skipSplices draft.cursor }

def copiedBytes (map : OffsetMap) (norm orig : Nat) : Nat → OffsetMap
  | 0 => map
  | count + 1 => (copiedBytes map norm orig count).copied (norm + count) (orig + count)

def copyChar? (draft : Draft) : Option Draft :=
  match draft.cursor.charLength? with
  | none => none
  | some length =>
      ((draft.cursor.moved length).sliceFrom? draft.cursor.position).map fun own =>
        ⟨draft.cursor.moved length, draft.out ++ own,
          copiedBytes draft.offsets draft.out.byteLength draft.cursor.position length⟩

def blank (draft : Draft) (stop : Cursor) : Draft :=
  ⟨stop, draft.out ++ [' '],
    draft.offsets.push (.comment draft.out.byteLength draft.cursor.position stop.position)⟩

theorem copyChar_moved (draft next : Draft) (copied : draft.copyChar? = some next) :
    ∃ length, draft.cursor.charLength? = some length ∧ next.cursor = draft.cursor.moved length := by
  rw [copyChar?] at copied
  cases found : draft.cursor.charLength? with
  | none =>
      rw [found] at copied
      cases copied
  | some length =>
      rw [found] at copied
      obtain ⟨own, _, rfl⟩ := Option.map_eq_some_iff.mp copied
      exact ⟨length, rfl, rfl⟩

theorem copyChar_lt (draft next : Draft) (more : draft.cursor.atEnd = false)
    (copied : draft.copyChar? = some next) :
    next.cursor.ahead.length < draft.cursor.ahead.length := by
  obtain ⟨length, found, same⟩ := draft.copyChar_moved next copied
  rw [same]
  exact draft.cursor.moved_lt length more (draft.cursor.charLength_pos length found)

theorem skipped_copy_le (draft next : Draft) (copied : draft.skip.copyChar? = some next) :
    next.cursor.ahead.length ≤ draft.cursor.ahead.length := by
  obtain ⟨length, _, same⟩ := draft.skip.copyChar_moved next copied
  rw [same]
  exact skipped_moved_le draft.cursor length

theorem skipped_copy_lt (draft next : Draft) (more : draft.skip.cursor.atEnd = false)
    (copied : draft.skip.copyChar? = some next) :
    next.cursor.ahead.length < draft.cursor.ahead.length :=
  Nat.lt_of_lt_of_le (draft.skip.copyChar_lt next more copied) (skipSplices_le draft.cursor)

def copyLiteral? (quote : UInt8) (draft : Draft) : Option Draft :=
  match _here : draft.skip.cursor.current? with
  | none => some draft.skip
  | some byte =>
      if draft.skip.cursor.atLineEnd then some draft.skip
      else
        match _copied : draft.skip.copyChar? with
        | none => none
        | some copied =>
            if byte = quote then some copied
            else if byte = '\\'.toUInt8 then
              if _short : (copied.skip.cursor.atEnd || copied.skip.cursor.atLineEnd) = true then
                copyLiteral? quote copied.skip
              else
                match _escaped : copied.skip.copyChar? with
                | none => none
                | some next => copyLiteral? quote next
            else copyLiteral? quote copied
termination_by draft.cursor.ahead.length
decreasing_by
  all_goals
    have less := draft.skipped_copy_lt copied (Cursor.current_more _ byte _here) _copied
  · exact Nat.lt_of_le_of_lt (skipSplices_le copied.cursor) less
  · exact Nat.lt_of_le_of_lt (copied.skipped_copy_le next _escaped) less
  · exact less

-- One turn of the normalizer at a byte: a comment, a literal, or a character that is copied. If a
-- comment is found that never closes, the place is where it starts.
def turn? (byte : UInt8) (draft : Draft) : Option (Draft × Option Nat) :=
  if byte = '/'.toUInt8 then
    if (beyond draft.cursor).current? = some '/'.toUInt8 then
      (lineComment? ((beyond draft.cursor).moved 1)).map fun stop => (draft.blank stop, none)
    else if (beyond draft.cursor).current? = some '*'.toUInt8 then
      (blockComment? ((beyond draft.cursor).moved 1)).map fun found =>
        if found.1 then (draft.blank found.2, none) else (draft, some draft.cursor.position)
    else draft.copyChar?.map (·, none)
  else if CharClass.isQuote (Utf8.asChar byte) then
    (draft.copyChar?.bind (copyLiteral? byte)).map (·, none)
  else draft.copyChar?.map (·, none)

end Draft

theorem lineComment_le (cursor stop : Cursor) (found : lineComment? cursor = some stop) :
    stop.ahead.length ≤ cursor.ahead.length := by
  fun_induction lineComment? cursor with
  | case1 cursor stops =>
      cases found
      exact skipSplices_le cursor
  | case2 cursor goesOn inside => cases found
  | case3 cursor goesOn length whole ih =>
      exact Nat.le_trans (ih found) (skipped_moved_le cursor length)

theorem blockComment_le (cursor stop : Cursor) (closed : Bool)
    (found : blockComment? cursor = some (closed, stop)) :
    stop.ahead.length ≤ cursor.ahead.length := by
  fun_induction blockComment? cursor with
  | case1 cursor ends =>
      cases found
      exact skipSplices_le cursor
  | case2 cursor slash star =>
      cases found
      exact Nat.le_trans (skipped_moved_le _ 1) (skipped_moved_le cursor 1)
  | case3 cursor other star ih => exact Nat.le_trans (ih found) (skipped_moved_le cursor 1)
  | case4 cursor byte here plain inside => cases found
  | case5 cursor byte here plain length whole ih =>
      exact Nat.le_trans (ih found) (skipped_moved_le cursor length)

namespace Draft

theorem copyLiteral_le (quote : UInt8) (draft last : Draft)
    (found : copyLiteral? quote draft = some last) :
    last.cursor.ahead.length ≤ draft.cursor.ahead.length := by
  fun_induction copyLiteral? quote draft with
  | case1 draft ends =>
      cases found
      exact skipSplices_le draft.cursor
  | case2 draft byte here line =>
      cases found
      exact skipSplices_le draft.cursor
  | case3 draft byte here inside broken => cases found
  | case4 draft inside next copied here =>
      cases found
      exact draft.skipped_copy_le _ copied
  | case5 draft inside next copied short here other ih =>
      exact Nat.le_trans (ih found)
        (Nat.le_trans (skipSplices_le next.cursor) (draft.skipped_copy_le next copied))
  | case6 draft inside next copied long broken here other => cases found
  | case7 draft inside next copied long further escaped here other ih =>
      exact Nat.le_trans (ih found)
        (Nat.le_trans (next.skipped_copy_le further escaped) (draft.skipped_copy_le next copied))
  | case8 draft byte here inside next copied other plain ih =>
      exact Nat.le_trans (ih found) (draft.skipped_copy_le next copied)

theorem turn_lt (byte : UInt8) (draft next : Draft) (more : draft.cursor.atEnd = false)
    (turned : draft.turn? byte = some (next, none)) :
    next.cursor.ahead.length < draft.cursor.ahead.length := by
  have copies : draft.copyChar?.map (·, (none : Option Nat)) = some (next, none) →
      next.cursor.ahead.length < draft.cursor.ahead.length := by
    intro copied
    obtain ⟨_, found, same⟩ := Option.map_eq_some_iff.mp copied
    cases same
    exact draft.copyChar_lt next more found
  have further : ((beyond draft.cursor).moved 1).ahead.length < draft.cursor.ahead.length :=
    Nat.lt_of_le_of_lt (skipped_moved_le _ 1) (draft.cursor.moved_lt 1 more Nat.one_pos)
  rw [turn?] at turned
  by_cases slash : byte = '/'.toUInt8
  · rw [if_pos slash] at turned
    split at turned
    · obtain ⟨stop, found, same⟩ := Option.map_eq_some_iff.mp turned
      cases same
      exact Nat.lt_of_le_of_lt (lineComment_le _ stop found) further
    · split at turned
      · obtain ⟨⟨closed, stop⟩, found, same⟩ := Option.map_eq_some_iff.mp turned
        cases closed with
        | false => cases same
        | true =>
            cases same
            exact Nat.lt_of_le_of_lt (blockComment_le _ stop true found) further
      · exact copies turned
  · rw [if_neg slash] at turned
    split at turned
    · obtain ⟨_, found, same⟩ := Option.map_eq_some_iff.mp turned
      cases same
      obtain ⟨opened, copied, literal⟩ := Option.bind_eq_some_iff.mp found
      exact Nat.lt_of_le_of_lt (opened.copyLiteral_le byte next literal)
        (draft.copyChar_lt opened more copied)
    · exact copies turned

def run? (draft : Draft) : Option (Draft × Option Nat) :=
  match _here : draft.skip.cursor.current? with
  | none => some (draft.skip, none)
  | some byte =>
      match _turned : draft.skip.turn? byte with
      | none => none
      | some (next, some start) => some (next, some start)
      | some (next, none) => next.run?
termination_by draft.cursor.ahead.length
decreasing_by
  exact Nat.lt_of_lt_of_le
    (draft.skip.turn_lt byte next (Cursor.current_more _ byte _here) _turned)
    (skipSplices_le draft.cursor)

end Draft

/-- The normalized text, the way back from it, and where a block comment starts that never closes;
undefined if anything is sliced inside a character or out of range. -/
def normalize? (text : Text) : Option (Text × OffsetMap × Option Nat) :=
  (Draft.start text).run?.map fun last => (last.1.out, last.1.offsets, last.2)

section

variable {cursor : Cursor} {before after : Text}

theorem skipSplices_splits (splits : cursor.Splits before after) :
    ∃ gap rest, after = gap ++ rest ∧ Splices gap ∧ Text.startsSplice rest = false ∧
      (skipSplices cursor).Splits (before ++ gap) rest := by
  fun_induction skipSplices cursor generalizing before after with
  | case1 cursor more here ih =>
      rw [splits.ahead] at here
      obtain ⟨rest, rfl, later⟩ := Utf8.encode_begins '\\' rfl after _ here
      obtain ⟨rest, rfl, _⟩ := Utf8.encode_begins '\n' rfl rest _ later
      have parts : cursor.Splits before (['\\', '\n'] ++ rest) := splits
      obtain ⟨gap, rest, rfl, splices, kept, skipped⟩ := ih parts.moved
      exact ⟨['\\', '\n'] ++ gap, rest, rfl, .more _ gap .feed splices, kept, skipped.joined⟩
  | case2 cursor more here ih =>
      rw [splits.ahead] at here
      obtain ⟨rest, rfl, later⟩ := Utf8.encode_begins '\\' rfl after _ here
      obtain ⟨rest, rfl, returned⟩ := Utf8.encode_begins '\r' rfl rest _ later
      obtain ⟨rest, rfl, _⟩ := Utf8.encode_begins '\n' rfl rest _ returned
      have parts : cursor.Splits before (['\\', '\r', '\n'] ++ rest) := splits
      obtain ⟨gap, rest, rfl, splices, kept, skipped⟩ := ih parts.moved
      exact ⟨['\\', '\r', '\n'] ++ gap, rest, rfl, .more _ gap .returnFeed splices, kept,
        skipped.joined⟩
  | case3 cursor feed returnFeed =>
      have kept : Text.startsSplice after = false := by
        refine Bool.eq_false_iff.mpr fun starts => ?_
        obtain ⟨splice, rest, single, rfl⟩ := Text.splice_of_starts after starts
        cases single with
        | feed => exact feed _ splits.ahead
        | returnFeed => exact returnFeed _ splits.ahead
      exact ⟨[], after, rfl, .none, kept, by rwa [List.append_nil]⟩

theorem beyond_splits {c : Char} (splits : cursor.Splits before (c :: after))
    (ascii : Utf8.isAscii c = true) :
    ∃ gap rest, after = gap ++ rest ∧ Splices gap ∧ Text.startsSplice rest = false ∧
      (beyond cursor).Splits (before ++ [c] ++ gap) rest :=
  skipSplices_splits (splits.movedOne ascii)

theorem scan_gap (mode : Mode) (before gap rest : Text) (splices : Splices gap) :
    Normalized.scan mode before.byteLength (gap ++ rest) =
      Normalized.scan mode (before ++ gap).byteLength rest := by
  rw [Normalized.scan_splices mode _ gap rest splices, Text.byteLength_append]

theorem scan_next (mode : Mode) (before : Text) (c : Char) (rest : Text)
    (kept : Text.startsSplice (c :: rest) = false) :
    Normalized.scan mode before.byteLength (c :: rest) =
      (Normalized.scan (mode.step (Text.atLineEnd (c :: rest)) before.byteLength c).2
        (before ++ [c]).byteLength rest).prepend
        (mode.step (Text.atLineEnd (c :: rest)) before.byteLength c).1 := by
  rw [Normalized.scan_char mode _ c rest kept, Text.byteLength_append]
  rfl

theorem lineComment_splits (splits : cursor.Splits before after) :
    ∃ own rest stop, lineComment? cursor = some stop ∧ after = own ++ rest ∧
      stop.Splits (before ++ own) rest ∧
      ∀ start, Normalized.scan (.lineComment start) before.byteLength after =
        (Normalized.scan .code stop.position rest).prepend [.comment start stop.position] := by
  fun_induction lineComment? cursor generalizing before after with
  | case1 cursor stops =>
      obtain ⟨gap, rest, rfl, splices, kept, skipped⟩ := skipSplices_splits splits
      refine ⟨gap, rest, _, rfl, rfl, skipped, fun start => ?_⟩
      rw [scan_gap _ before gap rest splices, ← skipped.position]
      rw [skipped.atEnd, skipped.atLineEnd, Bool.or_eq_true_iff] at stops
      rcases stops with ends | line
      · rw [List.isEmpty_iff.mp ends]
        rfl
      · exact Normalized.lineComment_ends start _ rest line
  | case2 cursor goesOn inside =>
      obtain ⟨gap, rest, rfl, splices, kept, skipped⟩ := skipSplices_splits splits
      rw [skipped.atEnd, skipped.atLineEnd] at goesOn
      cases rest with
      | nil => exact absurd rfl goesOn
      | cons c rest =>
          rw [skipped.charLength] at inside
          cases inside
  | case3 cursor goesOn length whole ih =>
      obtain ⟨gap, rest, rfl, splices, kept, skipped⟩ := skipSplices_splits splits
      rw [skipped.atEnd, skipped.atLineEnd] at goesOn
      cases rest with
      | nil => exact absurd rfl goesOn
      | cons c rest =>
          rw [skipped.charLength] at whole
          cases whole
          obtain ⟨own, rest, stop, found, rfl, stopped, scanned⟩ := ih skipped.movedChar
          refine ⟨gap ++ c :: own, rest, stop, found, by simp, by simpa using stopped,
            fun start => ?_⟩
          have inside : Text.atLineEnd (c :: (own ++ rest)) = false := by simpa using goesOn
          rw [scan_gap _ before gap _ splices, scan_next _ _ c _ kept, inside]
          exact scanned start

theorem star_plain (start : Nat) (gap rest : Text) (splices : Splices gap)
    (kept : Text.startsSplice rest = false) (other : rest.head? ≠ some '/') :
    Normalized.scan (.blockStar start) before.byteLength (gap ++ rest) =
      Normalized.scan (.blockComment start) before.byteLength (gap ++ rest) := by
  rw [scan_gap _ before gap rest splices, scan_gap _ before gap rest splices]
  cases rest with
  | nil => rfl
  | cons c rest =>
      have plain : c ≠ '/' := fun slash => other (congrArg some slash)
      rw [scan_next _ _ c rest kept, scan_next _ _ c rest kept]
      simp only [Mode.step, if_neg plain]

theorem star_closes (start : Nat) (gap rest : Text) (splices : Splices gap) :
    Normalized.scan (.blockStar start) before.byteLength (gap ++ '/' :: rest) =
      (Normalized.scan .code (before ++ gap ++ ['/']).byteLength rest).prepend
        [.comment start (before ++ gap ++ ['/']).byteLength] := by
  rw [scan_gap _ before gap _ splices, scan_next _ _ '/' rest rfl, Text.byteLength_append _ ['/']]
  rfl

theorem blockComment_splits (splits : cursor.Splits before after) :
    ∃ own rest closed stop, blockComment? cursor = some (closed, stop) ∧ after = own ++ rest ∧
      stop.Splits (before ++ own) rest ∧
      ∀ start, Normalized.scan (.blockComment start) before.byteLength after =
        if closed then
          (Normalized.scan .code stop.position rest).prepend [.comment start stop.position]
        else ⟨[], some start⟩ := by
  fun_induction blockComment? cursor generalizing before after with
  | case1 cursor ends =>
      obtain ⟨gap, rest, rfl, splices, kept, skipped⟩ := skipSplices_splits splits
      cases skipped.ended ends
      refine ⟨gap, [], false, _, rfl, rfl, skipped, fun start => ?_⟩
      rw [scan_gap _ before gap [] splices]
      rfl
  | case2 cursor slash star =>
      obtain ⟨gap, rest, rfl, splices, kept, skipped⟩ := skipSplices_splits splits
      obtain ⟨rest, rfl⟩ := List.head?_eq_some_iff.mp ((skipped.current_iff '*' rfl).mp star)
      obtain ⟨between, rest, rfl, moreSplices, _, further⟩ := beyond_splits skipped rfl
      obtain ⟨rest, rfl⟩ := List.head?_eq_some_iff.mp ((further.current_iff '/' rfl).mp slash)
      have stopped := further.movedOne rfl
      refine ⟨gap ++ '*' :: (between ++ ['/']), rest, true, _, rfl, by simp, by simpa using stopped,
        fun start => ?_⟩
      rw [if_pos rfl, scan_gap _ before gap _ splices, scan_next _ _ '*' _ kept, stopped.position]
      exact star_closes start between rest moreSplices
  | case3 cursor other star ih =>
      obtain ⟨gap, rest, rfl, splices, kept, skipped⟩ := skipSplices_splits splits
      obtain ⟨rest, rfl⟩ := List.head?_eq_some_iff.mp ((skipped.current_iff '*' rfl).mp star)
      obtain ⟨own, later, closed, stop, found, parted, stopped, scanned⟩ :=
        ih (skipped.movedOne rfl)
      obtain ⟨between, tail, same, moreSplices, plain, further⟩ := beyond_splits skipped rfl
      have noSlash : tail.head? ≠ some '/' := mt (further.current_iff '/' rfl).mpr other
      refine ⟨gap ++ '*' :: own, later, closed, stop, found, by simp [parted],
        by simpa using stopped, fun start => ?_⟩
      -- The loop has forgotten the star here, the mode has not.
      rw [scan_gap _ before gap _ splices, scan_next _ _ '*' _ kept, ← scanned start, same]
      exact star_plain start between tail moreSplices plain noSlash
  | case4 cursor byte here plain inside =>
      obtain ⟨gap, rest, rfl, splices, kept, skipped⟩ := skipSplices_splits splits
      obtain ⟨c, rest, rfl, _⟩ := skipped.first here
      cases skipped.charLength.symm.trans inside
  | case5 cursor byte here plain length whole ih =>
      obtain ⟨gap, rest, rfl, splices, kept, skipped⟩ := skipSplices_splits splits
      obtain ⟨c, rest, rfl, alone, _⟩ := skipped.first here
      cases skipped.charLength.symm.trans whole
      obtain ⟨own, rest, closed, stop, found, rfl, stopped, scanned⟩ := ih skipped.movedChar
      refine ⟨gap ++ c :: own, rest, closed, stop, found, by simp, by simpa using stopped,
        fun start => ?_⟩
      have other : c ≠ '*' := by
        rintro rfl
        exact plain (alone rfl)
      rw [scan_gap _ before gap _ splices, scan_next _ _ c _ kept, ← scanned start, Mode.step,
        Mode.blockStep, if_neg other]
      rfl

end

def Fits (map : OffsetMap) (norm : Nat) : Prop :=
  ∀ segment, map.segments.head? = some segment → segment.norm ≤ norm

theorem extendsTo_add (segment : Segment) (norm orig count : Nat) (before : segment.norm ≤ norm)
    (extended : segment.extendsTo norm orig = true) :
    segment.extendsTo (norm + count) (orig + count) = true := by
  cases segment with
  | comment => cases extended
  | verbatim norm₀ orig₀ =>
      have starts : norm₀ ≤ norm := before
      have same : orig₀ + (norm - norm₀) = orig := beq_iff_eq.mp extended
      exact beq_iff_eq.mpr (by omega)

theorem copied_head (map : OffsetMap) (norm orig : Nat) (fits : Fits map norm) :
    ∃ segment, (map.copied norm orig).segments.head? = some segment ∧ segment.norm ≤ norm ∧
      segment.extendsTo norm orig = true := by
  rw [OffsetMap.copied]
  by_cases extended : map.segments.head?.any (Segment.extendsTo norm orig) = true
  · rw [if_pos extended]
    obtain ⟨segment, head, goesOn⟩ := (Option.any_eq_true _ _).mp extended
    exact ⟨segment, head, fits segment head, goesOn⟩
  · rw [if_neg extended]
    refine ⟨_, rfl, Nat.le_refl _, ?_⟩
    simp [Segment.extendsTo]

theorem copiedBytes_char (map : OffsetMap) (norm orig count : Nat) (fits : Fits map norm) :
    Draft.copiedBytes map norm orig (count + 1) = map.copied norm orig := by
  induction count with
  | zero => rfl
  | succ count ih =>
      obtain ⟨segment, head, starts, goesOn⟩ := copied_head map norm orig fits
      rw [Draft.copiedBytes, ih, OffsetMap.copied, head]
      exact if_pos (extendsTo_add segment norm orig (count + 1) starts goesOn)

@[simp] theorem addAll_append (map : OffsetMap) (norm : Nat) (first second : List Piece) :
    map.addAll norm (first ++ second) =
      (map.addAll norm first).addAll (norm + Text.byteLength (first.map Piece.char)) second := by
  induction first generalizing map norm with
  | nil => rfl
  | cons piece first ih =>
      rw [List.cons_append, OffsetMap.addAll, ih, OffsetMap.addAll, List.map_cons,
        Text.byteLength_cons, Nat.add_assoc]

theorem ofPieces_concat (pieces : List Piece) (piece : Piece) :
    OffsetMap.ofPieces (pieces ++ [piece]) =
      (OffsetMap.ofPieces pieces).add (Text.byteLength (pieces.map Piece.char)) piece := by
  rw [OffsetMap.ofPieces, addAll_append, Nat.zero_add]
  rfl

namespace Draft

/-- A draft on the way to a result: it has written the beginning of it, and to read the text after
the cursor, in the given mode, is all there is left to do. -/
structure Toward (draft : Draft) (goal : Normalized) (mode : Mode) (before after : Text) : Prop where
  splits : draft.cursor.Splits before after
  fits : Fits draft.offsets draft.out.byteLength
  written : ∃ pieces, draft.out = pieces.map Piece.char ∧ draft.offsets = OffsetMap.ofPieces pieces ∧
    goal = (Normalized.scan mode before.byteLength after).prepend pieces

theorem toward_start (text : Text) :
    (start text).Toward (Normalized.ofText text) .code [] text where
  splits := Cursor.splits_start text
  fits := fun segment none => by cases none
  written := ⟨[], rfl, rfl, rfl⟩

section

variable {draft : Draft} {goal : Normalized} {mode : Mode} {before after : Text}

theorem Toward.turns {next : Mode} (toward : draft.Toward goal mode before after)
    (same : Normalized.scan mode before.byteLength after =
      Normalized.scan next before.byteLength after) : draft.Toward goal next before after := by
  refine ⟨toward.splits, toward.fits, ?_⟩
  rw [← same]
  exact toward.written

theorem Toward.skips (toward : draft.Toward goal mode before after) :
    ∃ gap rest, Text.startsSplice rest = false ∧
      draft.skip.Toward goal mode (before ++ gap) rest := by
  obtain ⟨gap, rest, rfl, splices, kept, skipped⟩ := skipSplices_splits toward.splits
  refine ⟨gap, rest, kept, skipped, toward.fits, ?_⟩
  rw [← scan_gap mode before gap rest splices]
  exact toward.written

theorem Toward.copies {next : Mode} {c : Char} {rest : Text}
    (toward : draft.Toward goal mode before (c :: rest))
    (reads : Normalized.scan mode before.byteLength (c :: rest) =
      (Normalized.scan next (before ++ [c]).byteLength rest).prepend
        [.copied c before.byteLength]) :
    ∃ copied, draft.copyChar? = some copied ∧ copied.Toward goal next (before ++ [c]) rest := by
  have moved := toward.splits.movedChar
  have text := moved.slice
  rw [← toward.splits.position] at text
  obtain ⟨width, wide⟩ := Nat.exists_eq_add_of_lt c.utf8Size_pos
  have noted : copiedBytes draft.offsets draft.out.byteLength draft.cursor.position c.utf8Size =
      draft.offsets.copied draft.out.byteLength draft.cursor.position := by
    rw [wide, Nat.zero_add]
    exact copiedBytes_char _ _ _ width toward.fits
  refine ⟨_, by rw [copyChar?, toward.splits.charLength]; dsimp only; rw [text, noted]; rfl,
    moved, ?_, ?_⟩
  · intro segment head
    obtain ⟨own, found, starts, _⟩ := copied_head draft.offsets draft.out.byteLength
      draft.cursor.position toward.fits
    cases head.symm.trans found
    rw [Text.byteLength_append]
    exact Nat.le_trans starts (Nat.le_add_right _ _)
  · obtain ⟨pieces, out, offsets, same⟩ := toward.written
    refine ⟨pieces ++ [.copied c before.byteLength], ?_, ?_, ?_⟩
    · rw [List.map_append, ← out]
      rfl
    · rw [ofPieces_concat, ← offsets, ← out, toward.splits.position]
      rfl
    · rw [same, reads, Normalized.prepend_prepend]

theorem Toward.blanks {stop : Cursor} {own rest : Text}
    (toward : draft.Toward goal mode before after) (stopped : stop.Splits (before ++ own) rest)
    (reads : Normalized.scan mode before.byteLength after =
      (Normalized.scan .code stop.position rest).prepend
        [.comment before.byteLength stop.position]) :
    (draft.blank stop).Toward goal .code (before ++ own) rest := by
  refine ⟨stopped, ?_, ?_⟩
  · rintro _ ⟨⟩
    rw [blank, Text.byteLength_append]
    exact Nat.le_add_right _ _
  · obtain ⟨pieces, out, offsets, same⟩ := toward.written
    refine ⟨pieces ++ [.comment before.byteLength stop.position], ?_, ?_, ?_⟩
    · rw [List.map_append, ← out]
      rfl
    · rw [ofPieces_concat, ← offsets, ← out, ← toward.splits.position]
      rfl
    · rw [same, reads, Normalized.prepend_prepend, stopped.position]

end

theorem Toward.done {draft : Draft} {goal : Normalized} {mode : Mode} {before after : Text}
    {unclosed : Option Nat} (toward : draft.Toward goal mode before after)
    (ends : Normalized.scan mode before.byteLength after = ⟨[], unclosed⟩) :
    draft.out = goal.text ∧ draft.offsets = OffsetMap.ofPieces goal.pieces ∧
      goal.openComment = unclosed := by
  obtain ⟨pieces, out, offsets, same⟩ := toward.written
  rw [ends, Normalized.prepend, List.append_nil] at same
  rw [same]
  exact ⟨out, offsets, rfl⟩

theorem literal_ends (quote : Char) (escaped : Bool) (offset : Nat) (text : Text)
    (ends : text = [] ∨ Text.atLineEnd text = true) :
    Normalized.scan (.literal quote escaped) offset text = Normalized.scan .code offset text := by
  cases text with
  | nil => rfl
  | cons c rest =>
      have line : Text.atLineEnd (c :: rest) = true := ends.resolve_left (List.cons_ne_nil c rest)
      obtain ⟨kept, plain⟩ := Normalized.lineEnd_copied offset c rest line
      rw [Normalized.scan_char _ offset c rest kept, Normalized.scan_char _ offset c rest kept, line]
      simp only [Mode.step, plain, if_true]

section

variable {draft : Draft} {goal : Normalized} {quote : Char} {before after : Text}

theorem Toward.copiesLiteral {escaped : Bool}
    (toward : draft.Toward goal (.literal quote escaped) before after)
    (goesOn : ¬ (draft.skip.cursor.atEnd || draft.skip.cursor.atLineEnd) = true) :
    ∃ copied c first rest, draft.skip.copyChar? = some copied ∧
      (∀ d, Utf8.isAscii d = true → (draft.skip.cursor.current? = some d.toUInt8 ↔ c = d)) ∧
      copied.Toward goal
        (if escaped then .literal quote false
          else if c = quote then .code
          else .literal quote (c = '\\')) first rest := by
  obtain ⟨gap, rest, kept, skipped⟩ := toward.skips
  rw [skipped.splits.atEnd, skipped.splits.atLineEnd] at goesOn
  cases rest with
  | nil => exact absurd rfl goesOn
  | cons c rest =>
      have inside : Text.atLineEnd (c :: rest) = false := by simpa using goesOn
      have reads := scan_next (.literal quote escaped) (before ++ gap) c rest kept
      rw [inside] at reads
      obtain ⟨copied, found, further⟩ := skipped.copies reads
      refine ⟨copied, c, _, _, found, fun d ascii => ?_, further⟩
      rw [skipped.splits.current_iff d ascii]
      exact Option.some_inj

theorem goesOn_of_current {cursor : Cursor} {byte : UInt8} (here : cursor.current? = some byte)
    (inside : ¬ cursor.atLineEnd = true) : ¬ (cursor.atEnd || cursor.atLineEnd) = true := by
  rwa [cursor.current_more byte here, Bool.false_or]

theorem Toward.escapes {next : Draft}
    (toward : draft.Toward goal (.literal quote false) before after)
    (here : draft.skip.cursor.current? = some '\\'.toUInt8)
    (inside : ¬ draft.skip.cursor.atLineEnd = true) (copied : draft.skip.copyChar? = some next)
    (other : ¬ '\\'.toUInt8 = quote.toUInt8) :
    ∃ first rest, next.Toward goal (.literal quote true) first rest := by
  obtain ⟨_, c, _, _, found, is, further⟩ :=
    toward.copiesLiteral (goesOn_of_current here inside)
  cases copied.symm.trans found
  have escape : c = '\\' := (is '\\' rfl).mp here
  have noQuote : c ≠ quote := fun same => other (congrArg Char.toUInt8 (escape.symm.trans same))
  rw [if_neg Bool.false_ne_true, if_neg noQuote, decide_eq_true escape] at further
  exact ⟨_, _, further⟩

theorem copyLiteral_toward (quotes : CharClass.isQuote quote = true)
    (toward : draft.Toward goal (.literal quote false) before after) :
    ∃ last first rest, copyLiteral? quote.toUInt8 draft = some last ∧
      last.Toward goal .code first rest := by
  have ascii := Utf8.narrow_quote quote quotes
  fun_induction copyLiteral? quote.toUInt8 draft generalizing before after with
  | case1 draft ends =>
      obtain ⟨gap, rest, _, skipped⟩ := toward.skips
      have empty := skipped.splits.ended ends
      exact ⟨_, _, _, rfl, skipped.turns (literal_ends quote _ _ _ (.inl empty))⟩
  | case2 draft byte here line =>
      obtain ⟨gap, rest, _, skipped⟩ := toward.skips
      rw [skipped.splits.atLineEnd] at line
      exact ⟨_, _, _, rfl, skipped.turns (literal_ends quote _ _ _ (.inr line))⟩
  | case3 draft byte here inside broken =>
      obtain ⟨_, _, _, _, found, _⟩ := toward.copiesLiteral (goesOn_of_current here inside)
      cases broken.symm.trans found
  | case4 draft inside next copied here =>
      obtain ⟨_, c, _, _, found, is, further⟩ :=
        toward.copiesLiteral (goesOn_of_current here inside)
      cases copied.symm.trans found
      rw [if_neg Bool.false_ne_true, if_pos ((is quote ascii).mp here)] at further
      exact ⟨next, _, _, rfl, further⟩
  | case5 draft inside next copied short here other ih =>
      obtain ⟨_, _, further⟩ := toward.escapes here inside copied other
      obtain ⟨gap, rest, _, skipped⟩ := further.skips
      -- With nothing left to escape the literal is over, escaped or not.
      rw [skipped.splits.atEnd, skipped.splits.atLineEnd, Bool.or_eq_true_iff,
        List.isEmpty_iff] at short
      exact ih (skipped.turns ((literal_ends quote true _ _ short).trans
        (literal_ends quote false _ _ short).symm))
  | case6 draft inside next copied long broken here other =>
      obtain ⟨_, _, further⟩ := toward.escapes here inside copied other
      obtain ⟨_, _, _, _, found, _⟩ := further.copiesLiteral long
      cases broken.symm.trans found
  | case7 draft inside next copied long last escaped here other ih =>
      obtain ⟨_, _, further⟩ := toward.escapes here inside copied other
      obtain ⟨_, _, _, _, found, _, past⟩ := further.copiesLiteral long
      cases escaped.symm.trans found
      exact ih past
  | case8 draft byte here inside next copied other plain ih =>
      obtain ⟨_, c, _, _, found, is, further⟩ :=
        toward.copiesLiteral (goesOn_of_current here inside)
      cases copied.symm.trans found
      have noQuote : c ≠ quote := fun same =>
        other (Option.some.inj (here.symm.trans ((is quote ascii).mpr same)))
      have noEscape : c ≠ '\\' := fun same =>
        plain (Option.some.inj (here.symm.trans ((is '\\' rfl).mpr same)))
      rw [if_neg Bool.false_ne_true, if_neg noQuote, decide_eq_false noEscape] at further
      exact ih further

end

def Reaches (goal : Normalized) : Draft × Option Nat → Prop
  | (draft, none) => ∃ before after, draft.Toward goal .code before after
  | (draft, some start) =>
      draft.out = goal.text ∧ draft.offsets = OffsetMap.ofPieces goal.pieces ∧
        goal.openComment = some start

section

variable {draft : Draft} {goal : Normalized} {before rest : Text}

theorem slash_gap (gap : Text) (splices : Splices gap) :
    Normalized.scan .code before.byteLength ('/' :: (gap ++ rest)) =
      Normalized.scan (.slash before.byteLength) (before ++ ['/'] ++ gap).byteLength rest := by
  rw [scan_next .code before '/' _ rfl, ← scan_gap _ _ gap rest splices]
  rfl

theorem slash_line (gap : Text) (splices : Splices gap) :
    Normalized.scan .code before.byteLength ('/' :: (gap ++ '/' :: rest)) =
      Normalized.scan (.lineComment before.byteLength)
        (before ++ ['/'] ++ gap ++ ['/']).byteLength rest := by
  rw [slash_gap gap splices, scan_next _ _ '/' rest rfl]
  rfl

theorem slash_block (gap : Text) (splices : Splices gap) :
    Normalized.scan .code before.byteLength ('/' :: (gap ++ '*' :: rest)) =
      Normalized.scan (.blockComment before.byteLength)
        (before ++ ['/'] ++ gap ++ ['*']).byteLength rest := by
  rw [slash_gap gap splices, scan_next _ _ '*' rest rfl]
  rfl

theorem slash_alone (gap : Text) (splices : Splices gap) (kept : Text.startsSplice rest = false)
    (line : rest.head? ≠ some '/') (block : rest.head? ≠ some '*') :
    Normalized.scan .code before.byteLength ('/' :: (gap ++ rest)) =
      (Normalized.scan .code (before ++ ['/']).byteLength (gap ++ rest)).prepend
        [.copied '/' before.byteLength] := by
  rw [slash_gap gap splices, scan_gap _ _ gap rest splices]
  cases rest with
  | nil => rfl
  | cons c rest =>
      exact Normalized.slash_plain _ _ c rest kept (fun same => line (congrArg some same))
        (fun same => block (congrArg some same)) _ (List.prefix_refl _)

theorem turn_slash (toward : draft.Toward goal .code before ('/' :: rest)) :
    ∃ reached, draft.turn? '/'.toUInt8 = some reached ∧ Reaches goal reached := by
  obtain ⟨gap, later, rfl, splices, kept, further⟩ := beyond_splits toward.splits rfl
  rw [turn?, if_pos rfl]
  by_cases line : later.head? = some '/'
  · rw [if_pos ((further.current_iff '/' rfl).mpr line)]
    obtain ⟨later, rfl⟩ := List.head?_eq_some_iff.mp line
    obtain ⟨own, tail, stop, found, rfl, stopped, scanned⟩ :=
      lineComment_splits (further.movedOne rfl)
    have reads := (slash_line gap splices).trans (scanned before.byteLength)
    rw [found]
    exact ⟨_, rfl, _, _, toward.blanks (by simpa using stopped) reads⟩
  · rw [if_neg (mt (further.current_iff '/' rfl).mp line)]
    by_cases block : later.head? = some '*'
    · rw [if_pos ((further.current_iff '*' rfl).mpr block)]
      obtain ⟨later, rfl⟩ := List.head?_eq_some_iff.mp block
      obtain ⟨own, tail, closed, stop, found, rfl, stopped, scanned⟩ :=
        blockComment_splits (further.movedOne rfl)
      have reads := (slash_block gap splices).trans (scanned before.byteLength)
      rw [found]
      cases closed with
      | true => exact ⟨_, rfl, _, _, toward.blanks (by simpa using stopped) reads⟩
      | false =>
          obtain ⟨out, offsets, unclosed⟩ := toward.done reads
          exact ⟨_, rfl, out, offsets, by rw [unclosed, toward.splits.position]⟩
    · rw [if_neg (mt (further.current_iff '*' rfl).mp block)]
      obtain ⟨copied, found, past⟩ := toward.copies (slash_alone gap splices kept line block)
      rw [found]
      exact ⟨_, rfl, _, _, past⟩

theorem turn_toward {c : Char} {byte : UInt8} (toward : draft.Toward goal .code before (c :: rest))
    (kept : Text.startsSplice (c :: rest) = false) (here : draft.cursor.current? = some byte) :
    ∃ reached, draft.turn? byte = some reached ∧ Reaches goal reached := by
  obtain ⟨own, found, alone, classes⟩ := toward.splits.current_class
  cases here.symm.trans found
  by_cases slash : c = '/'
  · subst slash
    rw [alone rfl]
    exact turn_slash toward
  · have other : byte ≠ '/'.toUInt8 := fun same =>
      slash (Option.some.inj ((toward.splits.current_iff '/' rfl).mp (same ▸ here)))
    have reads := scan_next .code before c rest kept
    rw [Mode.step, Mode.codeStep, if_neg slash] at reads
    obtain ⟨copied, opened, further⟩ := toward.copies reads
    rw [turn?, if_neg other, classes _ Utf8.narrow_quote, opened]
    cases quote : CharClass.isQuote c with
    | false =>
        rw [quote, if_neg Bool.false_ne_true] at further
        exact ⟨_, rfl, _, _, further⟩
    | true =>
        rw [quote, if_pos rfl] at further
        rw [alone (Utf8.narrow_quote c quote), if_pos rfl, Option.bind_some]
        obtain ⟨last, _, _, closed, past⟩ := copyLiteral_toward quote further
        rw [closed]
        exact ⟨_, rfl, _, _, past⟩

theorem turn_skipped {byte : UInt8} (toward : draft.Toward goal .code before rest)
    (here : draft.skip.cursor.current? = some byte) :
    ∃ reached, draft.skip.turn? byte = some reached ∧ Reaches goal reached := by
  obtain ⟨gap, rest, kept, skipped⟩ := toward.skips
  obtain ⟨c, more, rfl, _⟩ := skipped.splits.first here
  exact turn_toward skipped kept here

end

theorem run_toward {draft : Draft} {goal : Normalized} {before after : Text}
    (toward : draft.Toward goal .code before after) :
    ∃ last, draft.run? = some (last, goal.openComment) ∧ last.out = goal.text ∧
      last.offsets = OffsetMap.ofPieces goal.pieces := by
  fun_induction run? draft generalizing before after with
  | case1 draft ends =>
      obtain ⟨gap, rest, _, skipped⟩ := toward.skips
      cases skipped.splits.ended ends
      obtain ⟨out, offsets, closed⟩ := skipped.done rfl
      exact ⟨_, by rw [closed], out, offsets⟩
  | case2 draft byte here lost =>
      obtain ⟨reached, found, _⟩ := turn_skipped toward here
      cases lost.symm.trans found
  | case3 draft byte here next start turned =>
      obtain ⟨reached, found, done⟩ := turn_skipped toward here
      cases turned.symm.trans found
      obtain ⟨out, offsets, unclosed⟩ := done
      exact ⟨_, by rw [unclosed], out, offsets⟩
  | case4 draft byte here next turned ih =>
      obtain ⟨reached, found, goesOn⟩ := turn_skipped toward here
      cases turned.symm.trans found
      obtain ⟨_, _, further⟩ := goesOn
      exact ih further

end Draft

theorem normalize_start (text : Text) :
    normalize? text = some ((Normalized.ofText text).text,
      OffsetMap.ofPieces (Normalized.ofText text).pieces, (Normalized.ofText text).openComment) := by
  obtain ⟨last, ran, out, offsets⟩ := Draft.run_toward (Draft.toward_start text)
  rw [normalize?, ran, ← out, ← offsets]
  rfl

end CPreprocessor.InPlace
