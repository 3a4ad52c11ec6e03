import Mathlib.Data.List.Forall2
import Mathlib.Data.Nat.PSub
import CPreprocessor.Proofs.Lexing.Positions

/-!
The offset map, byte by byte. Each byte of a normalized text was copied from one byte of the text or
stands for a whole comment. These origins, noted one after the other, collapse into the segments of
the offset map, and nothing is lost on the way: a search of the segments gives each byte its origin
back. No distance from a segment is ever taken to a position before it.
-/

set_option autoImplicit false

namespace CPreprocessor

inductive ByteOrigin where
  | copied (offset : Nat)
  | comment (start stop : Nat)
deriving DecidableEq, Repr

def ByteOrigin.span : ByteOrigin → Span
  | .copied offset => ⟨offset, offset + 1⟩
  | .comment start stop => ⟨start, stop⟩

def Piece.byteOrigins : Piece → List ByteOrigin
  | .copied char offset => (List.range char.utf8Size).map fun i => .copied (offset + i)
  | .comment start stop => [.comment start stop]

def Normalized.byteOrigins (normalized : Normalized) : List ByteOrigin :=
  normalized.pieces.flatMap Piece.byteOrigins

theorem Piece.byteOrigins_span (piece : Piece) :
    piece.byteOrigins.map ByteOrigin.span = piece.byteSpans := by
  cases piece with
  | copied char offset => simp [byteOrigins, byteSpans, ByteOrigin.span]
  | comment start stop => rfl

theorem Normalized.byteOrigins_span (normalized : Normalized) :
    normalized.byteOrigins.map ByteOrigin.span = normalized.pieces.flatMap Piece.byteSpans := by
  simp [byteOrigins, List.map_flatMap, Piece.byteOrigins_span]

namespace Segment

-- The readings of a segment; undefined where a distance would fall below zero.
def startOf? (position : Nat) : Segment → Option Nat
  | .verbatim norm orig => (position.psub norm).map (orig + ·)
  | .comment _ start _ => some start

def endOf? (position : Nat) : Segment → Option Nat
  | .verbatim norm orig => (position.psub norm).map (orig + · + 1)
  | .comment _ _ stop => some stop

def extendsTo? (norm orig : Nat) : Segment → Option Bool
  | .verbatim norm₀ orig₀ => (norm.psub norm₀).map (orig₀ + · == orig)
  | .comment _ _ _ => some false

theorem readings_defined (segment : Segment) (position : Nat) (reached : segment.norm ≤ position) :
    segment.startOf? position = some (segment.startOf position) ∧
      segment.endOf? position = some (segment.endOf position) ∧
      ∀ orig, segment.extendsTo? position orig = some (segment.extendsTo position orig) := by
  cases segment with
  | verbatim norm orig =>
      have distance : position.psub norm = some (position - norm) := Nat.psub_eq_sub reached
      simp [startOf?, startOf, endOf?, endOf, extendsTo?, extendsTo, distance]
  | comment norm start stop => exact ⟨rfl, rfl, fun _ => rfl⟩

end Segment

namespace OffsetMap

-- Notes a byte that was copied. Only the last segment is looked at.
def copied? (map : OffsetMap) (norm orig : Nat) : Option OffsetMap :=
  match map.segments.head? with
  | none => some (map.push (.verbatim norm orig))
  | some last => (last.extendsTo? norm orig).map fun goesOn =>
      if goesOn then map else map.push (.verbatim norm orig)

def record? (map : OffsetMap) (norm : Nat) : ByteOrigin → Option OffsetMap
  | .copied offset => map.copied? norm offset
  | .comment start stop => some (map.push (.comment norm start stop))

def recordAll? (map : OffsetMap) (norm : Nat) : List ByteOrigin → Option OffsetMap
  | [] => some map
  | origin :: origins => (map.record? norm origin).bind (·.recordAll? (norm + 1) origins)

def bisect? (map : OffsetMap) (position : Nat) : Option (Option Segment) :=
  (Search.halving (reach position) map.segments.reverse 0 map.segments.reverse.length).segment?
    map.segments.reverse

def startOf? (map : OffsetMap) (position : Nat) : Option Nat :=
  (map.bisect? position).bind fun found =>
    match found with
    | some segment => segment.startOf? position
    | none => some position

def endOf? (map : OffsetMap) (position : Nat) : Option Nat :=
  (map.bisect? position).bind fun found =>
    match found with
    | some segment => segment.endOf? position
    | none => some (position + 1)

@[simp] theorem recordAll_append (map : OffsetMap) (norm : Nat) (first second : List ByteOrigin) :
    map.recordAll? norm (first ++ second) =
      (map.recordAll? norm first).bind (·.recordAll? (norm + first.length) second) := by
  induction first generalizing map norm with
  | nil => rfl
  | cons origin first ih =>
      simp [recordAll?, ih, Option.bind_assoc, Nat.add_assoc, Nat.add_comm 1]

open InPlace (Fits)

section Recording

variable {map : OffsetMap} {norm : Nat} (fits : Fits map norm)
include fits

theorem copied_defined (orig : Nat) : map.copied? norm orig = some (map.copied norm orig) := by
  rw [copied?, copied]
  cases last : map.segments.head? with
  | none => simp
  | some segment =>
      obtain ⟨_, _, extends_⟩ := segment.readings_defined norm (fits segment last)
      simp [extends_]

theorem fits_copied (orig width : Nat) : Fits (map.copied norm orig) (norm + width) := by
  obtain ⟨segment, head, before, _⟩ := InPlace.copied_head map norm orig fits
  intro other found
  cases head.symm.trans found
  exact Nat.le_add_right_of_le before

theorem fits_copiedBytes (orig count : Nat) :
    Fits (InPlace.Draft.copiedBytes map norm orig count) (norm + count) := by
  induction count with
  | zero => exact fits
  | succ count ih => exact fits_copied ih (orig + count) 1

theorem recordAll_copies (orig count : Nat) :
    map.recordAll? norm ((List.range count).map fun i => .copied (orig + i)) =
      some (InPlace.Draft.copiedBytes map norm orig count) := by
  induction count with
  | zero => rfl
  | succ count ih =>
      have next := copied_defined (fits_copiedBytes fits orig count) (orig + count)
      rw [List.range_succ, List.map_append, recordAll_append, ih]
      simpa [recordAll?, record?, InPlace.Draft.copiedBytes] using next

-- The bytes of a piece are noted one by one where the map takes the piece as a whole.
theorem recordAll_piece (piece : Piece) :
    map.recordAll? norm piece.byteOrigins = some (map.add norm piece) ∧
      Fits (map.add norm piece) (norm + piece.char.utf8Size) := by
  cases piece with
  | comment start stop =>
      refine ⟨rfl, ?_⟩
      rintro _ ⟨⟩
      exact Nat.le_add_right _ _
  | copied char offset =>
      refine ⟨?_, fits_copied fits offset _⟩
      obtain ⟨more, wide⟩ := Nat.exists_eq_succ_of_ne_zero char.utf8Size_pos.ne'
      rw [Piece.byteOrigins, recordAll_copies fits, wide]
      exact congrArg some (InPlace.copiedBytes_char map norm offset more fits)

theorem recordAll_pieces (pieces : List Piece) :
    map.recordAll? norm (pieces.flatMap Piece.byteOrigins) = some (map.addAll norm pieces) := by
  induction pieces generalizing map norm with
  | nil => rfl
  | cons piece pieces ih =>
      obtain ⟨noted, further⟩ := recordAll_piece fits piece
      have width : piece.byteOrigins.length = piece.char.utf8Size := by
        rw [← Piece.byteSpans_length, ← Piece.byteOrigins_span, List.length_map]
      rw [List.flatMap_cons, recordAll_append, noted, width]
      exact ih further

end Recording

section Lookup

variable (pieces : List Piece)

theorem recordAll_ofPieces :
    empty.recordAll? 0 (pieces.flatMap Piece.byteOrigins) = some (ofPieces pieces) :=
  recordAll_pieces (fun segment none => by cases none) pieces

theorem norms_increase : ((ofPieces pieces).segments.reverse.map Segment.norm).Pairwise (· < ·) := by
  rw [List.pairwise_map, List.pairwise_reverse]
  exact ofPieces_descends pieces

theorem norms_start (filled : pieces ≠ []) :
    ((ofPieces pieces).segments.reverse.map Segment.norm).head? = some 0 := by
  have sorted := norms_increase pieces
  have known : (pieces.flatMap Piece.byteSpans) ≠ [] := by
    cases pieces with
    | nil => contradiction
    | cons piece pieces =>
        have wide := piece.char.utf8Size_pos
        rw [← Piece.byteSpans_length] at wide
        simp [List.ne_nil_of_length_pos wide]
  obtain ⟨span, spans, same⟩ := List.exists_cons_of_ne_nil known
  obtain ⟨segment, found, _⟩ := (records_ofPieces pieces).found 0 span (by simp [same])
  have least : segment.norm = 0 := by simpa using List.find?_some found
  have member : 0 ∈ (ofPieces pieces).segments.reverse.map Segment.norm := by
    rw [← least]
    exact List.mem_map_of_mem (List.mem_reverse.mpr (List.mem_of_find?_eq_some found))
  cases norms : (ofPieces pieces).segments.reverse.map Segment.norm with
  | nil => simp [norms] at member
  | cons norm later =>
      rw [norms] at member sorted
      rcases List.mem_cons.mp member with first | below
      · simp [← first]
      · exact absurd ((List.pairwise_cons.mp sorted).1 0 below) (Nat.not_lt_zero norm)

variable (position : Nat)

theorem lookup_defined :
    (ofPieces pieces).startOf? position = some ((ofPieces pieces).startOf position) ∧
      (ofPieces pieces).endOf? position = some ((ofPieces pieces).endOf position) := by
  have searched : (ofPieces pieces).bisect? position = some ((ofPieces pieces).segment? position) :=
    segment_halving pieces position
  rw [startOf?, endOf?, startOf, endOf, searched]
  cases found : (ofPieces pieces).segment? position with
  | none => exact ⟨rfl, rfl⟩
  | some segment =>
      have reached : segment.norm ≤ position := by simpa using List.find?_some found
      obtain ⟨start, stop, _⟩ := segment.readings_defined position reached
      exact ⟨start, stop⟩

end Lookup

end OffsetMap

def ByteOrigin.Yields (content : Text) (byte : UInt8) : ByteOrigin → Prop
  | .copied offset => (Utf8.encode content)[offset]? = some byte
  | .comment start stop => byte = ' '.toUInt8 ∧ ∃ own, Span.Cuts ⟨start, stop⟩ content own ∧
      own.IsComment ∧ (Utf8.encode own).head? = some '/'.toUInt8

theorem Text.IsComment.slash {text : Text} (comment : text.IsComment) :
    (Utf8.encode text).head? = some '/'.toUInt8 := by
  rcases comment with ⟨gap, body, _, rfl⟩ | ⟨opening, gap, ⟨inner, body, _, rfl⟩, _, rfl⟩
  · rfl
  · rfl

theorem Piece.yields (content : Text) (piece : Piece) (stands : piece.StandsIn content) :
    List.Forall₂ (fun origin byte => origin.Yields content byte) piece.byteOrigins
      (String.utf8EncodeChar piece.char) := by
  cases piece with
  | comment start stop =>
      obtain ⟨own, cuts, comment⟩ := stands
      exact .cons ⟨rfl, own, cuts, comment, comment.slash⟩ .nil
  | copied char offset =>
      obtain ⟨before, after, rfl, same⟩ := stands
      have start : offset = (Utf8.encode before).length := by
        rw [Utf8.encode_length]
        exact congrArg Span.start same
      refine List.forall₂_iff_get.mpr ⟨by simp [byteOrigins, Piece.char], ?_⟩
      intro i _ inside
      have own : i < (String.utf8EncodeChar char).length := inside
      simp [byteOrigins, ByteOrigin.Yields, start, Piece.char, List.getElem?_append_right,
        List.getElem?_append_left own]

theorem Normalized.yields (content : Text) (pieces : List Piece)
    (stand : ∀ piece ∈ pieces, piece.StandsIn content) :
    List.Forall₂ (fun origin byte => origin.Yields content byte) (pieces.flatMap Piece.byteOrigins)
      (Utf8.encode (pieces.map Piece.char)) := by
  induction pieces with
  | nil => exact .nil
  | cons piece pieces ih =>
      obtain ⟨own, later⟩ := List.forall_mem_cons.mp stand
      exact List.rel_append (Piece.yields content piece own) (ih later)

namespace Lexed

theorem offsets_by_byte (serial : Nat) (name content : Text) :
    let lexed := ofText serial name content
    let bytes := Utf8.encode lexed.source.normalized
    let origins := (Normalized.ofText content).byteOrigins
    let offsets := lexed.source.offsets
    let norms := offsets.segments.reverse.map Segment.norm
    OffsetMap.empty.recordAll? 0 origins = some offsets ∧
    (bytes ≠ [] → norms.head? = some 0) ∧ norms.Pairwise (· < ·) ∧
    (∀ position, offsets.startOf? position = some (offsets.startOf position) ∧
      offsets.endOf? position = some (offsets.endOf position)) ∧
    origins.length = bytes.length ∧
    ∀ i, i < bytes.length → ∃ origin byte, origins[i]? = some origin ∧ bytes[i]? = some byte ∧
      offsets.startOf i = origin.span.start ∧ offsets.endOf i = origin.span.stop ∧
      origin.Yields content byte := by
  intro lexed bytes origins offsets norms
  have yields : List.Forall₂ (fun origin byte => origin.Yields content byte) origins bytes :=
    Normalized.yields content _ (Normalized.ofText_stands content)
  have records : offsets.Records (origins.map ByteOrigin.span) := by
    rw [Normalized.byteOrigins_span]
    exact OffsetMap.records_ofPieces _
  refine ⟨OffsetMap.recordAll_ofPieces _, ?_, OffsetMap.norms_increase _,
    OffsetMap.lookup_defined _, yields.length_eq, ?_⟩
  · intro filled
    apply OffsetMap.norms_start
    intro none
    exact filled (by simp [bytes, lexed, ofText, Normalized.text, none, Utf8.encode])
  · intro i inside
    have within : i < origins.length := yields.length_eq ▸ inside
    have spans : (origins.map ByteOrigin.span)[i]? = some origins[i].span := by simp [within]
    exact ⟨origins[i], bytes[i], List.getElem?_eq_getElem within, List.getElem?_eq_getElem inside,
      OffsetMap.startOf_of_records _ _ records i _ spans,
      OffsetMap.endOf_of_records _ _ records i _ spans, yields.get within inside⟩

theorem offsets_by_byte_sample :
    let content := "\u00e9\\\nb/**/c".toList
    let lexed := ofText 0 "x.c".toList content
    let bytes := Utf8.encode lexed.source.normalized
    let offsets := lexed.source.offsets
    (bytes ≠ [] ∧ (offsets.segments.reverse.map Segment.norm).head? = some 0) ∧
    3 < bytes.length ∧ (Normalized.ofText content).byteOrigins[3]? = some (.comment 5 9) ∧
    offsets.startOf 3 = 5 ∧ offsets.endOf 3 = 9 ∧
    ∃ own, Span.Cuts ⟨5, 9⟩ content own ∧ (Utf8.encode own).head? = some '/'.toUInt8 := by
  intro content lexed bytes offsets
  have inside : 3 < bytes.length := by decide +kernel
  have filled : bytes ≠ [] := List.ne_nil_of_length_pos (Nat.zero_lt_of_lt inside)
  have comment : (Normalized.ofText content).byteOrigins[3]? = some (.comment 5 9) := by
    decide +kernel
  obtain ⟨_, starts, _, _, _, located⟩ := offsets_by_byte 0 "x.c".toList content
  obtain ⟨origin, byte, found, _, start, stop, yields⟩ := located 3 inside
  cases comment.symm.trans found
  obtain ⟨_, own, cuts, _, slash⟩ := yields
  exact ⟨⟨filled, starts filled⟩, inside, comment, start, stop, own, cuts, slash⟩

end Lexed

end CPreprocessor
