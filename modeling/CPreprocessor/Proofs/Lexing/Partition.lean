import Mathlib.Data.List.TakeWhile
import CPreprocessor.Proofs.Lexing.Tiling
import CPreprocessor.Proofs.Lexing.InPlace.Normalizer
import CPreprocessor.Proofs.Lexing.InPlace.Scanner

/-!
The tokens partition the normalized text. Every text can be lexed: going over its bytes, the
normalizer and the scanner cut between characters only, and what they cut are the tokens, one right
after the other from the beginning of the normalized text to its end. So a token's text, the bytes
behind it and its location are always there to be had.
-/

set_option autoImplicit false

namespace CPreprocessor

def Span.Cuts (span : Span) (text own : Text) : Prop :=
  ∃ before after, text = before ++ (own ++ after) ∧
    span = ⟨before.byteLength, before.byteLength + own.byteLength⟩

section

variable {span : Span} {text own : Text} (cuts : span.Cuts text own)
include cuts

theorem Span.Cuts.slice : text.slice? span.start span.stop = some own := by
  obtain ⟨before, after, rfl, rfl⟩ := cuts
  exact Text.slice_append before own after

theorem Span.Cuts.start_isBoundary : text.isBoundary span.start = true := by
  obtain ⟨before, after, rfl, rfl⟩ := cuts
  rw [Text.isBoundary, Text.dropBytes_append]
  rfl

theorem Span.Cuts.stop_isBoundary : text.isBoundary span.stop = true := by
  obtain ⟨before, after, rfl, rfl⟩ := cuts
  rw [Text.isBoundary, ← List.append_assoc, ← Text.byteLength_append, Text.dropBytes_append]
  rfl

end

-- A line begins at or before every position; the last such line is the position's own.
theorem SourceFile.locate_make (name content : Text) (position : Nat) :
    ∃ start, ((make name content).startsUpTo position).getLast? = some start ∧ start ≤ position ∧
      (make name content).locate position =
        ⟨name, ((make name content).startsUpTo position).length, position - start + 1⟩ := by
  have filled : (make name content).startsUpTo position ≠ [] := by
    simp [startsUpTo, make]
  have last := List.getLast?_eq_some_getLast filled
  refine ⟨_, last, ?_, ?_⟩
  · have among := List.mem_takeWhile_imp (List.getLast_mem filled)
    exact of_decide_eq_true among
  · rw [locate, lineColumn, List.getLastD_eq_getLast?, last]
    rfl

namespace Token

structure Readable (token : Token) : Prop where
  filled : token.span.start < token.span.stop
  start : token.source.normalized.isBoundary token.span.start = true
  stop : token.source.normalized.isBoundary token.span.stop = true
  text : token.source.normalized.slice? token.span.start token.span.stop = some token.text
  originStart : token.source.file.content.isBoundary token.origin.start = true
  originStop : token.source.file.content.isBoundary token.origin.stop = true
  originText : token.source.file.content.slice? token.origin.start token.origin.stop =
    some token.originText
  location : ∃ start, (token.source.file.startsUpTo token.origin.start).getLast? = some start ∧
    start ≤ token.origin.start ∧
    token.location = ⟨token.file, (token.source.file.startsUpTo token.origin.start).length,
      token.origin.start - start + 1⟩

theorem place_cuts (source : Source) (before : Text) (lexemes : List Lexeme)
    (whole : source.normalized = before ++ lexemes.flatMap Lexeme.text) :
    ∀ token ∈ place source before.byteLength lexemes, token.span.Cuts source.normalized token.text := by
  induction lexemes generalizing before with
  | nil => simp [place]
  | cons lexeme lexemes ih =>
      rw [List.flatMap_cons] at whole
      refine List.forall_mem_cons.mpr ⟨⟨before, _, whole, rfl⟩, ?_⟩
      have later := ih (before ++ lexeme.text) (by rw [whole, List.append_assoc])
      rwa [Text.byteLength_append] at later

theorem place_filled (source : Source) (position : Nat) (lexemes : List Lexeme)
    (filled : ∀ lexeme ∈ lexemes, lexeme.text ≠ []) :
    ∀ token ∈ place source position lexemes, token.span.start < token.span.stop := by
  induction lexemes generalizing position with
  | nil => simp [place]
  | cons lexeme lexemes ih =>
      obtain ⟨own, later⟩ := List.forall_mem_cons.mp filled
      exact List.forall_mem_cons.mpr
        ⟨Nat.lt_add_of_pos_right (Text.byteLength_pos _ own), ih _ later⟩

theorem place_head (source : Source) (position : Nat) (lexemes : List Lexeme) :
    ∀ token, (place source position lexemes).head? = some token → token.span.start = position := by
  cases lexemes with
  | nil => simp [place]
  | cons lexeme lexemes => simp [place]

theorem place_chain (source : Source) (position : Nat) (lexemes : List Lexeme) :
    (place source position lexemes).IsChain fun first second =>
      first.span.stop = second.span.start := by
  induction lexemes generalizing position with
  | nil => exact .nil
  | cons lexeme lexemes ih =>
      exact List.isChain_cons.mpr
        ⟨fun token next => (place_head source _ lexemes token next).symm, ih _⟩

theorem place_last (source : Source) (position : Nat) (lexemes : List Lexeme) :
    ∀ token, (place source position lexemes).getLast? = some token →
      token.span.stop = position + Text.byteLength (lexemes.flatMap Lexeme.text) := by
  induction lexemes generalizing position with
  | nil => simp [place]
  | cons lexeme lexemes ih =>
      intro token last
      rw [List.flatMap_cons, Text.byteLength_append, ← Nat.add_assoc]
      cases lexemes with
      | nil =>
          cases last
          rfl
      | cons next lexemes =>
          rw [place, place, List.getLast?_cons_cons] at last
          exact ih _ token last

@[simp] theorem place_texts (source : Source) (position : Nat) (lexemes : List Lexeme) :
    (place source position lexemes).flatMap Token.text = lexemes.flatMap Lexeme.text := by
  have same := congrArg (List.flatMap Lexeme.text) (place_lexemes source position lexemes)
  rwa [List.flatMap_map] at same

theorem tile_cuts (content before text after : Text) (tokens : List Token)
    (whole : content = before ++ (text ++ after)) (tile : Tile before.byteLength text tokens) :
    ∀ token ∈ tokens, token.origin.Cuts content token.originText := by
  induction tokens generalizing before text with
  | nil => simp
  | cons token tokens ih =>
      obtain ⟨gap, rest, rfl, _, _, at_, tail⟩ := tile
      have split : content = before ++ gap ++ (token.originText ++ (rest ++ after)) := by
        simp [whole, List.append_assoc]
      have stop : token.origin.stop = Text.byteLength (before ++ gap ++ token.originText) := by
        rw [at_, Text.byteLength_append, Text.byteLength_append]
      rw [stop] at tail
      refine List.forall_mem_cons.mpr ⟨⟨before ++ gap, rest ++ after, split, ?_⟩, ih _ rest ?_ tail⟩
      · rw [at_, Text.byteLength_append]
      · rw [split, List.append_assoc (before ++ gap)]

end Token

namespace Lexed

theorem tokens_partition (serial : Nat) (name content : Text) :
    let lexed := ofText serial name content
    InPlace.normalize? content =
      some (lexed.source.normalized, lexed.source.offsets, lexed.openComment) ∧
    InPlace.tokens? lexed.source (.start lexed.source.normalized) = some lexed.tokens ∧
    (∀ token, lexed.tokens.head? = some token → token.span.start = 0) ∧
    lexed.tokens.IsChain (fun first second => first.span.stop = second.span.start) ∧
    (∀ token, lexed.tokens.getLast? = some token →
      token.span.stop = lexed.source.normalized.byteLength) ∧
    lexed.tokens.flatMap Token.text = lexed.source.normalized ∧
    ∀ token ∈ lexed.tokens, token.source = lexed.source ∧ token.Readable := by
  intro lexed
  have texts := Lexeme.scan_append lexed.source.normalized
  obtain ⟨kept, rest, whole, _, tile⟩ := ofText_tile serial name content
  have origins := Token.tile_cuts content [] kept rest lexed.tokens whole tile
  refine ⟨InPlace.normalize_start content, InPlace.tokens_start _ _, Token.place_head _ 0 _,
    Token.place_chain _ 0 _, ?_, ?_, ?_⟩
  · intro token last
    rw [Token.place_last _ 0 _ token last, Nat.zero_add]
    exact congrArg Text.byteLength texts
  · exact (Token.place_texts _ 0 _).trans texts
  · intro token member
    have source : token.source = lexed.source := Token.place_source _ _ _ token member
    have cuts := Token.place_cuts lexed.source [] _ texts.symm token member
    have origin := origins token member
    have own : content = token.source.file.content := by
      rw [source]
      rfl
    rw [← source] at cuts
    rw [own] at origin
    refine ⟨source, ⟨Token.place_filled _ _ _ (Lexeme.scan_filled _) token member,
      cuts.start_isBoundary, cuts.stop_isBoundary, cuts.slice, origin.start_isBoundary,
      origin.stop_isBoundary, origin.slice, ?_⟩⟩
    have located := SourceFile.locate_make name content token.origin.start
    rw [Token.location, Token.file, source]
    exact located

end Lexed

end CPreprocessor
