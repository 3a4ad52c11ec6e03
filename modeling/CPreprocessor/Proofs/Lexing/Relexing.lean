import CPreprocessor.Proofs.Lexing.Cuts

/-!
Lexing a token's own text again. Whatever stood around a token, the text that it comes from, with
its splices and comments, lexes to that token and nothing else.
-/

set_option autoImplicit false

namespace CPreprocessor

def Span.shift (distance : Nat) (span : Span) : Span :=
  ⟨span.start + distance, span.stop + distance⟩

theorem Span.hull_shift (distance : Nat) (first : Span) (more : List Span) :
    (first.shift distance).hull (more.map (Span.shift distance)) =
      (first.hull more).shift distance := by
  induction more generalizing first with
  | nil => rfl
  | cons next more ih => exact ih ⟨first.start, next.stop⟩

namespace Piece

def shift (distance : Nat) : Piece → Piece
  | .copied char offset => .copied char (offset + distance)
  | .comment start stop => .comment (start + distance) (stop + distance)

theorem char_shift (distance : Nat) (piece : Piece) : (piece.shift distance).char = piece.char := by
  cases piece <;> rfl

theorem origin_shift (distance : Nat) (piece : Piece) :
    (piece.shift distance).origin = piece.origin.shift distance := by
  cases piece with
  | copied char offset =>
      simp only [shift, origin, Span.shift, Span.mk.injEq, true_and]
      omega
  | comment start stop => rfl

end Piece

namespace Mode

def shift (distance : Nat) : Mode → Mode
  | .code => .code
  | .slash start => .slash (start + distance)
  | .lineComment start => .lineComment (start + distance)
  | .blockComment start => .blockComment (start + distance)
  | .blockStar start => .blockStar (start + distance)
  | .literal quote escaped => .literal quote escaped

def shiftAfter (distance : Nat) (after : List Piece × Mode) : List Piece × Mode :=
  (after.1.map (Piece.shift distance), after.2.shift distance)

theorem codeStep_shift (distance offset : Nat) (c : Char) :
    codeStep (offset + distance) c = shiftAfter distance (codeStep offset c) := by
  rw [codeStep, codeStep]
  split
  · rfl
  · split <;> rfl

theorem blockStep_shift (distance start : Nat) (c : Char) :
    blockStep (start + distance) c = (blockStep start c).shift distance := by
  rw [blockStep, blockStep]
  split <;> rfl

theorem step_shift (distance : Nat) (lineEnd : Bool) (offset : Nat) (c : Char) (mode : Mode) :
    (mode.shift distance).step lineEnd (offset + distance) c =
      shiftAfter distance (mode.step lineEnd offset c) := by
  cases mode with
  | code => exact codeStep_shift distance offset c
  | slash start =>
      rw [shift, step, step, codeStep_shift]
      split
      · rfl
      · split <;> rfl
  | lineComment start => cases lineEnd <;> rfl
  | blockComment start =>
      rw [shift, step, step, blockStep_shift]
      rfl
  | blockStar start =>
      rw [shift, step, step, blockStep_shift]
      split
      · simp [shiftAfter, Piece.shift, shift, Nat.add_right_comm]
      · rfl
  | literal quote escaped =>
      rw [shift, step, step]
      simp only [shiftAfter]
      split
      · rfl
      · split
        · rfl
        · split <;> rfl

end Mode

namespace Normalized

def shift (distance : Nat) (normalized : Normalized) : Normalized :=
  ⟨normalized.pieces.map (Piece.shift distance), normalized.openComment.map (· + distance)⟩

theorem prepend_shift (distance : Nat) (pieces : List Piece) (normalized : Normalized) :
    (normalized.prepend pieces).shift distance =
      (normalized.shift distance).prepend (pieces.map (Piece.shift distance)) := by
  simp [shift, prepend]

theorem scan_shift (distance : Nat) (mode : Mode) (offset : Nat) (text : Text) :
    scan (mode.shift distance) (offset + distance) text =
      (scan mode offset text).shift distance := by
  induction text using Text.splice_induction generalizing mode offset with
  | nil => cases mode <;> rfl
  | splice splice rest single ih =>
      rw [scan_splice _ _ splice rest single, scan_splice _ _ splice rest single,
        Nat.add_right_comm, ih]
  | char c rest kept ih =>
      rw [scan_char _ _ c rest kept, scan_char _ _ c rest kept, prepend_shift, Mode.step_shift,
        Nat.add_right_comm, ← ih]
      rfl

end Normalized

structure Lexeme.Alone (lexeme : Lexeme) (text : Text) (offset : Nat) (first : Piece)
    (more : List Piece) : Prop where
  scanned : Normalized.scan .code offset text = ⟨first :: more, none⟩
  chars : (first :: more).map Piece.char = lexeme.text
  hull : first.origin.hull (more.map Piece.origin) = ⟨offset, offset + text.byteLength⟩
  single : scan lexeme.text = [lexeme]

theorem Lexeme.alone_start (lexeme : Lexeme) (text : Text) (offset : Nat) (first : Piece)
    (more : List Piece) (alone : lexeme.Alone text offset first more) :
    ∃ first more, lexeme.Alone text 0 first more := by
  have shifted := Normalized.scan_shift offset .code 0 text
  rw [Nat.zero_add, Mode.shift, alone.scanned] at shifted
  generalize found : Normalized.scan .code 0 text = start at shifted
  obtain ⟨pieces, unclosed⟩ := start
  rw [Normalized.shift, Normalized.mk.injEq] at shifted
  cases unclosed with
  | some start => cases shifted.2
  | none =>
      cases pieces with
      | nil => cases shifted.1
      | cons begin rest =>
          obtain ⟨rfl, rfl⟩ := List.cons.inj shifted.1
          have chars := alone.chars
          have hull := alone.hull
          rw [← List.map_cons, List.map_map,
            show Piece.char ∘ Piece.shift offset = Piece.char from
              funext (Piece.char_shift offset)] at chars
          rw [List.map_map, show Piece.origin ∘ Piece.shift offset =
              Span.shift offset ∘ Piece.origin from funext (Piece.origin_shift offset),
            ← List.map_map, Piece.origin_shift, Span.hull_shift, Span.shift, Span.mk.injEq] at hull
          refine ⟨begin, rest, found, chars, ?_, alone.single⟩
          rw [show begin.origin.hull (rest.map Piece.origin) = ⟨_, _⟩ from rfl, Span.mk.injEq]
          omega

namespace Token

def Restates (token : Token) : Prop :=
  ∃ offset first more, Lexeme.Alone ⟨token.kind, token.text⟩ token.originText offset first more

theorem place_restates (source : Source) (before pieces : List Piece) (prior text : Text)
    (unclosed : Option Nat) (content : source.file.content = prior ++ text)
    (records : source.offsets.Records ((before ++ pieces).flatMap Piece.byteSpans))
    (scanned : Normalized.scan .code prior.byteLength text = ⟨pieces, unclosed⟩) :
    ∀ token ∈ place source (Text.byteLength (before.map Piece.char))
      (Lexeme.scan (pieces.map Piece.char)), token.Restates := by
  induction measured : pieces.length using Nat.strongRecOn
    generalizing before pieces prior text with
  | ind size ih =>
      intro token member
      cases pieces with
      | nil =>
          rw [List.map_nil, Lexeme.scan] at member
          cases member
      | cons first pieces =>
          obtain ⟨more, later, gap, own, tail, rfl, chars, cut⟩ :=
            Normalized.lexeme_cut _ text first pieces unclosed scanned
          have rest : (Lexeme.first first.char ((more ++ later).map Piece.char)).2 =
              later.map Piece.char := by
            have whole := Lexeme.first_append first.char ((more ++ later).map Piece.char)
            rw [← chars, ← List.map_cons, ← List.cons_append] at whole
            exact List.append_cancel_left (whole.trans List.map_append)
          have split : source.file.content = prior ++ gap ++ (own ++ tail) := by
            rw [content, cut.same, List.append_assoc]
          have origin := source.offsets.origin_group before later first more records
          rw [cut.hull, chars] at origin
          rw [List.map_cons, Lexeme.scan, place, rest] at member
          rcases List.mem_cons.mp member with rfl | further
          · have ownText : (Text.slice? (prior.byteLength + gap.byteLength)
                (prior.byteLength + gap.byteLength + own.byteLength) source.file.content).getD [] =
                  own := by
              rw [split, ← Text.byteLength_append, Text.slice_append]
              rfl
            refine ⟨prior.byteLength + gap.byteLength, first, more, ?_⟩
            rw [originText, origin, ownText]
            exact ⟨cut.alone, chars, cut.hull, Lexeme.scan_alone _ _⟩
          · have shorter : later.length < size := by
              rw [← measured, List.length_cons, List.length_append]
              omega
            apply ih _ shorter (before ++ first :: more) later (prior ++ gap ++ own) tail
            · rw [split, List.append_assoc (prior ++ gap)]
            · rw [List.append_assoc]
              exact records
            · rw [Text.byteLength_append, Text.byteLength_append]
              exact cut.after
            · rfl
            · rw [List.map_append, Text.byteLength_append, chars]
              exact further

end Token

namespace Lexed

theorem ofText_alone (serial : Nat) (name text : Text) (lexeme : Lexeme) (first : Piece)
    (more : List Piece) (alone : lexeme.Alone text 0 first more) :
    (ofText serial name text).openComment = none ∧
      ∃ token, (ofText serial name text).tokens = [token] ∧ token.kind = lexeme.kind ∧
        token.text = lexeme.text ∧ token.originText = text := by
  have normalized : Normalized.ofText text = ⟨first :: more, none⟩ := alone.scanned
  have chars : (Normalized.ofText text).text = lexeme.text := by
    rw [normalized]
    exact alone.chars
  have tokens : (ofText serial name text).tokens =
      Token.place (ofText serial name text).source 0 [lexeme] := by
    rw [← alone.single, ← chars]
    rfl
  have origin : (ofText serial name text).source.offsets.origin
      ⟨0, 0 + lexeme.text.byteLength⟩ = ⟨0, 0 + text.byteLength⟩ := by
    have whole := OffsetMap.origin_group (.ofPieces (first :: more)) [] [] first more
      (by simpa using OffsetMap.records_ofPieces (first :: more))
    have pieces : (Normalized.ofText text).pieces = first :: more := by rw [normalized]
    rw [alone.hull, alone.chars] at whole
    rw [← whole, ← pieces]
    rfl
  refine ⟨congrArg Normalized.openComment normalized, _, tokens, rfl, rfl, ?_⟩
  have slice := Text.slice_append [] text []
  rw [List.append_nil] at slice
  rw [Token.originText, origin]
  exact congrArg (Option.getD · []) slice

theorem token_relexes (serial again : Nat) (name other content : Text) (token : Token)
    (member : token ∈ (ofText serial name content).tokens) :
    (ofText again other token.originText).openComment = none ∧
      ∃ alone, (ofText again other token.originText).tokens = [alone] ∧
        alone.kind = token.kind ∧ alone.text = token.text ∧
        alone.originText = token.originText := by
  obtain ⟨offset, first, more, alone⟩ := Token.place_restates (ofText serial name content).source []
    (Normalized.ofText content).pieces [] content _ rfl (OffsetMap.records_ofPieces _) rfl token member
  obtain ⟨first, more, start⟩ := Lexeme.alone_start _ _ offset first more alone
  exact ofText_alone again other token.originText _ first more start

-- Blanks that hold a comment of each kind, the second one with a splice at its end.
theorem token_relexes_blanks :
    let lexed := ofText 0 "a.c".toList "x /*c*/ // d\\\n\ny".toList
    ∃ token ∈ lexed.tokens, token.originText = " /*c*/ // d\\\n".toList ∧
      ∃ alone, (ofText 1 [] token.originText).tokens = [alone] ∧ alone.kind = .spaceTab ∧
        alone.text = [' ', ' ', ' ', ' '] ∧ alone.originText = token.originText := by
  intro lexed
  have blanks : ∃ token ∈ lexed.tokens, token.originText = " /*c*/ // d\\\n".toList ∧
      token.kind = .spaceTab ∧ token.text = [' ', ' ', ' ', ' '] := by
    decide +kernel
  obtain ⟨token, member, origin, blank, text⟩ := blanks
  obtain ⟨_, alone, tokens, kind, same, whole⟩ := token_relexes 0 1 _ [] _ token member
  exact ⟨token, member, origin, alone, tokens, kind.trans blank, same.trans text, whole⟩

end Lexed

end CPreprocessor
