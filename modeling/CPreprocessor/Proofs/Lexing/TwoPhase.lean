import CPreprocessor.Proofs.Lexing.Splices

/-!
Normalizing in two phases: first every splice is deleted, then comments are stripped from what is
kept, with no thought of splices. The scanner, which does both in one pass, gives the same text and
finds the same comment open.
-/

set_option autoImplicit false

namespace CPreprocessor.TwoPhase

-- A character that is no part of a splice, where it stands, and whether a line feed is right after
-- it in the original text.
structure Kept where
  char : Char
  offset : Nat
  beforeFeed : Bool

def Kept.endsLine (kept : Kept) : Bool :=
  kept.char == '\n' || (kept.char == '\r' && kept.beforeFeed)

def keep (offset : Nat) : Text → List Kept
  | [] => []
  | '\\' :: '\n' :: rest => keep (offset + 2) rest
  | '\\' :: '\r' :: '\n' :: rest => keep (offset + 3) rest
  | c :: rest => ⟨c, offset, rest.head? == some '\n'⟩ :: keep (offset + c.utf8Size) rest

structure Stripped where
  text : Text
  openComment : Option Nat

def Stripped.prepend (text : Text) (stripped : Stripped) : Stripped :=
  { stripped with text := text ++ stripped.text }

def afterBlock : List Kept → Option (List Kept)
  | [] => none
  | star :: rest =>
      match rest with
      | [] => none
      | slash :: after =>
          if star.char = '*' ∧ slash.char = '/' then some after else afterBlock rest

def literal (quote : Char) : List Kept → Text × List Kept
  | [] => ([], [])
  | kept :: rest =>
      if kept.endsLine then ([], kept :: rest)
      else if kept.char = quote then ([kept.char], rest)
      else if kept.char = '\\' then
        match rest with
        | [] => ([kept.char], [])
        | escaped :: after =>
            if escaped.endsLine then ([kept.char], escaped :: after)
            else
              let tail := literal quote after
              (kept.char :: escaped.char :: tail.1, tail.2)
      else
        let tail := literal quote rest
        (kept.char :: tail.1, tail.2)

theorem afterBlock_lt (kept after : List Kept) (found : afterBlock kept = some after) :
    after.length < kept.length := by
  induction kept with
  | nil => cases found
  | cons star rest ih =>
      unfold afterBlock at found
      cases rest with
      | nil => cases found
      | cons slash rest =>
          dsimp only at found
          by_cases closes : star.char = '*' ∧ slash.char = '/'
          · rw [if_pos closes] at found
            cases found
            simp only [List.length_cons]
            omega
          · rw [if_neg closes] at found
            exact Nat.lt_succ_of_lt (ih found)

theorem literal_le (quote : Char) (kept : List Kept) :
    (literal quote kept).2.length ≤ kept.length := by
  fun_induction literal quote kept with
  | case1 => exact Nat.le_refl _
  | case2 kept rest _ => exact Nat.le_refl _
  | case3 kept rest _ _ => exact Nat.le_succ _
  | case4 kept _ _ _ => exact Nat.zero_le _
  | case5 kept _ _ _ escaped after _ => exact Nat.le_succ _
  | case6 kept _ _ _ escaped after _ tail ih =>
      exact Nat.le_trans ih (Nat.le_trans (Nat.le_succ _) (Nat.le_succ _))
  | case7 kept rest _ _ _ tail ih => exact Nat.le_trans ih (Nat.le_succ _)

def strip : List Kept → Stripped
  | [] => ⟨[], none⟩
  | kept :: rest =>
      if kept.char = '/' then
        match rest with
        | [] => ⟨[kept.char], none⟩
        | next :: body =>
            if next.char = '/' then (strip (body.dropWhile (!·.endsLine))).prepend [' ']
            else if next.char = '*' then
              match _closed : afterBlock body with
              | some after => (strip after).prepend [' ']
              | none => ⟨[], some kept.offset⟩
            else (strip (next :: body)).prepend [kept.char]
      else if CharClass.isQuote kept.char then
        let tail := literal kept.char rest
        (strip tail.2).prepend (kept.char :: tail.1)
      else (strip rest).prepend [kept.char]
termination_by kept => kept.length
decreasing_by
  · have dropped := (List.dropWhile_sublist (l := body) (fun kept => !kept.endsLine)).length_le
    simp only [List.length_cons]
    omega
  · have shorter := afterBlock_lt body after _closed
    simp only [List.length_cons]
    omega
  · simp
  · have shorter := literal_le kept.char rest
    simp only [List.length_cons]
    omega
  · simp

theorem strip_slash (kept : Kept) (rest : List Kept) (slash : kept.char = '/') :
    strip (kept :: rest) =
      match rest with
      | [] => ⟨['/'], none⟩
      | next :: body =>
          if next.char = '/' then (strip (body.dropWhile (!·.endsLine))).prepend [' ']
          else if next.char = '*' then
            match afterBlock body with
            | some after => (strip after).prepend [' ']
            | none => ⟨[], some kept.offset⟩
          else (strip (next :: body)).prepend ['/'] := by
  conv => lhs; unfold strip
  rw [if_pos slash]
  cases rest with
  | nil => rw [slash]
  | cons next body =>
      dsimp only
      rw [slash]
      split
      · rfl
      · split
        · split <;> simp only [*]
        · rfl

theorem strip_quote (kept : Kept) (rest : List Kept) (quote : CharClass.isQuote kept.char = true)
    (plain : kept.char ≠ '/') :
    strip (kept :: rest) = (strip (literal kept.char rest).2).prepend
      (kept.char :: (literal kept.char rest).1) := by
  conv => lhs; unfold strip
  rw [if_neg plain, if_pos quote]

theorem strip_plain (kept : Kept) (rest : List Kept) (noQuote : CharClass.isQuote kept.char = false)
    (plain : kept.char ≠ '/') : strip (kept :: rest) = (strip rest).prepend [kept.char] := by
  conv => lhs; unfold strip
  rw [if_neg plain, if_neg (by simp [noQuote])]

theorem strip_endsLine (kept : Kept) (rest : List Kept) (ends : kept.endsLine = true) :
    strip (kept :: rest) = (strip rest).prepend [kept.char] := by
  have feed : kept.char = '\n' ∨ kept.char = '\r' := by
    simp only [Kept.endsLine, Bool.or_eq_true, Bool.and_eq_true, beq_iff_eq] at ends
    exact ends.imp id And.left
  rcases feed with same | same
  · exact strip_plain kept rest (by rw [same]; decide) (by rw [same]; decide)
  · exact strip_plain kept rest (by rw [same]; decide) (by rw [same]; decide)

theorem afterBlock_plain (kept : Kept) (rest : List Kept) (plain : kept.char ≠ '*') :
    afterBlock (kept :: rest) = afterBlock rest := by
  cases rest with
  | nil => rfl
  | cons next rest => rw [afterBlock, if_neg (fun both => plain both.1)]

theorem afterBlock_star (star kept : Kept) (rest : List Kept) (isStar : star.char = '*') :
    afterBlock (star :: kept :: rest) =
      if kept.char = '/' then some rest else afterBlock (kept :: rest) := by
  conv => lhs; unfold afterBlock
  simp [isStar]

def Stripped.ofNormalized (normalized : Normalized) : Stripped :=
  ⟨normalized.text, normalized.openComment⟩

def closeBlock (start : Nat) : Option (List Kept) → Stripped
  | some after => (strip after).prepend [' ']
  | none => ⟨[], some start⟩

def closeLiteral (tail : Text × List Kept) : Stripped := (strip tail.2).prepend tail.1

-- What stripping gives for the characters that are left, when those before them have led the scanner
-- into a mode.
def meaning : Mode → List Kept → Stripped
  | .code, kept => strip kept
  | .slash start, kept => strip (⟨'/', start, false⟩ :: kept)
  | .lineComment _, kept => (strip (kept.dropWhile (!·.endsLine))).prepend [' ']
  | .blockComment start, kept => closeBlock start (afterBlock kept)
  | .blockStar start, kept => closeBlock start (afterBlock (⟨'*', 0, false⟩ :: kept))
  | .literal quote false, kept => closeLiteral (literal quote kept)
  | .literal _ true, [] => ⟨[], none⟩
  | .literal quote true, escaped :: after =>
      if escaped.endsLine then strip (escaped :: after)
      else (closeLiteral (literal quote after)).prepend [escaped.char]

theorem meaning_nil (mode : Mode) (offset : Nat) :
    meaning mode [] = .ofNormalized (mode.finish offset) := by
  cases mode with
  | code => simp [meaning, strip, Stripped.ofNormalized, Mode.finish, Normalized.text]
  | slash start => simp [meaning, strip, Stripped.ofNormalized, Mode.finish, Normalized.text, Piece.char]
  | lineComment start =>
      simp [meaning, strip, Stripped.prepend, Stripped.ofNormalized, Mode.finish, Normalized.text,
        Piece.char]
  | blockComment start => rfl
  | blockStar start => rfl
  | literal quote escaped =>
      cases escaped <;>
        simp [meaning, closeLiteral, literal, strip, Stripped.prepend, Stripped.ofNormalized,
          Mode.finish, Normalized.text]

theorem meaning_code (kept : Kept) (rest : List Kept) :
    meaning .code (kept :: rest) =
      (meaning (Mode.codeStep kept.offset kept.char).2 rest).prepend
        ((Mode.codeStep kept.offset kept.char).1.map Piece.char) := by
  unfold Mode.codeStep
  by_cases slash : kept.char = '/'
  · rw [if_pos slash, meaning, meaning, strip_slash kept rest slash,
      strip_slash ⟨'/', kept.offset, false⟩ rest rfl]
    rfl
  · rw [if_neg slash]
    by_cases quote : CharClass.isQuote kept.char = true
    · rw [if_pos quote, meaning, strip_quote kept rest quote slash]
      rfl
    · rw [if_neg quote, meaning, strip_plain kept rest (by simpa using quote) slash]
      rfl

theorem meaning_block (start : Nat) (kept : Kept) (rest : List Kept) :
    closeBlock start (afterBlock (kept :: rest)) =
      meaning (Mode.blockStep start kept.char) rest := by
  unfold Mode.blockStep
  by_cases star : kept.char = '*'
  · rw [if_pos star, meaning]
    cases rest with
    | nil => rfl
    | cons next rest =>
        rw [afterBlock_star kept next rest star, afterBlock_star ⟨'*', 0, false⟩ next rest rfl]
  · rw [if_neg star, meaning, afterBlock_plain kept rest star]

theorem meaning_literal (quote : Char) (kept : Kept) (rest : List Kept) :
    meaning (.literal quote false) (kept :: rest) =
      (meaning (if kept.endsLine then .code else if kept.char = quote then .code
        else .literal quote (kept.char = '\\')) rest).prepend [kept.char] := by
  rw [meaning]
  conv => lhs; unfold literal
  by_cases ends : kept.endsLine = true
  · rw [if_pos ends, if_pos ends, closeLiteral, strip_endsLine kept rest ends]
    rfl
  · by_cases closes : kept.char = quote
    · rw [if_neg ends, if_neg ends, if_pos closes, if_pos closes]
      rfl
    · by_cases escape : kept.char = '\\'
      · simp only [if_neg ends, if_neg closes, if_pos escape, decide_eq_true escape]
        cases rest with
        | nil => simp [closeLiteral, meaning, strip, Stripped.prepend]
        | cons escaped after =>
            by_cases broken : escaped.endsLine = true
            · simp only [if_pos broken, meaning]
              rfl
            · simp only [if_neg broken, meaning]
              rfl
      · simp only [if_neg ends, if_neg closes, if_neg escape, decide_eq_false escape]
        rfl

theorem meaning_step (mode : Mode) (kept : Kept) (rest : List Kept) :
    meaning mode (kept :: rest) =
      (meaning (mode.step kept.endsLine kept.offset kept.char).2 rest).prepend
        ((mode.step kept.endsLine kept.offset kept.char).1.map Piece.char) := by
  cases mode with
  | code => exact meaning_code kept rest
  | slash start =>
      rw [meaning, strip_slash ⟨'/', start, false⟩ (kept :: rest) rfl]
      dsimp only [Mode.step]
      by_cases line : kept.char = '/'
      · rw [if_pos line, if_pos line]
        rfl
      · by_cases block : kept.char = '*'
        · rw [if_neg line, if_neg line, if_pos block, if_pos block, meaning]
          cases afterBlock rest <;> rfl
        · rw [if_neg line, if_neg line, if_neg block, if_neg block]
          have after := meaning_code kept rest
          rw [meaning] at after
          rw [after]
          rfl
  | lineComment start =>
      dsimp only [Mode.step, meaning]
      by_cases ends : kept.endsLine = true
      · rw [if_pos ends, List.dropWhile_cons_of_neg (by simp [ends]), strip_endsLine kept rest ends]
        rfl
      · rw [if_neg ends, List.dropWhile_cons_of_pos (by simpa using ends)]
        rfl
  | blockComment start => exact meaning_block start kept rest
  | blockStar start =>
      rw [meaning, afterBlock_star ⟨'*', 0, false⟩ kept rest rfl]
      dsimp only [Mode.step]
      by_cases closes : kept.char = '/'
      · rw [if_pos closes, if_pos closes]
        rfl
      · rw [if_neg closes, if_neg closes]
        exact meaning_block start kept rest
  | literal quote escaped =>
      cases escaped with
      | false => exact meaning_literal quote kept rest
      | true =>
          dsimp only [Mode.step, meaning]
          by_cases ends : kept.endsLine = true
          · rw [if_pos ends, if_pos ends, strip_endsLine kept rest ends]
            rfl
          · rw [if_neg ends, if_neg ends, if_pos rfl]
            rfl

theorem atLineEnd_keep (c : Char) (offset : Nat) (rest : Text) :
    Text.atLineEnd (c :: rest) = Kept.endsLine ⟨c, offset, rest.head? == some '\n'⟩ := by
  rw [Bool.eq_iff_iff, Text.atLineEnd_iff]
  simp [Kept.endsLine]

theorem keep_splice (offset : Nat) (splice rest : Text) (single : Splice splice) :
    keep offset (splice ++ rest) = keep (offset + splice.byteLength) rest := by
  cases single with
  | feed => rfl
  | returnFeed => rfl

theorem keep_char (offset : Nat) (c : Char) (rest : Text)
    (kept : Text.startsSplice (c :: rest) = false) :
    keep offset (c :: rest) =
      ⟨c, offset, rest.head? == some '\n'⟩ :: keep (offset + c.utf8Size) rest := by
  apply keep.eq_4
  · intro tail isBackslash feed
    rw [isBackslash, feed] at kept
    cases kept
  · intro tail isBackslash returnFeed
    rw [isBackslash, returnFeed] at kept
    cases kept

theorem scan_meaning (mode : Mode) (offset : Nat) (text : Text) :
    Stripped.ofNormalized (Normalized.scan mode offset text) = meaning mode (keep offset text) := by
  induction text using Text.splice_induction generalizing mode offset with
  | nil => exact (meaning_nil mode offset).symm
  | splice splice rest single ih =>
      rw [Normalized.scan_splice mode offset splice rest single,
        keep_splice offset splice rest single]
      exact ih mode _
  | char c rest kept ih =>
      rw [Normalized.scan_char mode offset c rest kept, keep_char offset c rest kept, meaning_step,
        ← atLineEnd_keep c offset rest, ← ih]
      simp [Stripped.ofNormalized, Stripped.prepend, Normalized.prepend, Normalized.text]

theorem ofText_strip (text : Text) :
    (Normalized.ofText text).text = (strip (keep 0 text)).text ∧
      (Normalized.ofText text).openComment = (strip (keep 0 text)).openComment := by
  have same := scan_meaning .code 0 text
  rw [meaning] at same
  exact ⟨congrArg Stripped.text same, congrArg Stripped.openComment same⟩

end CPreprocessor.TwoPhase
