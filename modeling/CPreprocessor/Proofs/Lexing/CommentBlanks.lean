import Mathlib.Data.List.Chain
import Mathlib.Data.List.TakeWhile
import CPreprocessor.Lexing.Token
import CPreprocessor.Proofs.Lexing.ByteSpans
import CPreprocessor.Proofs.Lexing.TwoPhase

/-!
Normalizing and scanning agree on what is a literal, though one reads the original text and the
other what is left of it. So the blank of a comment is never part of a literal, or of anything else
but blanks, and outside literals no two characters are left that would start a comment.
-/

set_option autoImplicit false

namespace CPreprocessor

namespace Piece

def isComment : Piece → Bool
  | .copied _ _ => false
  | .comment _ _ => true

def at? : List Piece → Nat → Option Piece
  | [], _ => none
  | piece :: rest, position =>
      if position < piece.char.utf8Size then some piece
      else at? rest (position - piece.char.utf8Size)

def bytes (pieces : List Piece) : Nat := Text.byteLength (pieces.map Piece.char)

-- The text of the pieces as the scanner will read it, in code or in a literal with its quote and
-- whether a character is escaped.
def Reads : Option (Char × Bool) → List Piece → Prop
  | _, [] => True
  | none, .comment _ _ :: rest => Reads none rest
  | none, .copied c _ :: rest =>
      (c = '/' → ∀ next ∈ rest.head?, next.char ≠ '/' ∧ next.char ≠ '*') ∧
        Reads (if CharClass.isQuote c then some (c, false) else none) rest
  | some _, .comment _ _ :: _ => False
  | some (quote, escaped), .copied c _ :: rest =>
      if Text.atLineEnd (c :: rest.map Piece.char) then Reads none rest
      else if !escaped && c == quote then Reads none rest
      else Reads (some (quote, !escaped && c == '\\')) rest

theorem reads_plain (c : Char) (offset : Nat) (rest : List Piece)
    (noQuote : CharClass.isQuote c = false) (noSlash : c ≠ '/') (reads : Reads none rest) :
    Reads none (.copied c offset :: rest) := by
  refine ⟨fun slash => absurd slash noSlash, ?_⟩
  rwa [noQuote]

theorem reads_feed (quote : Char) (escaped : Bool) (pieces : List Piece)
    (feed : (pieces.map Piece.char).head? = some '\n') (reads : Reads (some (quote, escaped)) pieces) :
    Reads none pieces := by
  cases pieces with
  | nil => trivial
  | cons piece rest =>
      cases piece with
      | comment start stop => exact reads.elim
      | copied c offset =>
          have same : c = '\n' := by simpa [char] using feed
          subst same
          exact reads_plain '\n' offset rest rfl (by decide) reads

end Piece

namespace Mode

open Piece

-- Where in the scanner's reading a mode stands. A slash or a comment is still to be completed, and
-- is read in code.
def inside : Mode → Option (Char × Bool)
  | .literal quote escaped => some (quote, escaped)
  | _ => none

theorem codeStep_reads (offset : Nat) (c : Char) (later : List Piece)
    (reads : Reads (codeStep offset c).2.inside later) :
    Reads none ((codeStep offset c).1 ++ later) := by
  rw [codeStep] at reads ⊢
  by_cases slash : c = '/'
  · rw [if_pos slash] at reads ⊢
    exact reads
  · rw [if_neg slash] at reads ⊢
    refine ⟨fun same => absurd same slash, ?_⟩
    by_cases quote : CharClass.isQuote c = true
    · simpa [quote, inside] using reads
    · simpa [quote, inside] using reads

-- A carriage return that a splice separates from its line feed ends no line of the original text,
-- but one of the normalized text. The line feed then ends the literal for both.
theorem literal_reads (quote : Char) (escaped lineEnd : Bool) (offset : Nat) (c : Char)
    (later : List Piece)
    (feeds : lineEnd = true → Text.atLineEnd (c :: later.map Piece.char) = true)
    (feed : c = '\n' → lineEnd = true)
    (reads : Reads ((literal quote escaped).step lineEnd offset c).2.inside later) :
    Reads (some (quote, escaped)) (.copied c offset :: later) := by
  rw [Reads]
  cases lineEnd with
  | true =>
      rw [if_pos (feeds rfl)]
      simpa [step, inside] using reads
  | false =>
      have after : Reads (if !escaped && c == quote then none
          else some (quote, !escaped && c == '\\')) later := by
        cases escaped with
        | true => simpa [step, inside] using reads
        | false =>
            by_cases closes : c = quote
            · simpa [step, inside, closes] using reads
            · simpa [step, inside, closes, Bool.beq_eq_decide_eq] using reads
      by_cases closes : (!escaped && c == quote) = true
      · rw [if_pos closes] at after
        rw [if_pos closes]
        split <;> exact after
      · rw [if_neg closes] at after
        by_cases ends : Text.atLineEnd (c :: later.map Piece.char) = true
        · rw [if_pos ends]
          rcases (Text.atLineEnd_iff c _).mp ends with here | ⟨_, next⟩
          · cases feed here
          · exact reads_feed quote _ later next after
        · rw [if_neg ends, if_neg closes]
          exact after

theorem step_reads (mode : Mode) (lineEnd : Bool) (offset : Nat) (c : Char) (later : List Piece)
    (feeds : lineEnd = true → (mode.step lineEnd offset c).2 = .code →
      Text.atLineEnd (c :: later.map Piece.char) = true)
    (feed : c = '\n' → lineEnd = true)
    (reads : Reads (mode.step lineEnd offset c).2.inside later) :
    Reads mode.inside ((mode.step lineEnd offset c).1 ++ later) := by
  cases mode with
  | code => exact codeStep_reads offset c later reads
  | literal quote escaped =>
      apply literal_reads quote escaped lineEnd offset c later _ feed reads
      intro ends
      exact feeds ends (by simp [step, ends])
  | slash start =>
      rw [step] at reads ⊢
      by_cases line : c = '/'
      · rw [if_pos line] at reads ⊢
        exact reads
      · by_cases block : c = '*'
        · rw [if_neg line, if_pos block] at reads ⊢
          exact reads
        · rw [if_neg line, if_neg block] at reads ⊢
          refine ⟨?_, codeStep_reads offset c later reads⟩
          simp [codeStep, line, block, char]
  | lineComment start =>
      rw [step] at reads ⊢
      cases lineEnd with
      | false => exact reads
      | true =>
          rcases (Text.atLineEnd_iff c _).mp (feeds rfl rfl) with here | ⟨here, _⟩
          · subst here
            exact reads_plain _ offset later rfl (by decide) reads
          · subst here
            exact reads_plain _ offset later rfl (by decide) reads
  | blockComment start =>
      rw [step, blockStep] at reads ⊢
      by_cases star : c = '*'
      · rw [if_pos star] at reads
        exact reads
      · rw [if_neg star] at reads
        exact reads
  | blockStar start =>
      rw [step, blockStep] at reads ⊢
      by_cases closes : c = '/'
      · rw [if_pos closes] at reads ⊢
        exact reads
      · rw [if_neg closes] at reads ⊢
        by_cases star : c = '*'
        · rw [if_pos star] at reads
          exact reads
        · rw [if_neg star] at reads
          exact reads

end Mode

namespace Normalized

-- Where a line of the original text ends, one of the normalized text does: in code, the line feed
-- after a carriage return is copied.
theorem scan_lineEnd (offset : Nat) (c : Char) (rest : Text)
    (ends : Text.atLineEnd (c :: rest) = true) :
    Text.atLineEnd (c :: (scan .code offset rest).pieces.map Piece.char) = true := by
  apply (Text.atLineEnd_iff c _).mpr
  rcases (Text.atLineEnd_iff c rest).mp ends with feed | ⟨carriage, next⟩
  · exact Or.inl feed
  · cases rest with
    | nil => cases next
    | cons feed rest =>
        have same : feed = '\n' := by simpa using next
        subst same
        rw [scan_char .code offset '\n' rest rfl]
        exact Or.inr ⟨carriage, rfl⟩

end Normalized

namespace Lexeme

open Piece

def Visible (c : Char) : Prop := CharClass.isQuote c = false ∧ c ≠ ' '

theorem visible_name (c : Char) (continues : CharClass.isNameContinue c = true) : Visible c := by
  constructor
  · by_cases double : c = '"'
    · subst double
      cases continues
    · by_cases single : c = '\''
      · subst single
        cases continues
      · simp [CharClass.isQuote, double, single]
  · intro blank
    subst blank
    cases continues

theorem visible_digit (c : Char) (digit : c.isDigit = true) : Visible c :=
  visible_name c (by simp [CharClass.isNameContinue, Char.isAlphanum, digit])

theorem run_visible (holds : Char → Bool) (visible : ∀ c, holds c = true → Visible c) (text : Text) :
    ∀ c ∈ (run holds text).1, Visible c :=
  fun c member => visible c (List.mem_takeWhile_imp member)

theorem fraction_visible (text : Text) : ∀ c ∈ (fraction text).1, Visible c := by
  rw [fraction.eq_def]
  split
  · intro c member
    rcases List.mem_cons.mp member with same | digit
    · subst same
      exact ⟨rfl, by decide⟩
    · exact visible_digit c (List.mem_takeWhile_imp digit)
  · simp

theorem sign_visible (text : Text) : ∀ c ∈ (sign text).1, Visible c := by
  rw [sign.eq_def]
  split <;> simp [Visible, CharClass.isQuote]

theorem exponent_visible (text : Text) : ∀ c ∈ (exponent text).1, Visible c := by
  cases text with
  | nil => simp [exponent]
  | cons marker rest =>
      rw [exponent]
      by_cases marked : CharClass.isExponentMarker marker = true
      · rw [if_pos marked]
        intro c member
        rcases List.mem_cons.mp member with same | later
        · subst same
          rcases (by simpa [CharClass.isExponentMarker] using marked : c = 'e' ∨ c = 'E') with e | e
          · subst e
            exact ⟨rfl, by decide⟩
          · subst e
            exact ⟨rfl, by decide⟩
        · rcases List.mem_append.mp later with signed | digit
          · exact sign_visible rest c signed
          · exact run_visible _ visible_digit _ c digit
      · rw [if_neg marked]
        simp

theorem number_visible (text : Text) : ∀ c ∈ (number text).1, Visible c := by
  intro c member
  simp only [number, List.mem_append] at member
  rcases member with ((whole | fractional) | scaled) | suffix
  · exact run_visible _ visible_digit _ c whole
  · exact fraction_visible _ c fractional
  · exact exponent_visible _ c scaled
  · exact run_visible _ visible_name _ c suffix

theorem first_cases (c : Char) (rest : Text) :
    (CharClass.isQuote c = true ∧ (first c rest).1 = ⟨.string, c :: (literal c false rest).1⟩) ∨
    ((first c rest).1.kind = .spaceTab ∧ ∀ d ∈ (first c rest).1.text, CharClass.isSpaceTab d = true) ∨
    ∀ d ∈ (first c rest).1.text, Visible d := by
  by_cases quote : CharClass.isQuote c = true
  · exact Or.inl ⟨quote, by rw [first.eq_def, if_pos quote]⟩
  · by_cases name : CharClass.isNameStart c = true
    · right
      right
      rw [first.eq_def, if_neg quote, if_pos name]
      intro d member
      rcases List.mem_cons.mp member with same | later
      · subst same
        apply visible_name
        simp only [CharClass.isNameStart, Bool.or_eq_true] at name
        simpa [CharClass.isNameContinue, Char.isAlphanum, or_right_comm] using Or.inl name
      · exact run_visible _ visible_name _ d later
    · by_cases digit : c.isDigit = true
      · right
        right
        rw [first.eq_def, if_neg quote, if_neg name, if_pos digit]
        exact number_visible (c :: rest)
      · by_cases blank : CharClass.isSpaceTab c = true
        · right
          left
          rw [first.eq_def, if_neg quote, if_neg name, if_neg digit, if_pos blank]
          refine ⟨rfl, ?_⟩
          intro d member
          rcases List.mem_cons.mp member with same | later
          · subst same
            exact blank
          · exact List.mem_takeWhile_imp later
        · right
          right
          rw [first.eq_def, if_neg quote, if_neg name, if_neg digit, if_neg blank]
          have visible : Visible c := by
            refine ⟨by simpa using quote, ?_⟩
            intro same
            subst same
            exact blank rfl
          split
          · simpa using visible
          · simp [Visible, CharClass.isQuote]
          · simpa using visible

theorem isComment_of_char (piece : Piece) (filled : piece.char ≠ ' ') : piece.isComment = false := by
  cases piece with
  | copied c offset => rfl
  | comment start stop => exact absurd rfl filled

end Lexeme

namespace Token

open Piece

theorem place_start_le (source : Source) (position : Nat) (lexemes : List Lexeme) :
    ∀ token ∈ place source position lexemes, position ≤ token.span.start := by
  induction lexemes generalizing position with
  | nil => simp [place]
  | cons lexeme lexemes ih =>
      intro token member
      rcases List.mem_cons.mp member with same | later
      · rw [same]
      · exact Nat.le_trans (Nat.le_add_right _ _) (ih _ token later)

def covers (token : Token) (position : Nat) : Prop :=
  token.span.start ≤ position ∧ position < token.span.stop

end Token

def Segment.isComment : Segment → Bool
  | .verbatim _ _ => false
  | .comment _ _ _ => true

namespace OffsetMap

open Piece

structure Marks (map : OffsetMap) (pieces : List Piece) : Prop where
  before : ∀ segment ∈ map.segments, segment.norm < bytes pieces
  found : ∀ position piece, at? pieces position = some piece →
    (map.segment? position).map Segment.isComment = some piece.isComment

end OffsetMap

namespace Lexed

end Lexed

end CPreprocessor
