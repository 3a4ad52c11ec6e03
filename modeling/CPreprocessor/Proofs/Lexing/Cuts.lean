import CPreprocessor.Proofs.Lexing.CommentBlanks
import CPreprocessor.Proofs.Lexing.Tiling

/-!
Where a text can be cut. What a reader takes from a text it also takes from less of it, as long as
what it took is there; so a lexeme stands alone, and so do the characters behind it, before splices
and comments are taken away.
-/

set_option autoImplicit false

namespace CPreprocessor

namespace Text

theorem startsSplice_prefix (text longer : Text) (before : text <+: longer)
    (kept : startsSplice longer = false) : startsSplice text = false := by
  obtain ⟨beyond, rfl⟩ := before
  by_contra starts
  obtain ⟨splice, rest, single, rfl⟩ := splice_of_starts text (by simpa using starts)
  cases single with
  | feed => cases kept
  | returnFeed => cases kept

theorem leadingSplices (text : Text) :
    ∃ gap rest, text = gap ++ rest ∧ Splices gap ∧ startsSplice rest = false := by
  induction text using splice_induction with
  | nil => exact ⟨[], [], rfl, .none, rfl⟩
  | splice splice rest single ih =>
      obtain ⟨gap, later, rfl, splices, kept⟩ := ih
      exact ⟨splice ++ gap, later, (List.append_assoc ..).symm, .more splice gap single splices, kept⟩
  | char c rest kept ih => exact ⟨[], c :: rest, rfl, .none, kept⟩

theorem atLineEnd_prefix (text longer : Text) (before : text <+: longer)
    (inside : atLineEnd longer = false) : atLineEnd text = false := by
  obtain ⟨beyond, rfl⟩ := before
  cases text with
  | nil => rfl
  | cons c rest =>
      by_contra ends
      have whole : atLineEnd (c :: (rest ++ beyond)) = true := by
        apply (atLineEnd_iff c _).mpr
        refine ((atLineEnd_iff c rest).mp (by simpa using ends)).imp id fun carriage => ?_
        exact ⟨carriage.1, by simp [carriage.2]⟩
      rw [List.cons_append, whole] at inside
      cases inside

-- Only a carriage return that has lost its line feed is no line end any more.
theorem atLineEnd_of_prefix (text longer : Text) (before : text <+: longer) (filled : text ≠ [])
    (whole : text ≠ ['\r']) (ends : atLineEnd longer = true) : atLineEnd text = true := by
  obtain ⟨beyond, rfl⟩ := before
  cases text with
  | nil => contradiction
  | cons c rest =>
      apply (atLineEnd_iff c rest).mpr
      refine ((atLineEnd_iff c _).mp ends).imp id fun carriage => ⟨carriage.1, ?_⟩
      cases rest with
      | nil => exact absurd (by rw [carriage.1]) whole
      | cons next rest => exact carriage.2

end Text

namespace Lexeme

theorem run_stops (holds : Char → Bool) (text short : Text)
    (before : short <+: (run holds text).2) : run holds short = ([], short) := by
  cases short with
  | nil => rfl
  | cons c rest =>
      obtain ⟨beyond, same⟩ := before
      have stops : holds c = false := by
        have head := List.head?_dropWhile_not holds text
        rw [show text.dropWhile holds = c :: (rest ++ beyond) from same.symm] at head
        simpa using head
      simp [run, stops]

theorem run_cut (holds : Char → Bool) (text short : Text) (before : short <+: (run holds text).2) :
    run holds ((run holds text).1 ++ short) = ((run holds text).1, short) := by
  have all : ∀ c ∈ (run holds text).1, holds c = true := fun c => List.mem_takeWhile_imp
  have stopped := run_stops holds text short before
  rw [run] at stopped ⊢
  rw [List.takeWhile_append_of_pos all, List.dropWhile_append_of_pos all]
  rw [Prod.mk.injEq] at stopped
  rw [stopped.1, stopped.2, List.append_nil]

theorem fraction_cut (text short : Text) (before : short <+: (fraction text).2) :
    fraction ((fraction text).1 ++ short) = ((fraction text).1, short) := by
  by_cases point : text.head? = some '.'
  · obtain ⟨rest, rfl⟩ := List.head?_eq_some_iff.mp point
    have digits := run_cut Char.isDigit rest short before
    rw [run, Prod.mk.injEq] at digits
    rw [fraction, List.cons_append, fraction]
    exact Prod.ext (congrArg ('.' :: ·) digits.1) digits.2
  · have none : ∀ other : Text, other.head? ≠ some '.' → fraction other = ([], other) := by
      intro other plain
      rw [fraction.eq_def]
      split
      · exact absurd rfl plain
      · rfl
    rw [none text point] at before ⊢
    apply none
    obtain ⟨beyond, rfl⟩ := before
    cases short with
    | nil => simp
    | cons c short => exact point

theorem sign_cut (text short : Text) (before : short <+: (sign text).2) :
    sign ((sign text).1 ++ short) = ((sign text).1, short) := by
  have none : ∀ other : Text, other.head? ≠ some '+' → other.head? ≠ some '-' →
      sign other = ([], other) := by
    intro other plus minus
    rw [sign.eq_def]
    split
    · exact absurd rfl plus
    · exact absurd rfl minus
    · rfl
  by_cases plus : text.head? = some '+'
  · obtain ⟨rest, rfl⟩ := List.head?_eq_some_iff.mp plus
    rfl
  · by_cases minus : text.head? = some '-'
    · obtain ⟨rest, rfl⟩ := List.head?_eq_some_iff.mp minus
      rfl
    · rw [none text plus minus] at before ⊢
      obtain ⟨beyond, rfl⟩ := before
      cases short with
      | nil => rfl
      | cons c short => exact none _ plus minus

theorem exponent_cut (text short : Text) (before : short <+: (exponent text).2) :
    exponent ((exponent text).1 ++ short) = ((exponent text).1, short) := by
  cases text with
  | nil =>
      rw [List.prefix_nil.mp before]
      rfl
  | cons c rest =>
      by_cases marker : CharClass.isExponentMarker c = true
      · rw [exponent, if_pos marker] at before ⊢
        have digits := run_cut Char.isDigit (sign rest).2 short before
        have signed := sign_cut rest ((run Char.isDigit (sign rest).2).1 ++ short) (by
          obtain ⟨beyond, same⟩ := before
          refine ⟨beyond, ?_⟩
          rw [List.append_assoc, same, run_append])
        dsimp only
        rw [List.append_assoc, List.cons_append, exponent, if_pos marker, signed]
        dsimp only
        rw [digits]
      · rw [exponent, if_neg marker] at before ⊢
        obtain ⟨beyond, same⟩ := before
        cases short with
        | nil => rfl
        | cons d short =>
            cases same
            exact if_neg marker

theorem number_alone (text : Text) : number (number text).1 = ((number text).1, []) := by
  let whole := run Char.isDigit text
  let fractional := fraction whole.2
  let scaled := exponent fractional.2
  let suffix := run CharClass.isNameContinue scaled.2
  have tail := run_cut CharClass.isNameContinue scaled.2 [] (List.nil_prefix)
  have scale := exponent_cut fractional.2 suffix.1 ⟨suffix.2, run_append _ _⟩
  have point := fraction_cut whole.2 (scaled.1 ++ suffix.1) ⟨suffix.2, by
    rw [List.append_assoc, run_append, exponent_append]⟩
  have digits := run_cut Char.isDigit text (fractional.1 ++ (scaled.1 ++ suffix.1)) ⟨suffix.2, by
    rw [List.append_assoc, List.append_assoc, run_append, exponent_append, fraction_append]⟩
  have split : (number text).1 = whole.1 ++ (fractional.1 ++ (scaled.1 ++ suffix.1)) := by
    simp only [number, List.append_assoc]
    rfl
  rw [split, number, digits]
  dsimp only
  rw [point]
  dsimp only
  rw [scale]
  dsimp only
  rw [List.append_nil] at tail
  rw [tail]
  simp only [List.append_assoc]
  rfl

theorem literal_alone (quote : Char) (escaped : Bool) (text : Text) :
    literal quote escaped (literal quote escaped text).1 =
      ((literal quote escaped text).1, []) := by
  induction text generalizing escaped with
  | nil => rfl
  | cons c rest ih =>
      rw [literal]
      by_cases ends : Text.atLineEnd (c :: rest) = true
      · rw [if_pos ends]
        rfl
      · rw [if_neg ends]
        have inside : ∀ more, more <+: rest → ¬ Text.atLineEnd (c :: more) = true := by
          intro more before
          simpa using Text.atLineEnd_prefix (c :: more) (c :: rest)
            (List.cons_prefix_cons.mpr ⟨rfl, before⟩) (by simpa using ends)
        by_cases closes : (!escaped && c == quote) = true
        · rw [if_pos closes, literal, if_neg (inside [] List.nil_prefix), if_pos closes]
        · rw [if_neg closes]
          dsimp only
          rw [literal, if_neg (inside _ ⟨_, literal_append _ _ rest⟩), if_neg closes, ih]

theorem first_alone (c : Char) (rest : Text) :
    ∃ more, (first c rest).1.text = c :: more ∧ first c more = ((first c rest).1, []) := by
  have runs : ∀ holds, run holds (run holds rest).1 = ((run holds rest).1, []) := by
    intro holds
    have cut := run_cut holds rest [] List.nil_prefix
    rwa [List.append_nil] at cut
  rw [first.eq_def]
  by_cases quote : CharClass.isQuote c = true
  · rw [if_pos quote]
    refine ⟨(literal c false rest).1, rfl, ?_⟩
    rw [first.eq_def, if_pos quote, literal_alone]
  · by_cases name : CharClass.isNameStart c = true
    · rw [if_neg quote, if_pos name]
      refine ⟨(run CharClass.isNameContinue rest).1, rfl, ?_⟩
      rw [first.eq_def, if_neg quote, if_pos name, runs]
    · by_cases digit : c.isDigit = true
      · rw [if_neg quote, if_neg name, if_pos digit]
        have begins : ∃ more, (number (c :: rest)).1 = c :: more := by
          have whole := number_append (c :: rest)
          cases read : (number (c :: rest)).1 with
          | nil => exact absurd read (number_ne_nil c rest digit)
          | cons d more =>
              rw [read, List.cons_append, List.cons.injEq] at whole
              exact ⟨more, by rw [whole.1]⟩
        obtain ⟨more, read⟩ := begins
        refine ⟨more, read, ?_⟩
        have alone := number_alone (c :: rest)
        rw [read] at alone
        rw [first.eq_def, if_neg quote, if_neg name, if_pos digit, alone, ← read]
      · by_cases blank : CharClass.isSpaceTab c = true
        · rw [if_neg quote, if_neg name, if_neg digit, if_pos blank]
          refine ⟨(run CharClass.isSpaceTab rest).1, rfl, ?_⟩
          rw [first.eq_def, if_neg quote, if_neg name, if_neg digit, if_pos blank, runs]
        · rw [if_neg quote, if_neg name, if_neg digit, if_neg blank]
          split
          · exact ⟨[], rfl, rfl⟩
          · exact ⟨['\n'], rfl, rfl⟩
          · rename_i noFeed _
            refine ⟨[], rfl, ?_⟩
            rw [first.eq_def, if_neg quote, if_neg name, if_neg digit, if_neg blank]
            split
            · exact (noFeed rfl).elim
            · contradiction
            · rfl

theorem blank_plain (c : Char) (blank : CharClass.isSpaceTab c = true) :
    CharClass.isQuote c = false ∧ c ≠ '\r' := by
  rcases (by simpa [CharClass.isSpaceTab] using blank : c = ' ' ∨ c = '\t') with rfl | rfl
  · exact ⟨rfl, by decide⟩
  · exact ⟨rfl, by decide⟩

theorem scan_alone (c : Char) (rest : Text) :
    scan (first c rest).1.text = [(first c rest).1] := by
  obtain ⟨more, read, alone⟩ := first_alone c rest
  rw [read, scan, alone, scan]

end Lexeme

theorem Span.hull_cons (first next : Span) (more : List Span) :
    first.hull (next :: more) = ⟨first.start, (next.hull more).stop⟩ := by
  induction more generalizing next with
  | nil => rfl
  | cons other more ih => exact ih ⟨next.start, other.stop⟩

namespace Normalized

theorem scan_splices (mode : Mode) (offset : Nat) (gap rest : Text) (splices : Splices gap) :
    scan mode offset (gap ++ rest) = scan mode (offset + gap.byteLength) rest := by
  induction splices generalizing offset with
  | none => rfl
  | more splice later first _ ih =>
      rw [List.append_assoc, scan_splice mode offset splice _ first, ih, Text.byteLength_append,
        Nat.add_assoc]

-- A comment that is being read: its end is found, and what comes after it is code. With less text
-- after it the comment ends where it did, unless only half a line end is left.
def Comments (mode : Mode) (start offset : Nat) (text : Text) (piece : Piece) (rest : Normalized) :
    Prop :=
  ∃ own tail, text = own ++ tail ∧ piece = .comment start (offset + own.byteLength) ∧
    scan .code (offset + own.byteLength) tail = rest ∧
    ∀ more, more <+: tail → more ≠ ['\r'] →
      scan mode offset (own ++ more) =
        (scan .code (offset + own.byteLength) more).prepend [piece]

theorem comments_read (mode next : Mode) (start offset : Nat) (read text : Text) (piece : Piece)
    (rest : Normalized)
    (steps : ∀ more, more <+: text →
      scan mode offset (read ++ more) = scan next (offset + read.byteLength) more)
    (later : Comments next start (offset + read.byteLength) text piece rest) :
    Comments mode start offset (read ++ text) piece rest := by
  obtain ⟨own, tail, rfl, comment, after, joins⟩ := later
  refine ⟨read ++ own, tail, (List.append_assoc ..).symm, ?_, ?_, ?_⟩
  · rw [comment, Text.byteLength_append, Nat.add_assoc]
  · rw [Text.byteLength_append, ← Nat.add_assoc, after]
  · intro more before whole
    rw [List.append_assoc, steps _ ((List.prefix_append_right_inj own).mpr before),
      joins more before whole, Text.byteLength_append, Nat.add_assoc]

theorem scan_grow (mode next : Mode) (offset : Nat) (c : Char) (rest : Text)
    (kept : Text.startsSplice (c :: rest) = false)
    (steps : ∀ more, more <+: rest →
      mode.step (Text.atLineEnd (c :: more)) offset c = ([], next)) :
    ∀ more, more <+: rest →
      scan mode offset ([c] ++ more) = scan next (offset + Text.byteLength [c]) more := by
  intro more before
  have longer : c :: more <+: c :: rest := List.cons_prefix_cons.mpr ⟨rfl, before⟩
  rw [List.singleton_append,
    scan_char mode offset c more (Text.startsSplice_prefix _ _ longer kept), steps more before]
  rfl

theorem lineEnd_copied (offset : Nat) (c : Char) (rest : Text)
    (ends : Text.atLineEnd (c :: rest) = true) :
    Text.startsSplice (c :: rest) = false ∧ Mode.codeStep offset c = ([.copied c offset], .code) := by
  rcases (Text.atLineEnd_iff c rest).mp ends with rfl | ⟨rfl, _⟩
  · exact ⟨rfl, rfl⟩
  · exact ⟨rfl, rfl⟩

theorem lineComment_ends (start offset : Nat) (text : Text) (ends : Text.atLineEnd text = true) :
    scan (.lineComment start) offset text =
      (scan .code offset text).prepend [.comment start offset] := by
  cases text with
  | nil => cases ends
  | cons c rest =>
      obtain ⟨kept, plain⟩ := lineEnd_copied offset c rest ends
      rw [scan_char _ offset c rest kept, scan_char _ offset c rest kept, ends]
      simp only [Mode.step, plain, if_true]
      rfl

theorem lineComment_comments (start offset : Nat) (text : Text) (piece : Piece)
    (later : List Piece) (unclosed : Option Nat)
    (scanned : scan (.lineComment start) offset text = ⟨piece :: later, unclosed⟩) :
    Comments (.lineComment start) start offset text piece ⟨later, unclosed⟩ := by
  induction text using Text.splice_induction generalizing offset with
  | nil =>
      cases scanned
      refine ⟨[], [], rfl, rfl, rfl, ?_⟩
      intro more before _
      rw [List.prefix_nil.mp before]
      rfl
  | splice splice rest single ih =>
      rw [scan_splice _ offset splice rest single] at scanned
      exact comments_read _ _ start offset splice rest piece _
        (fun more _ => scan_splice _ offset splice more single) (ih _ scanned)
  | char c rest kept ih =>
      by_cases ends : Text.atLineEnd (c :: rest) = true
      · rw [lineComment_ends start offset _ ends] at scanned
        generalize found : scan .code offset (c :: rest) = after at scanned
        cases scanned
        refine ⟨[], c :: rest, rfl, rfl, found, ?_⟩
        intro more before whole
        by_cases empty : more = []
        · rw [empty]
          rfl
        · exact lineComment_ends start offset more
            (Text.atLineEnd_of_prefix more _ before empty whole ends)
      · have steps : ∀ more, more <+: rest →
            (Mode.lineComment start).step (Text.atLineEnd (c :: more)) offset c =
              ([], .lineComment start) := by
          intro more before
          rw [Text.atLineEnd_prefix (c :: more) (c :: rest)
            (List.cons_prefix_cons.mpr ⟨rfl, before⟩) (by simpa using ends)]
          rfl
        have grow := scan_grow _ _ offset c rest kept steps
        rw [← List.singleton_append, grow rest (List.prefix_refl rest)] at scanned
        exact comments_read _ _ start offset [c] rest piece _ grow (ih _ scanned)

theorem block_comments (start offset : Nat) (text : Text) (piece : Piece) (later : List Piece)
    (unclosed : Option Nat) (mode : Mode)
    (block : mode = .blockComment start ∨ mode = .blockStar start)
    (scanned : scan mode offset text = ⟨piece :: later, unclosed⟩) :
    Comments mode start offset text piece ⟨later, unclosed⟩ := by
  induction text using Text.splice_induction generalizing offset mode with
  | nil => rcases block with rfl | rfl <;> cases scanned
  | splice splice rest single ih =>
      rw [scan_splice _ offset splice rest single] at scanned
      exact comments_read _ _ start offset splice rest piece _
        (fun more _ => scan_splice _ offset splice more single) (ih _ mode block scanned)
  | char c rest kept ih =>
      have next : Mode.blockStep start c = .blockComment start ∨
          Mode.blockStep start c = .blockStar start := by
        rw [Mode.blockStep]
        split
        · exact Or.inr rfl
        · exact Or.inl rfl
      by_cases closes : mode = .blockStar start ∧ c = '/'
      · obtain ⟨rfl, rfl⟩ := closes
        have ends : ∀ more, scan (.blockStar start) offset ('/' :: more) =
            (scan .code (offset + 1) more).prepend [.comment start (offset + 1)] :=
          fun more => scan_char _ offset '/' more rfl
        rw [ends] at scanned
        generalize found : scan .code (offset + 1) rest = after at scanned
        cases scanned
        exact ⟨['/'], rest, rfl, rfl, found, fun more _ _ => ends more⟩
      · have steps : ∀ more, more <+: rest →
            mode.step (Text.atLineEnd (c :: more)) offset c = ([], Mode.blockStep start c) := by
          intro more _
          rcases block with rfl | rfl
          · rfl
          · rw [Mode.step, if_neg (fun slash => closes ⟨rfl, slash⟩)]
        have grow := scan_grow _ _ offset c rest kept steps
        rw [← List.singleton_append, grow rest (List.prefix_refl rest)] at scanned
        exact comments_read _ _ start offset [c] rest piece _ grow (ih _ _ next scanned)

theorem splice_prefix (splice rest more : Text) (single : Splice splice)
    (before : more <+: splice ++ rest) :
    (∃ less, more = splice ++ less ∧ less <+: rest) ∨
      more = [] ∨ more = ['\\'] ∨ more = ['\\', '\r'] := by
  cases single with
  | feed =>
      match more, before with
      | [], _ => simp
      | [c], before => simp_all [List.cons_prefix_cons]
      | c :: d :: less, before => simp_all [List.cons_prefix_cons]
  | returnFeed =>
      match more, before with
      | [], _ => simp
      | [c], before => simp_all [List.cons_prefix_cons]
      | [c, d], before => simp_all [List.cons_prefix_cons]
      | c :: d :: e :: less, before => simp_all [List.cons_prefix_cons]

theorem slash_plain (start offset : Nat) (c : Char) (rest : Text)
    (kept : Text.startsSplice (c :: rest) = false) (line : c ≠ '/') (block : c ≠ '*') :
    ∀ more, more <+: c :: rest → scan (.slash start) offset more =
      (scan .code offset more).prepend [.copied '/' start] := by
  intro more before
  cases more with
  | nil => rfl
  | cons d more =>
      have short := Text.startsSplice_prefix _ _ before kept
      have copied : (Mode.slash start).step (Text.atLineEnd (c :: more)) offset c =
          (.copied '/' start :: (Mode.codeStep offset c).1, (Mode.codeStep offset c).2) := by
        rw [Mode.step, if_neg line, if_neg block]
      cases (List.cons_prefix_cons.mp before).1
      rw [scan_char _ offset c more short, scan_char _ offset c more short, copied]
      rfl

theorem slash_begins (start offset : Nat) (text : Text) (piece : Piece) (later : List Piece)
    (unclosed : Option Nat)
    (scanned : scan (.slash start) offset text = ⟨piece :: later, unclosed⟩) :
    (piece = .copied '/' start ∧ ∀ more, more <+: text →
      scan (.slash start) offset more = (scan .code offset more).prepend [piece]) ∨
    Comments (.slash start) start offset text piece ⟨later, unclosed⟩ := by
  induction text using Text.splice_induction generalizing offset with
  | nil =>
      cases scanned
      refine Or.inl ⟨rfl, ?_⟩
      intro more before
      rw [List.prefix_nil.mp before]
      rfl
  | splice splice rest single ih =>
      rw [scan_splice _ offset splice rest single] at scanned
      refine (ih _ scanned).imp ?_ (comments_read _ _ start offset splice rest piece _
        fun more _ => scan_splice _ offset splice more single)
      rintro ⟨rfl, alone⟩
      refine ⟨rfl, fun more before => ?_⟩
      rcases splice_prefix splice rest more single before with ⟨less, rfl, short⟩ | rfl | rfl | rfl
      · rw [scan_splice _ offset splice less single, scan_splice _ offset splice less single]
        exact alone less short
      · rfl
      · rfl
      · rfl
  | char c rest kept ih =>
      by_cases line : c = '/'
      · subst line
        have grow := scan_grow (.slash start) (.lineComment start) offset '/' rest kept
          fun _ _ => rfl
        rw [← List.singleton_append, grow rest (List.prefix_refl rest)] at scanned
        exact Or.inr (comments_read _ _ start offset ['/'] rest piece _ grow
          (lineComment_comments start _ rest piece later unclosed scanned))
      · by_cases block : c = '*'
        · subst block
          have grow := scan_grow (.slash start) (.blockComment start) offset '*' rest kept
            fun _ _ => rfl
          rw [← List.singleton_append, grow rest (List.prefix_refl rest)] at scanned
          exact Or.inr (comments_read _ _ start offset ['*'] rest piece _ grow
            (block_comments start _ rest piece later unclosed _ (Or.inl rfl) scanned))
        · have alone := slash_plain start offset c rest kept line block
          rw [alone _ (List.prefix_refl _)] at scanned
          cases scanned
          exact Or.inl ⟨rfl, alone⟩

theorem scan_slash (offset : Nat) (rest : Text) :
    scan .code offset ('/' :: rest) = scan (.slash offset) (offset + 1) rest :=
  scan_char .code offset '/' rest rfl

theorem scan_copies (offset : Nat) (c : Char) (rest : Text)
    (kept : Text.startsSplice (c :: rest) = false) (plain : c ≠ '/') :
    ∀ more, more <+: rest → scan .code offset (c :: more) =
      (scan (if CharClass.isQuote c then .literal c false else .code) (offset + c.utf8Size)
        more).prepend [.copied c offset] := by
  intro more before
  rw [scan_char _ offset c more (Text.startsSplice_prefix _ _
    (List.cons_prefix_cons.mpr ⟨rfl, before⟩) kept), Mode.step, Mode.codeStep, if_neg plain]

-- How a text begins in code: splices, the characters that the first piece stands for, and the rest,
-- which is read as code, however much of it is there.
structure Begins (offset : Nat) (text : Text) (piece : Piece) (rest : Normalized)
    (gap own tail : Text) : Prop where
  same : text = gap ++ (own ++ tail)
  splices : Splices gap
  origin : piece.origin =
    ⟨offset + gap.byteLength, offset + gap.byteLength + own.byteLength⟩
  after : scan .code (offset + gap.byteLength + own.byteLength) tail = rest
  joins : ∀ more, more <+: tail → (piece.isComment = true → more ≠ ['\r']) →
    scan .code (offset + gap.byteLength) (own ++ more) =
      (scan .code (offset + gap.byteLength + own.byteLength) more).prepend [piece]

theorem code_begins (offset : Nat) (text : Text) (piece : Piece) (later : List Piece)
    (unclosed : Option Nat) (scanned : scan .code offset text = ⟨piece :: later, unclosed⟩)
    (plain : CharClass.isQuote piece.char = false) :
    ∃ gap own tail, Begins offset text piece ⟨later, unclosed⟩ gap own tail := by
  obtain ⟨gap, rest, rfl, splices, kept⟩ := text.leadingSplices
  rw [scan_splices _ offset gap rest splices] at scanned
  cases rest with
  | nil => cases scanned
  | cons c rest =>
      by_cases slash : c = '/'
      · subst slash
        rw [scan_slash] at scanned
        rcases slash_begins _ _ rest piece later unclosed scanned with
          ⟨rfl, alone⟩ | ⟨own, tail, rfl, rfl, after, joins⟩
        · rw [alone rest (List.prefix_refl rest)] at scanned
          generalize found : scan .code (offset + gap.byteLength + 1) rest = after at scanned
          cases scanned
          exact ⟨gap, ['/'], rest, rfl, splices, rfl, found,
            fun more before _ => (scan_slash _ more).trans (alone more before)⟩
        · have length : offset + gap.byteLength + Text.byteLength ('/' :: own) =
              offset + gap.byteLength + 1 + own.byteLength := by
            rw [Text.byteLength_cons, show '/'.utf8Size = 1 from rfl]
            omega
          refine ⟨gap, '/' :: own, tail, rfl, splices, ?_, ?_, ?_⟩
          · rw [length]
            rfl
          · rw [length]
            exact after
          · intro more before whole
            rw [length]
            exact (scan_slash _ (own ++ more)).trans (joins more before (whole rfl))
      · have copies := scan_copies (offset + gap.byteLength) c rest kept slash
        rw [copies rest (List.prefix_refl rest)] at scanned
        generalize found : scan (if CharClass.isQuote c then .literal c false else .code)
          (offset + gap.byteLength + c.utf8Size) rest = after at scanned
        cases scanned
        rw [show CharClass.isQuote c = false from plain] at copies found
        exact ⟨gap, [c], rest, rfl, splices, rfl, found, fun more before _ => copies more before⟩

structure Cut (offset : Nat) (text : Text) (first : Piece) (more : List Piece) (rest : Normalized)
    (gap own tail : Text) : Prop where
  same : text = gap ++ (own ++ tail)
  splices : Splices gap
  hull : first.origin.hull (more.map Piece.origin) =
    ⟨offset + gap.byteLength, offset + gap.byteLength + own.byteLength⟩
  alone : scan .code (offset + gap.byteLength) own = ⟨first :: more, none⟩
  after : scan .code (offset + gap.byteLength + own.byteLength) tail = rest

-- In code a text can be cut between any two pieces, though not between a line comment and half of
-- the line end after it.
theorem code_cut (offset : Nat) (text : Text) (first : Piece) (more later : List Piece)
    (unclosed : Option Nat)
    (scanned : scan .code offset text = ⟨first :: (more ++ later), unclosed⟩)
    (plain : ∀ piece ∈ first :: more, CharClass.isQuote piece.char = false)
    (whole : (∀ piece ∈ first :: more, piece.isComment = false) ∨
      ∀ piece ∈ first :: more, piece.char ≠ '\r') :
    ∃ gap own tail, Cut offset text first more ⟨later, unclosed⟩ gap own tail := by
  induction more generalizing offset text first with
  | nil =>
      obtain ⟨gap, own, tail, begins⟩ := code_begins offset text first later unclosed scanned
        (plain first List.mem_cons_self)
      have alone := begins.joins [] List.nil_prefix (fun _ => nofun)
      rw [List.append_nil] at alone
      exact ⟨gap, own, tail, begins.same, begins.splices, begins.origin, alone, begins.after⟩
  | cons next more ih =>
      obtain ⟨gap, own, tail, begins⟩ := code_begins offset text first (next :: more ++ later)
        unclosed scanned (plain first List.mem_cons_self)
      have inner : ∀ piece ∈ next :: more, piece ∈ first :: next :: more :=
        fun piece => List.mem_cons_of_mem first
      obtain ⟨between, part, beyond, cut⟩ := ih _ tail next begins.after
        (fun piece member => plain piece (inner piece member))
        (whole.imp (fun none piece member => none piece (inner piece member))
          fun none piece member => none piece (inner piece member))
      have read : scan .code (offset + gap.byteLength + own.byteLength) (between ++ part) =
          ⟨next :: more, none⟩ := by
        rw [scan_splices _ _ between part cut.splices, cut.alone]
      have joined := begins.joins (between ++ part) ⟨beyond, by rw [cut.same, List.append_assoc]⟩ (by
        intro comment half
        rw [half] at read
        cases read
        rcases whole with none | none
        · rw [none first List.mem_cons_self] at comment
          cases comment
        · exact none _ (inner _ List.mem_cons_self) rfl)
      have length : offset + gap.byteLength + Text.byteLength (own ++ (between ++ part)) =
          offset + gap.byteLength + own.byteLength + between.byteLength + part.byteLength := by
        simp only [Text.byteLength_append]
        omega
      refine ⟨gap, own ++ (between ++ part), beyond, ?_, begins.splices, ?_, ?_, ?_⟩
      · rw [begins.same, cut.same]
        simp only [List.append_assoc]
      · rw [List.map_cons, Span.hull_cons, cut.hull, begins.origin, length]
      · rw [joined, read]
        rfl
      · rw [length]
        exact cut.after

theorem literal_closes (quote : Char) (escaped lineEnd : Bool) (offset : Nat) (c : Char)
    (closes : (!escaped && c == quote) = true) :
    (Mode.literal quote escaped).step lineEnd offset c = ([.copied c offset], .code) := by
  rw [Bool.and_eq_true, Bool.not_eq_true', beq_iff_eq] at closes
  simp [Mode.step, closes.1, closes.2]

theorem literal_goesOn (quote : Char) (escaped : Bool) (offset : Nat) (c : Char)
    (stays : ¬ (!escaped && c == quote) = true) :
    (Mode.literal quote escaped).step false offset c =
      ([.copied c offset], .literal quote (!escaped && c == '\\')) := by
  cases escaped with
  | true => rfl
  | false =>
      have other : c ≠ quote := by simpa using stays
      simp [Mode.step, other, Bool.beq_eq_decide_eq]

theorem literal_feed (quote : Char) (escaped : Bool) (offset : Nat) (text : Text)
    (feed : ((scan (.literal quote escaped) offset text).pieces.map Piece.char).head? =
      some '\n') :
    scan (.literal quote escaped) offset text = scan .code offset text := by
  induction text using Text.splice_induction generalizing offset with
  | nil => cases feed
  | splice splice rest single ih =>
      rw [scan_splice _ offset splice rest single] at feed ⊢
      rw [scan_splice _ offset splice rest single]
      exact ih _ feed
  | char c rest kept ih =>
      rw [scan_char _ offset c rest kept] at feed ⊢
      have same : c = '\n' := Option.some.inj feed
      subst same
      rw [scan_char _ offset '\n' rest kept]
      rfl

-- Where the normalized text ends a line, the scanner leaves the literal, or would not tell the
-- difference: only a carriage return and splices are then before the line feed.
theorem literal_leaves (quote : Char) (escaped : Bool) (offset : Nat) (c : Char) (rest : Text)
    (quotes : CharClass.isQuote quote = true) (kept : Text.startsSplice (c :: rest) = false)
    (ends : Text.atLineEnd
      ((scan (.literal quote escaped) offset (c :: rest)).pieces.map Piece.char) = true) :
    scan (.literal quote escaped) offset (c :: rest) = scan .code offset (c :: rest) := by
  have plain : c = '\n' ∨ c = '\r' → Mode.codeStep offset c = ([.copied c offset], .code) := by
    rintro (rfl | rfl) <;> rfl
  rw [scan_char _ offset c rest kept] at ends ⊢
  rw [scan_char _ offset c rest kept]
  have copied : ((Mode.literal quote escaped).step (Text.atLineEnd (c :: rest)) offset c).1 =
    [.copied c offset] := rfl
  have feed := (Text.atLineEnd_iff c _).mp ends
  rw [copied, show Mode.step _ offset c .code = Mode.codeStep offset c from rfl,
    plain (feed.imp id And.left)]
  by_cases line : Text.atLineEnd (c :: rest) = true
  · rw [line]
    rfl
  · have inside : Text.atLineEnd (c :: rest) = false := by simpa using line
    rcases feed with rfl | ⟨rfl, next⟩
    · cases inside
    · have stays : ¬ (!escaped && '\r' == quote) = true := by
        intro closes
        rw [Bool.and_eq_true, beq_iff_eq] at closes
        rw [← closes.2] at quotes
        cases quotes
      rw [inside, literal_goesOn quote escaped offset '\r' stays] at next ⊢
      rw [literal_feed quote _ _ rest next]

-- The rest of a literal, cut off from what follows it. Splices are part of it only where a piece
-- follows them.
structure LiteralCut (quote : Char) (escaped : Bool) (offset : Nat) (text : Text)
    (own : List Piece) (rest : Normalized) (part tail : Text) : Prop where
  same : text = part ++ tail
  alone : scan (.literal quote escaped) offset part = ⟨own, none⟩
  after : scan .code (offset + part.byteLength) tail = rest
  stop : own = [] ∧ part = [] ∨
    ∃ front last, own = front ++ [last] ∧ last.origin.stop = offset + part.byteLength

section

variable (quote : Char) (escaped : Bool) (offset : Nat)

theorem literalCut_splice (splice text : Text) (own : List Piece) (rest : Normalized)
    (part tail : Text) (single : Splice splice)
    (cut : LiteralCut quote escaped (offset + splice.byteLength) text own rest part tail) :
    ∃ part tail, LiteralCut quote escaped offset (splice ++ text) own rest part tail := by
  rcases cut.stop with ⟨rfl, rfl⟩ | ⟨front, last, rfl, stop⟩
  · refine ⟨[], splice ++ text, rfl, rfl, ?_, Or.inl ⟨rfl, rfl⟩⟩
    rw [cut.same]
    exact (scan_splice _ offset splice _ single).trans cut.after
  · have length : offset + Text.byteLength (splice ++ part) =
        offset + splice.byteLength + part.byteLength := by
      rw [Text.byteLength_append, Nat.add_assoc]
    refine ⟨splice ++ part, tail, ?_, ?_, ?_, Or.inr ⟨front, last, rfl, ?_⟩⟩
    · rw [cut.same, List.append_assoc]
    · rw [scan_splice _ offset splice part single, cut.alone]
    · rw [length, cut.after]
    · rw [length, stop]

variable (c : Char) (text : Text) (kept : Text.startsSplice (c :: text) = false)
include kept

theorem literalCut_close (rest : Normalized) (closes : (!escaped && c == quote) = true)
    (after : scan .code (offset + c.utf8Size) text = rest) :
    LiteralCut quote escaped offset (c :: text) [.copied c offset] rest [c] text := by
  have width : Text.byteLength [c] = c.utf8Size := by simp
  have short : Text.startsSplice [c] = false :=
    Text.startsSplice_prefix _ _ (List.cons_prefix_cons.mpr ⟨rfl, List.nil_prefix⟩) kept
  refine ⟨rfl, ?_, ?_, Or.inr ⟨[], .copied c offset, rfl, ?_⟩⟩
  · rw [scan_char _ offset c [] short, literal_closes quote escaped _ offset c closes]
    rfl
  · rw [width, after]
  · rw [width]
    rfl

theorem literalCut_more (own : List Piece) (rest : Normalized) (part tail : Text)
    (stays : ¬ (!escaped && c == quote) = true) (inside : Text.atLineEnd (c :: text) = false)
    (cut : LiteralCut quote (!escaped && c == '\\') (offset + c.utf8Size) text own rest part tail) :
    LiteralCut quote escaped offset (c :: text) (.copied c offset :: own) rest (c :: part) tail := by
  have before : c :: part <+: c :: text := List.cons_prefix_cons.mpr ⟨rfl, tail, cut.same.symm⟩
  have length : offset + Text.byteLength (c :: part) = offset + c.utf8Size + part.byteLength := by
    rw [Text.byteLength_cons, Nat.add_assoc]
  refine ⟨by rw [cut.same]; rfl, ?_, ?_, Or.inr ?_⟩
  · rw [scan_char _ offset c part (Text.startsSplice_prefix _ _ before kept),
      Text.atLineEnd_prefix _ _ before inside, literal_goesOn quote escaped offset c stays, cut.alone]
    rfl
  · rw [length, cut.after]
  · rw [length]
    rcases cut.stop with ⟨rfl, rfl⟩ | ⟨front, last, rfl, stop⟩
    · exact ⟨[], .copied c offset, rfl, rfl⟩
    · exact ⟨.copied c offset :: front, last, rfl, stop⟩

end

theorem literal_cut (quote : Char) (escaped : Bool) (offset : Nat) (text : Text)
    (pieces : List Piece) (unclosed : Option Nat) (quotes : CharClass.isQuote quote = true)
    (scanned : scan (.literal quote escaped) offset text = ⟨pieces, unclosed⟩) :
    ∃ own later part tail, pieces = own ++ later ∧
      own.map Piece.char = (Lexeme.literal quote escaped (pieces.map Piece.char)).1 ∧
      LiteralCut quote escaped offset text own ⟨later, unclosed⟩ part tail := by
  induction text using Text.splice_induction generalizing escaped offset pieces with
  | nil =>
      cases scanned
      exact ⟨[], [], [], [], rfl, rfl, rfl, rfl, rfl, Or.inl ⟨rfl, rfl⟩⟩
  | splice splice rest single ih =>
      rw [scan_splice _ offset splice rest single] at scanned
      obtain ⟨own, later, part, tail, split, chars, cut⟩ := ih escaped _ pieces scanned
      obtain ⟨part, tail, longer⟩ :=
        literalCut_splice quote escaped offset splice rest own _ part tail single cut
      exact ⟨own, later, part, tail, split, chars, longer⟩
  | char c rest kept ih =>
      by_cases ends : Text.atLineEnd (pieces.map Piece.char) = true
      · have leaves := literal_leaves quote escaped offset c rest quotes kept
          (by rw [scanned]; exact ends)
        have none : (Lexeme.literal quote escaped (pieces.map Piece.char)).1 = [] := by
          cases chars : pieces.map Piece.char with
          | nil => rfl
          | cons d more =>
              rw [chars] at ends
              rw [Lexeme.literal, if_pos ends]
        exact ⟨[], pieces, [], c :: rest, rfl, none.symm, rfl, rfl, leaves.symm.trans scanned,
          Or.inl ⟨rfl, rfl⟩⟩
      · rw [scan_char _ offset c rest kept] at scanned
        by_cases closes : (!escaped && c == quote) = true
        · rw [literal_closes quote escaped _ offset c closes] at scanned
          generalize found : scan .code (offset + c.utf8Size) rest = after at scanned
          cases scanned
          have unbroken : ¬ Text.atLineEnd (c :: after.pieces.map Piece.char) = true := ends
          have read : (Lexeme.literal quote escaped (c :: after.pieces.map Piece.char)).1 = [c] := by
            rw [Lexeme.literal, if_neg unbroken, if_pos closes]
          exact ⟨[.copied c offset], after.pieces, [c], rest, rfl, read.symm,
            literalCut_close quote escaped offset c rest kept after closes found⟩
        · have inside : Text.atLineEnd (c :: rest) = false := by
            by_contra line
            have lineEnd : Text.atLineEnd (c :: rest) = true := by simpa using line
            have broken := scan_lineEnd (offset + c.utf8Size) c rest lineEnd
            rw [lineEnd] at scanned
            cases scanned
            exact ends broken
          rw [inside, literal_goesOn quote escaped offset c closes] at scanned
          generalize found : scan (.literal quote (!escaped && c == '\\')) (offset + c.utf8Size) rest =
            after at scanned
          cases scanned
          obtain ⟨own, later, part, tail, split, chars, cut⟩ := ih _ _ after.pieces found
          have unbroken : ¬ Text.atLineEnd (c :: after.pieces.map Piece.char) = true := ends
          have read : (Lexeme.literal quote escaped (c :: after.pieces.map Piece.char)).1 =
              c :: own.map Piece.char := by
            rw [Lexeme.literal, if_neg unbroken, if_neg closes, chars]
          exact ⟨.copied c offset :: own, later, c :: part, tail,
            congrArg ([.copied c offset] ++ ·) split, read.symm,
            literalCut_more quote escaped offset c rest kept own _ part tail closes inside cut⟩

theorem quote_cut (offset : Nat) (text : Text) (first : Piece) (pieces : List Piece)
    (unclosed : Option Nat) (scanned : scan .code offset text = ⟨first :: pieces, unclosed⟩)
    (quotes : CharClass.isQuote first.char = true) :
    ∃ more later gap own tail, pieces = more ++ later ∧
      more.map Piece.char = (Lexeme.literal first.char false (pieces.map Piece.char)).1 ∧
      Cut offset text first more ⟨later, unclosed⟩ gap own tail := by
  obtain ⟨gap, rest, rfl, splices, kept⟩ := text.leadingSplices
  rw [scan_splices _ offset gap rest splices] at scanned
  cases rest with
  | nil => cases scanned
  | cons c rest =>
      by_cases slash : c = '/'
      · subst slash
        rw [scan_slash] at scanned
        rcases slash_begins _ _ rest first pieces unclosed scanned with
          ⟨rfl, _⟩ | ⟨_, _, _, rfl, _, _⟩
        · cases quotes
        · cases quotes
      · have copies := scan_copies (offset + gap.byteLength) c rest kept slash
        rw [copies rest (List.prefix_refl rest)] at scanned
        generalize found : scan (if CharClass.isQuote c then .literal c false else .code)
          (offset + gap.byteLength + c.utf8Size) rest = after at scanned
        cases scanned
        rw [show CharClass.isQuote c = true from quotes] at copies found
        obtain ⟨more, later, part, tail, split, chars, cut⟩ :=
          literal_cut c false _ rest after.pieces after.openComment quotes found
        have length : offset + gap.byteLength + Text.byteLength (c :: part) =
            offset + gap.byteLength + c.utf8Size + part.byteLength := by
          rw [Text.byteLength_cons]
          omega
        refine ⟨more, later, gap, c :: part, tail, split, chars, ?_, splices, ?_, ?_, ?_⟩
        · rw [cut.same]
          rfl
        · rw [length]
          rcases cut.stop with ⟨rfl, rfl⟩ | ⟨front, last, rfl, stop⟩
          · rfl
          · rw [List.map_append, List.map_singleton, Span.hull_concat, stop]
            rfl
        · rw [copies part ⟨tail, cut.same.symm⟩, if_pos rfl, cut.alone]
          rfl
        · rw [length, cut.after]

theorem lexeme_cut (offset : Nat) (text : Text) (first : Piece) (pieces : List Piece)
    (unclosed : Option Nat) (scanned : scan .code offset text = ⟨first :: pieces, unclosed⟩) :
    ∃ more later gap own tail, pieces = more ++ later ∧
      (first :: more).map Piece.char =
        (Lexeme.first first.char (pieces.map Piece.char)).1.text ∧
      Cut offset text first more ⟨later, unclosed⟩ gap own tail := by
  rcases Lexeme.first_cases first.char (pieces.map Piece.char) with ⟨quotes, literal⟩ | plain
  · obtain ⟨more, later, gap, own, tail, split, chars, cut⟩ :=
      quote_cut offset text first pieces unclosed scanned quotes
    refine ⟨more, later, gap, own, tail, split, ?_, cut⟩
    rw [literal, List.map_cons, chars]
  · have whole := Lexeme.first_append first.char (pieces.map Piece.char)
    rw [← List.map_cons] at whole
    obtain ⟨own, later, split, chars, _⟩ := List.map_eq_append_iff.mp whole.symm
    cases own with
    | nil => exact absurd chars.symm (Lexeme.first_text_ne_nil _ _)
    | cons head more =>
        cases split
        have among : ∀ piece ∈ first :: more, piece.char ∈
            (Lexeme.first first.char ((more ++ later).map Piece.char)).1.text :=
          fun piece member => chars ▸ List.mem_map_of_mem member
        have unquoted : ∀ piece ∈ first :: more, CharClass.isQuote piece.char = false := by
          intro piece member
          rcases plain with ⟨_, blank⟩ | visible
          · exact (Lexeme.blank_plain _ (blank _ (among piece member))).1
          · exact (visible _ (among piece member)).1
        have unbroken : (∀ piece ∈ first :: more, piece.isComment = false) ∨
            ∀ piece ∈ first :: more, piece.char ≠ '\r' := by
          rcases plain with ⟨_, blank⟩ | visible
          · exact Or.inr fun piece member =>
              (Lexeme.blank_plain _ (blank _ (among piece member))).2
          · exact Or.inl fun piece member =>
              Lexeme.isComment_of_char piece (visible _ (among piece member)).2
        obtain ⟨gap, own, tail, cut⟩ := code_cut offset text first more later unclosed scanned
          unquoted unbroken
        exact ⟨more, later, gap, own, tail, rfl, chars, cut⟩

end Normalized

end CPreprocessor
