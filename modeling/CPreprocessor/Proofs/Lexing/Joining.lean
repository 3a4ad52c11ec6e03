import CPreprocessor.Proofs.Lexing.Grammar

/-!
Lexing is local to lines. Where a text ends in a line end, in all that it normalizes to, neither the
normalizer nor the scanner carries anything over to the text after it: the tokens of two texts
joined there are those of each, moved to their place.
-/

set_option autoImplicit false

namespace CPreprocessor

namespace Text

def FeedEnds (text : Text) : Prop := ∀ c ∈ text.getLast?, c = '\n'

theorem feedEnds_append (first second : Text) (left : FeedEnds first) (right : FeedEnds second) :
    FeedEnds (first ++ second) := by
  intro c last
  rw [List.getLast?_append] at last
  cases found : second.getLast? with
  | none =>
      rw [found] at last
      exact left c last
  | some d =>
      rw [found] at last
      exact right c (found.trans last)

theorem feedEnds_tail (first second : Text) (ends : FeedEnds (first ++ second)) :
    FeedEnds second := by
  intro c last
  apply ends c
  rw [List.getLast?_append, last]
  rfl

theorem feed_mem (text : Text) (filled : text ≠ []) (ends : FeedEnds text) : '\n' ∈ text := by
  have last := List.getLast?_eq_some_getLast filled
  rw [← ends _ last]
  exact List.getLast_mem filled

theorem feedEnds_splice (splice : Text) (single : Splice splice) : FeedEnds splice := by
  cases single with
  | feed =>
      rintro c ⟨⟩
      rfl
  | returnFeed =>
      rintro c ⟨⟩
      rfl

-- Whether a line end or a splice begins is seen from the characters up to the next line feed.
theorem atLineEnd_append (text more : Text) (feed : '\n' ∈ text) :
    atLineEnd (text ++ more) = atLineEnd text := by
  cases text with
  | nil => cases feed
  | cons c rest =>
      cases rest with
      | nil =>
          obtain rfl := List.mem_singleton.mp feed
          rfl
      | cons d rest =>
          rw [Bool.eq_iff_iff, List.cons_append, atLineEnd_iff, atLineEnd_iff]
          rfl

theorem startsSplice_append (text more : Text) (feed : '\n' ∈ text) :
    startsSplice (text ++ more) = startsSplice text := by
  cases text with
  | nil => cases feed
  | cons c rest =>
      rw [Bool.eq_iff_iff, List.cons_append, startsSplice_iff, startsSplice_iff]
      apply and_congr_right
      rintro rfl
      rw [atLineEnd_append rest more (List.mem_of_ne_of_mem (by decide) feed)]

end Text

namespace Mode

-- Modes that hold something back which is still to be completed.
def pending : Mode → Bool
  | .code | .literal _ _ => false
  | .slash _ | .lineComment _ | .blockComment _ | .blockStar _ => true

theorem codeStep_pending (offset : Nat) (c : Char) (none : (codeStep offset c).1 = []) :
    (codeStep offset c).2.pending = true := by
  rw [codeStep] at none ⊢
  split at none
  · rw [if_pos ‹_›]
    rfl
  · cases none

theorem blockStep_pending (start : Nat) (c : Char) : (blockStep start c).pending = true := by
  rw [blockStep]
  split <;> rfl

theorem step_pending (mode : Mode) (lineEnd : Bool) (offset : Nat) (c : Char)
    (none : (mode.step lineEnd offset c).1 = []) :
    (mode.step lineEnd offset c).2.pending = true := by
  cases mode with
  | code => exact codeStep_pending offset c none
  | slash start =>
      rw [step] at none ⊢
      split at none
      · rw [if_pos ‹_›]
        rfl
      · rw [if_neg ‹_›]
        split at none
        · rw [if_pos ‹_›]
          rfl
        · cases none
  | lineComment start =>
      cases lineEnd with
      | true => cases none
      | false => rfl
  | blockComment start => exact blockStep_pending start c
  | blockStar start =>
      rw [step] at none ⊢
      split at none
      · cases none
      · rw [if_neg ‹_›]
        exact blockStep_pending start c
  | literal quote escaped => cases none

theorem codeStep_feed (offset : Nat) (c : Char)
    (last : ((codeStep offset c).1.map Piece.char).getLast? = some '\n') :
    c = '\n' ∧ (codeStep offset c).2 = .code := by
  rw [codeStep] at last ⊢
  split at last
  · cases last
  · obtain rfl : c = '\n' := Option.some.inj last
    exact ⟨rfl, rfl⟩

-- A line feed is read last only in its own step, and every line is code where it begins.
theorem step_feed (mode : Mode) (lineEnd : Bool) (offset : Nat) (c : Char)
    (ends : c = '\n' → lineEnd = true)
    (last : ((mode.step lineEnd offset c).1.map Piece.char).getLast? = some '\n') :
    c = '\n' ∧ (mode.step lineEnd offset c).2 = .code := by
  cases mode with
  | code => exact codeStep_feed offset c last
  | slash start =>
      rw [step] at last ⊢
      split at last
      · cases last
      · split at last
        · cases last
        · rename_i notSlash notStar
          rw [if_neg notSlash, if_neg notStar, codeStep, if_neg notSlash]
          rw [codeStep, if_neg notSlash] at last
          obtain rfl : c = '\n' := Option.some.inj last
          exact ⟨rfl, rfl⟩
  | lineComment start =>
      cases lineEnd with
      | true => exact ⟨Option.some.inj last, rfl⟩
      | false => cases last
  | blockComment start => cases last
  | blockStar start =>
      rw [step] at last
      split at last
      · cases last
      · cases last
  | literal quote escaped =>
      obtain rfl : c = '\n' := Option.some.inj last
      rw [ends rfl]
      exact ⟨rfl, rfl⟩

end Mode

namespace Normalized

theorem scan_pending (mode : Mode) (offset : Nat) (text : Text) (pending : mode.pending = true)
    (closed : (scan mode offset text).openComment = none) :
    (scan mode offset text).pieces ≠ [] := by
  induction text using Text.splice_induction generalizing mode offset with
  | nil =>
      cases mode with
      | code => cases pending
      | literal quote escaped => cases pending
      | slash start => exact List.cons_ne_nil _ _
      | lineComment start => exact List.cons_ne_nil _ _
      | blockComment start => cases closed
      | blockStar start => cases closed
  | splice splice rest single ih =>
      rw [scan_splice mode offset splice rest single] at closed ⊢
      exact ih mode _ pending closed
  | char c rest kept ih =>
      rw [scan_char mode offset c rest kept] at closed ⊢
      intro none
      obtain ⟨now, later⟩ := List.append_eq_nil_iff.mp none
      exact ih _ _ (Mode.step_pending mode _ offset c now) closed later

structure EndsLine (mode : Mode) (normalized : Normalized) : Prop where
  closed : normalized.openComment = none
  last : normalized.text.getLast? = some '\n' ∨ mode = .code ∧ normalized.pieces = []

theorem finish_endsLine (mode : Mode) (offset : Nat) (ends : EndsLine mode (mode.finish offset)) :
    mode = .code := by
  obtain ⟨closed, last | none⟩ := ends
  · cases mode with
    | code => rfl
    | slash start => cases last
    | lineComment start => cases last
    | blockComment start => cases closed
    | blockStar start => cases closed
    | literal quote escaped => cases last
  · exact none.1

theorem step_endsLine (mode : Mode) (lineEnd : Bool) (offset : Nat) (c : Char) (rest : Text)
    (feed : c = '\n' → lineEnd = true)
    (ends : EndsLine mode ((scan (mode.step lineEnd offset c).2 (offset + c.utf8Size) rest).prepend
      (mode.step lineEnd offset c).1)) :
    let later := scan (mode.step lineEnd offset c).2 (offset + c.utf8Size) rest
    EndsLine (mode.step lineEnd offset c).2 later ∧ (later.pieces = [] → c = '\n') := by
  intro later
  have closed : later.openComment = none := ends.closed
  by_cases none : later.pieces = []
  · have last : ((mode.step lineEnd offset c).1.map Piece.char).getLast? = some '\n' := by
      rcases ends.last with last | ⟨_, empty⟩
      · rw [text, prepend, show (scan _ _ rest).pieces = [] from none, List.append_nil] at last
        exact last
      · obtain ⟨now, _⟩ := List.append_eq_nil_iff.mp empty
        exact absurd none (scan_pending _ _ rest (Mode.step_pending mode _ offset c now) closed)
    obtain ⟨isFeed, code⟩ := Mode.step_feed mode lineEnd offset c feed last
    exact ⟨⟨closed, .inr ⟨code, none⟩⟩, fun _ => isFeed⟩
  · refine ⟨⟨closed, .inl ?_⟩, fun empty => absurd empty none⟩
    rcases ends.last with last | ⟨_, empty⟩
    · rw [text, prepend, List.map_append, List.getLast?_append_of_ne_nil _ (by simpa using none)]
        at last
      exact last
    · exact absurd (List.append_eq_nil_iff.mp empty).2 none

@[simp] theorem prepend_prepend (first second : List Piece) (normalized : Normalized) :
    (normalized.prepend second).prepend first = normalized.prepend (first ++ second) := by
  rw [prepend, prepend, prepend, List.append_assoc]

-- Where a line ends, nothing of the text before it is left to complete.
theorem scan_lines (mode : Mode) (offset : Nat) (first second : Text)
    (ends : EndsLine mode (scan mode offset first)) :
    first.FeedEnds ∧ scan mode offset (first ++ second) =
      (scan .code (offset + first.byteLength) second).prepend (scan mode offset first).pieces := by
  induction first using Text.splice_induction generalizing mode offset with
  | nil =>
      obtain rfl := finish_endsLine mode offset ends
      refine ⟨?_, rfl⟩
      rintro c ⟨⟩
  | splice splice rest single ih =>
      rw [scan_splice mode offset splice rest single] at ends
      obtain ⟨fed, later⟩ := ih mode _ ends
      refine ⟨Text.feedEnds_append splice rest (Text.feedEnds_splice splice single) fed, ?_⟩
      rw [List.append_assoc, scan_splice mode offset splice _ single,
        scan_splice mode offset splice _ single, later, Text.byteLength_append, Nat.add_assoc]
  | char c rest kept ih =>
      rw [scan_char mode offset c rest kept] at ends
      obtain ⟨endsLater, isFeed⟩ := step_endsLine mode _ offset c rest (by rintro rfl; rfl) ends
      obtain ⟨fed, later⟩ := ih _ _ endsLater
      have whole : Text.FeedEnds (c :: rest) := by
        cases rest with
        | nil =>
            have code := finish_endsLine _ _ endsLater
            rintro d ⟨⟩
            apply isFeed
            rw [code]
            rfl
        | cons d rest => exact fed
      have feed := Text.feed_mem _ (List.cons_ne_nil c rest) whole
      have keptOn := (Text.startsSplice_append _ second feed).trans kept
      rw [List.cons_append] at keptOn
      refine ⟨whole, ?_⟩
      rw [List.cons_append, scan_char mode offset c _ keptOn, scan_char mode offset c rest kept,
        ← List.cons_append, Text.atLineEnd_append _ second feed, later, prepend_prepend,
        Text.byteLength_cons, Nat.add_assoc]
      rfl

theorem feedEnds_text (normalized : Normalized) (ends : EndsLine .code normalized) :
    Text.FeedEnds normalized.text := by
  rcases ends.last with last | ⟨_, none⟩
  · intro c found
    exact Option.some.inj (found.symm.trans last)
  · rw [text, none]
    rintro c ⟨⟩

theorem ofText_lines (first second : Text) (ends : EndsLine .code (ofText first)) :
    ofText (first ++ second) =
      ((ofText second).shift first.byteLength).prepend (ofText first).pieces := by
  rw [ofText, (scan_lines .code 0 first second ends).2, ofText, ofText, ← scan_shift]
  rfl

end Normalized

namespace Lexeme

def LineLocal (reader : Text → Text × Text) : Prop :=
  ∀ text more, '\n' ∈ text →
    reader (text ++ more) = ((reader text).1, (reader text).2 ++ more) ∧ '\n' ∈ (reader text).2

theorem run_lineLocal (holds : Char → Bool) (stops : holds '\n' = false) :
    LineLocal (run holds) := by
  intro text more feed
  induction text with
  | nil => cases feed
  | cons c rest ih =>
      by_cases goesOn : holds c = true
      · have later : '\n' ∈ rest := by
          refine List.mem_of_ne_of_mem ?_ feed
          rintro rfl
          rw [stops] at goesOn
          cases goesOn
        obtain ⟨same, left⟩ := ih later
        rw [run, Prod.mk.injEq] at same
        refine ⟨?_, ?_⟩
        · rw [List.cons_append, run, run, List.takeWhile_cons_of_pos goesOn,
            List.takeWhile_cons_of_pos goesOn, List.dropWhile_cons_of_pos goesOn,
            List.dropWhile_cons_of_pos goesOn, same.1, same.2]
          rfl
        · rw [run, List.dropWhile_cons_of_pos goesOn]
          exact left
      · rw [List.cons_append, run, run, List.takeWhile_cons_of_neg goesOn,
          List.takeWhile_cons_of_neg goesOn, List.dropWhile_cons_of_neg goesOn,
          List.dropWhile_cons_of_neg goesOn]
        exact ⟨rfl, feed⟩

theorem digits_lineLocal : LineLocal (run Char.isDigit) := run_lineLocal _ rfl

theorem fraction_lineLocal : LineLocal fraction := by
  intro text more feed
  cases text with
  | nil => cases feed
  | cons c rest =>
      by_cases point : c = '.'
      · subst point
        have later : '\n' ∈ rest := by simpa using feed
        obtain ⟨same, left⟩ := digits_lineLocal rest more later
        rw [run, Prod.mk.injEq] at same
        refine ⟨?_, left⟩
        rw [List.cons_append, fraction, fraction, same.1, same.2]
        rfl
      · rw [List.cons_append, Grammar.fraction_plain c _ point, Grammar.fraction_plain c _ point]
        exact ⟨rfl, feed⟩

theorem sign_lineLocal : LineLocal sign := by
  intro text more feed
  cases text with
  | nil => cases feed
  | cons c rest =>
      by_cases signs : Grammar.Sign c
      · have later : '\n' ∈ rest := by
          refine List.mem_of_ne_of_mem ?_ feed
          rintro rfl
          rcases signs with plus | minus
          · cases plus
          · cases minus
        rw [List.cons_append, Grammar.sign_taken c _ signs, Grammar.sign_taken c _ signs]
        exact ⟨rfl, later⟩
      · have plain : ∀ tail, ∀ d ∈ (c :: tail).head?, ¬ Grammar.Sign d := by
          rintro tail d ⟨⟩
          exact signs
        rw [List.cons_append, Grammar.sign_plain _ (plain _), Grammar.sign_plain _ (plain _)]
        exact ⟨rfl, feed⟩

theorem exponent_lineLocal : LineLocal exponent := by
  intro text more feed
  cases text with
  | nil => cases feed
  | cons c rest =>
      by_cases marker : CharClass.isExponentMarker c = true
      · have later : '\n' ∈ rest := by
          refine List.mem_of_ne_of_mem ?_ feed
          rintro rfl
          cases marker
        obtain ⟨signed, afterSign⟩ := sign_lineLocal rest more later
        obtain ⟨digits, afterDigits⟩ := digits_lineLocal _ more afterSign
        rw [List.cons_append, exponent, exponent, if_pos marker, if_pos marker]
        dsimp only
        rw [signed]
        dsimp only
        rw [digits]
        exact ⟨rfl, afterDigits⟩
      · rw [List.cons_append, exponent, exponent, if_neg marker, if_neg marker]
        exact ⟨rfl, feed⟩

theorem number_lineLocal : LineLocal number := by
  intro text more feed
  obtain ⟨whole, afterWhole⟩ := digits_lineLocal text more feed
  obtain ⟨fractional, afterPoint⟩ := fraction_lineLocal _ more afterWhole
  obtain ⟨scaled, afterScale⟩ := exponent_lineLocal _ more afterPoint
  obtain ⟨suffix, afterSuffix⟩ := run_lineLocal CharClass.isNameContinue rfl _ more afterScale
  rw [number, number]
  dsimp only
  rw [whole]
  dsimp only
  rw [fractional]
  dsimp only
  rw [scaled]
  dsimp only
  rw [suffix]
  exact ⟨rfl, afterSuffix⟩

theorem literal_lineLocal (quote : Char) (escaped : Bool) : LineLocal (literal quote escaped) := by
  intro text more feed
  induction text generalizing escaped with
  | nil => cases feed
  | cons c rest ih =>
      have sameEnd := Text.atLineEnd_append (c :: rest) more feed
      rw [List.cons_append] at sameEnd ⊢
      by_cases ends : Text.atLineEnd (c :: rest) = true
      · rw [literal, literal, sameEnd, if_pos ends, if_pos ends]
        exact ⟨rfl, feed⟩
      · have later : '\n' ∈ rest := by
          refine List.mem_of_ne_of_mem ?_ feed
          rintro rfl
          exact ends rfl
        rw [literal, literal, sameEnd, if_neg ends, if_neg ends]
        by_cases closes : (!escaped && c == quote) = true
        · rw [if_pos closes, if_pos closes]
          exact ⟨rfl, later⟩
        · obtain ⟨same, left⟩ := ih (!escaped && c == '\\') later
          rw [if_neg closes, if_neg closes, same]
          exact ⟨rfl, left⟩

theorem first_lineLocal (c : Char) (rest more : Text) (feed : '\n' ∈ c :: rest) :
    first c (rest ++ more) = ((first c rest).1, (first c rest).2 ++ more) := by
  have later : c ≠ '\n' → '\n' ∈ rest := fun other => List.mem_of_ne_of_mem other.symm feed
  rw [first.eq_def, first.eq_def]
  by_cases quote : CharClass.isQuote c = true
  · rw [if_pos quote, if_pos quote,
      (literal_lineLocal c false rest more (later (by rintro rfl; cases quote))).1]
  · by_cases name : CharClass.isNameStart c = true
    · rw [if_neg quote, if_neg quote, if_pos name, if_pos name,
        (run_lineLocal _ rfl rest more (later (by rintro rfl; cases name))).1]
    · by_cases digit : c.isDigit = true
      · rw [if_neg quote, if_neg quote, if_neg name, if_neg name, if_pos digit, if_pos digit,
          ← List.cons_append, (number_lineLocal (c :: rest) more feed).1]
      · by_cases blank : CharClass.isSpaceTab c = true
        · rw [if_neg quote, if_neg quote, if_neg name, if_neg name, if_neg digit, if_neg digit,
            if_pos blank, if_pos blank,
            (run_lineLocal _ rfl rest more (later (by rintro rfl; cases blank))).1]
        · rw [if_neg quote, if_neg quote, if_neg name, if_neg name, if_neg digit, if_neg digit,
            if_neg blank, if_neg blank]
          cases rest with
          | nil =>
              obtain rfl := List.mem_singleton.mp feed
              rfl
          | cons d rest =>
              rw [List.cons_append]
              split
              · rfl
              · rename_i same
                cases same
                rfl
              · rename_i noFeed noReturn
                split
                · exact absurd rfl noFeed
                · rename_i same
                  cases same
                  exact (noReturn _ rfl rfl).elim
                · rfl

theorem scan_lines (first second : Text) (ends : first.FeedEnds) :
    scan (first ++ second) = scan first ++ scan second := by
  fun_induction scan first with
  | case1 => rfl
  | case2 c rest ih =>
      have feed := Text.feed_mem _ (List.cons_ne_nil c rest) ends
      have whole := first_append c rest
      rw [← whole] at ends
      rw [List.cons_append, scan, first_lineLocal c rest second feed,
        ih (Text.feedEnds_tail _ _ ends), List.cons_append]

theorem newline_feed (c : Char) (rest : Text) (newline : (first c rest).1.kind = .newline) :
    (first c rest).1.text.getLast? = some '\n' := by
  have munches := Grammar.first_munches c rest
  rw [newline] at munches
  cases munches with
  | newline word taken ends =>
      rcases ends with feed | carriage
      · rw [feed]
        rfl
      · rw [show (first c rest).1.text = ['\r', '\n'] from carriage]
        rfl

theorem scan_newline (text : Text) :
    ∀ lexeme ∈ scan text, lexeme.kind = .newline → lexeme.text.getLast? = some '\n' := by
  fun_induction scan text with
  | case1 =>
      intro lexeme member
      cases member
  | case2 c rest ih =>
      intro lexeme member newline
      rcases List.mem_cons.mp member with rfl | later
      · exact newline_feed c rest newline
      · exact ih lexeme later newline

theorem scan_ends (text : Text) (lexeme : Lexeme) (last : (scan text).getLast? = some lexeme)
    (newline : lexeme.kind = .newline) : text.getLast? = some '\n' := by
  obtain ⟨earlier, same⟩ := List.getLast?_eq_some_iff.mp last
  have whole := scan_append text
  have member : lexeme ∈ scan text := by simp [same]
  rw [same, List.flatMap_append, List.flatMap_singleton] at whole
  rw [← whole, List.getLast?_append, scan_newline text lexeme member newline]
  rfl

end Lexeme

namespace SourceFile

@[simp] theorem startsAfterBreaks_append (position : Nat) (first second : Text) :
    startsAfterBreaks position (first ++ second) =
      startsAfterBreaks position first ++
        startsAfterBreaks (position + first.byteLength) second := by
  induction first generalizing position with
  | nil => rfl
  | cons c rest ih =>
      rw [List.cons_append, startsAfterBreaks, startsAfterBreaks, ih, Text.byteLength_cons,
        Nat.add_assoc]
      split <;> rfl

theorem startsAfterBreaks_shift (position distance : Nat) (text : Text) :
    startsAfterBreaks (position + distance) text =
      (startsAfterBreaks position text).map (· + distance) := by
  induction text generalizing position with
  | nil => rfl
  | cons c rest ih =>
      rw [startsAfterBreaks, startsAfterBreaks, Nat.add_right_comm, ih]
      split <;> rfl

theorem startsAfterBreaks_bounds (position : Nat) (text : Text) :
    ∀ start ∈ startsAfterBreaks position text,
      position < start ∧ start ≤ position + text.byteLength := by
  induction text generalizing position with
  | nil =>
      intro start member
      cases member
  | cons c rest ih =>
      have wide := Char.utf8Size_pos c
      intro start member
      have cases : start = position + c.utf8Size ∨
          start ∈ startsAfterBreaks (position + c.utf8Size) rest := by
        rw [startsAfterBreaks] at member
        split at member
        · exact List.mem_cons.mp member
        · exact Or.inr member
      rw [Text.byteLength_cons]
      rcases cases with same | later
      · omega
      · have bounds := ih _ start later
        omega

theorem startsAfterBreaks_length (position : Nat) (text : Text) :
    (startsAfterBreaks position text).length = text.count '\n' := by
  induction text generalizing position with
  | nil => rfl
  | cons c rest ih =>
      rw [startsAfterBreaks, List.count_cons]
      by_cases feed : c = '\n'
      · simp [feed, ih]
      · simp [feed, ih]

theorem startsAfterBreaks_last (text : Text) (ends : text.FeedEnds) :
    (0 :: startsAfterBreaks 0 text).getLastD 0 = text.byteLength := by
  rcases List.eq_nil_or_concat text with rfl | ⟨before, c, rfl⟩
  · rfl
  · obtain rfl : c = '\n' := ends c (by simp)
    have feed : startsAfterBreaks (0 + Text.byteLength before) ['\n'] =
        [Text.byteLength (before ++ ['\n'])] := by
      simp [startsAfterBreaks]
    rw [List.concat_eq_append, startsAfterBreaks_append, feed, ← List.cons_append,
      List.getLastD_concat]

theorem startsUpTo_front (name other first second : Text) (position : Nat)
    (inside : position < first.byteLength) :
    (make name (first ++ second)).startsUpTo position = (make other first).startsUpTo position := by
  have past : (startsAfterBreaks (0 + first.byteLength) second).takeWhile (· ≤ position) = [] := by
    cases starts : startsAfterBreaks (0 + first.byteLength) second with
    | nil => rfl
    | cons start later =>
        have bounds := startsAfterBreaks_bounds (0 + first.byteLength) second start
          (by rw [starts]; exact List.mem_cons_self)
        apply List.takeWhile_cons_of_neg
        simp only [decide_eq_true_eq]
        omega
  rw [startsUpTo, startsUpTo, make, make, startsAfterBreaks_append, ← List.cons_append,
    List.takeWhile_append, past, List.append_nil]
  split
  · exact ((List.takeWhile_prefix _).eq_of_length ‹_›).symm
  · rfl

theorem lineColumn_front (name other first second : Text) (position : Nat)
    (inside : position < first.byteLength) :
    (make name (first ++ second)).lineColumn position = (make other first).lineColumn position := by
  rw [lineColumn, lineColumn, startsUpTo_front name other first second position inside]

theorem startsUpTo_back (name first second : Text) (position : Nat) :
    (make name (first ++ second)).startsUpTo (position + first.byteLength) =
      0 :: startsAfterBreaks 0 first ++
        ((startsAfterBreaks 0 second).takeWhile (· ≤ position)).map (· + first.byteLength) := by
  have reached : ∀ start ∈ 0 :: startsAfterBreaks 0 first,
      decide (start ≤ position + first.byteLength) = true := by
    intro start member
    rw [decide_eq_true_eq]
    rcases List.mem_cons.mp member with rfl | later
    · exact Nat.zero_le _
    · have bounds := startsAfterBreaks_bounds 0 first start later
      omega
  rw [startsUpTo, make, startsAfterBreaks_append, ← List.cons_append,
    List.takeWhile_append_of_pos reached, startsAfterBreaks_shift, List.takeWhile_map]
  simp only [Function.comp_def, Nat.add_le_add_iff_right]

theorem lineColumn_back (name other first second : Text) (position : Nat) (ends : first.FeedEnds) :
    (make name (first ++ second)).lineColumn (position + first.byteLength) =
      (((make other second).lineColumn position).1 + first.count '\n',
        ((make other second).lineColumn position).2) := by
  have own : (make other second).startsUpTo position =
      0 :: (startsAfterBreaks 0 second).takeWhile (· ≤ position) := by
    rw [startsUpTo, make, List.takeWhile_cons_of_pos (by simp)]
  rw [lineColumn, lineColumn, startsUpTo_back, own]
  generalize (startsAfterBreaks 0 second).takeWhile (· ≤ position) = later
  have last : (0 :: startsAfterBreaks 0 first ++ later.map (· + first.byteLength)).getLastD 0 =
      (0 :: later).getLastD 0 + first.byteLength := by
    rcases List.eq_nil_or_concat later with rfl | ⟨earlier, start, rfl⟩
    · rw [List.map_nil, List.append_nil, startsAfterBreaks_last first ends]
      exact (Nat.zero_add _).symm
    · rw [List.concat_eq_append, List.map_append, List.map_singleton, ← List.append_assoc,
        List.getLastD_concat, ← List.cons_append, List.getLastD_concat]
  dsimp only
  rw [last, Nat.add_sub_add_right, List.length_append, List.length_cons, List.length_cons,
    startsAfterBreaks_length, List.length_map]
  congr 1
  omega

end SourceFile

theorem covers_mem (before text : Text) (spans : List Span)
    (covers : Covers before.byteLength text spans) : ∀ span ∈ spans, ∃ gap own rest,
      text = gap ++ (own ++ rest) ∧ own ≠ [] ∧
        span = ⟨Text.byteLength (before ++ gap),
          Text.byteLength (before ++ gap) + own.byteLength⟩ := by
  induction spans generalizing before text with
  | nil =>
      intro span member
      cases member
  | cons head spans ih =>
      obtain ⟨gap, own, rest, same, _, filled, at_, tail⟩ := covers
      intro span member
      rcases List.mem_cons.mp member with rfl | later
      · refine ⟨gap, own, rest, same, filled, ?_⟩
        rw [at_, Text.byteLength_append]
      · have stop : head.stop = Text.byteLength (before ++ (gap ++ own)) := by
          rw [at_]
          simp [Nat.add_assoc]
        rw [stop] at tail
        obtain ⟨more, part, left, split, whole, place⟩ := ih _ rest tail span later
        refine ⟨gap ++ own ++ more, part, left, ?_, whole, ?_⟩
        · rw [same, split]
          simp only [List.append_assoc]
        · rw [place, List.append_assoc before]

namespace Piece

theorem chars_shift (distance : Nat) (pieces : List Piece) :
    (pieces.map (shift distance)).map char = pieces.map char := by
  rw [List.map_map]
  exact List.map_congr_left fun piece _ => char_shift distance piece

@[simp] theorem shift_zero (pieces : List Piece) : pieces.map (shift 0) = pieces := by
  refine (List.map_congr_left fun piece _ => ?_).trans (List.map_id pieces)
  cases piece <;> rfl

theorem origins_shift (distance : Nat) (pieces : List Piece) :
    (pieces.map (shift distance)).map origin = (pieces.map origin).map (Span.shift distance) := by
  rw [List.map_map, List.map_map]
  exact List.map_congr_left fun piece _ => origin_shift distance piece

end Piece

namespace Token

theorem place_append (source : Source) (position : Nat) (first second : List Lexeme) :
    place source position (first ++ second) = place source position first ++
      place source (position + Text.byteLength (first.flatMap Lexeme.text)) second := by
  induction first generalizing position with
  | nil => rfl
  | cons lexeme first ih =>
      rw [List.cons_append, place, place, List.flatMap_cons, Text.byteLength_append, ih,
        Nat.add_assoc]
      rfl

def lexeme (token : Token) : Lexeme := ⟨token.kind, token.text⟩

@[simp] theorem place_lexemes (source : Source) (position : Nat) (lexemes : List Lexeme) :
    (place source position lexemes).map lexeme = lexemes := by
  induction lexemes generalizing position with
  | nil => rfl
  | cons head lexemes ih => rw [place, List.map_cons, ih, lexeme]

def moved (source : Source) (ahead distance : Nat) (token : Token) : Token :=
  { token with
    source := source
    span := token.span.shift ahead
    origin := token.origin.shift distance }

theorem place_moved (left right : Source) (lexemes : List Lexeme)
    (front before pieces after : List Piece) (distance : Nat)
    (leftRecords : left.offsets.Records ((before ++ pieces).flatMap Piece.byteSpans))
    (rightRecords : right.offsets.Records
      ((front ++ ((before ++ pieces).map (Piece.shift distance) ++ after)).flatMap Piece.byteSpans))
    (texts : lexemes.flatMap Lexeme.text = pieces.map Piece.char)
    (filled : ∀ lexeme ∈ lexemes, lexeme.text ≠ []) :
    place right (Text.byteLength (before.map Piece.char) + Text.byteLength (front.map Piece.char))
        lexemes =
      (place left (Text.byteLength (before.map Piece.char)) lexemes).map
        (moved right (Text.byteLength (front.map Piece.char)) distance) := by
  induction lexemes generalizing before pieces with
  | nil => rfl
  | cons lexeme lexemes ih =>
      rw [List.flatMap_cons] at texts
      obtain ⟨group, later, rfl, own, rest⟩ := List.map_eq_append_iff.mp texts.symm
      cases group with
      | nil => exact absurd own.symm (filled lexeme List.mem_cons_self)
      | cons first more =>
          have here := left.offsets.origin_group before later first more leftRecords
          have there := right.offsets.origin_group (front ++ before.map (Piece.shift distance))
            (later.map (Piece.shift distance) ++ after) (first.shift distance)
            (more.map (Piece.shift distance)) (by simpa using rightRecords)
          have next := ih (before ++ first :: more) later (by simpa using leftRecords)
            (by simpa using rightRecords) rest.symm
            (fun other member => filled other (List.mem_cons_of_mem _ member))
          rw [Piece.origins_shift, Piece.origin_shift, Span.hull_shift, ← here, List.map_append,
            ← List.map_cons, Piece.chars_shift, Piece.chars_shift, own, Text.byteLength_append,
            Nat.add_comm (Text.byteLength (front.map Piece.char))] at there
          rw [List.map_append, own, Text.byteLength_append, Nat.add_right_comm] at next
          rw [place, place, List.map_cons, there, next, Nat.add_right_comm]
          rfl

-- All that can be read off a token, but for which source it is from.
structure Reading where
  kind : Kind
  text : Text
  span : Span
  origin : Span
  originText : Text
  line : Nat
  column : Nat
deriving DecidableEq, Repr

def reading (token : Token) : Reading :=
  ⟨token.kind, token.text, token.span, token.origin, token.originText, token.location.line,
    token.location.column⟩

def Reading.shift (ahead distance lines : Nat) (reading : Reading) : Reading :=
  { reading with
    span := reading.span.shift ahead
    origin := reading.origin.shift distance
    line := reading.line + lines }

theorem reading_moved (token : Token) (source : Source) (ahead distance lines : Nat)
    (text : (source.file.content.slice? (token.origin.start + distance)
      (token.origin.stop + distance)).getD [] = token.originText)
    (place : source.file.lineColumn (token.origin.start + distance) =
      ((token.source.file.lineColumn token.origin.start).1 + lines,
        (token.source.file.lineColumn token.origin.start).2)) :
    (token.moved source ahead distance).reading = token.reading.shift ahead distance lines := by
  have location : (token.moved source ahead distance).location =
      ⟨source.file.name, token.location.line + lines, token.location.column⟩ := by
    rw [Token.location, SourceFile.locate, show (token.moved source ahead distance).origin.start =
      token.origin.start + distance from rfl]
    exact congrArg (fun place => Location.mk source.file.name place.1 place.2) place
  have own : (token.moved source ahead distance).originText = token.originText := text
  rw [reading, location, own]
  rfl

end Token

namespace Lexed

variable (serial front back : Nat) (name other third first second : Text)

theorem endsLine_of_newline (closed : (ofText front name first).openComment = none)
    (newline : (ofText front name first).tokens.getLast?.map Token.kind = some .newline) :
    Normalized.EndsLine .code (Normalized.ofText first) := by
  obtain ⟨token, last, kind⟩ := Option.map_eq_some_iff.mp newline
  refine ⟨closed, Or.inl (Lexeme.scan_ends _ token.lexeme ?_ kind)⟩
  rw [← Token.place_lexemes (ofText front name first).source 0 (Lexeme.scan _), List.getLast?_map]
  exact congrArg (Option.map Token.lexeme) last

theorem tokens_lines (ends : Normalized.EndsLine .code (Normalized.ofText first)) :
    let source := (ofText serial third (first ++ second)).source
    (ofText serial third (first ++ second)).tokens =
      (ofText front name first).tokens.map (Token.moved source 0 0) ++
        (ofText back other second).tokens.map (Token.moved source
          (Text.byteLength (Normalized.ofText first).text) first.byteLength) := by
  intro source
  have joined := Normalized.ofText_lines first second ends
  have pieces : (Normalized.ofText (first ++ second)).pieces = (Normalized.ofText first).pieces ++
      (Normalized.ofText second).pieces.map (Piece.shift first.byteLength) := by
    rw [joined]
    rfl
  have text : (Normalized.ofText (first ++ second)).text =
      (Normalized.ofText first).text ++ (Normalized.ofText second).text := by
    rw [Normalized.text, pieces, List.map_append, Piece.chars_shift]
    rfl
  have records := OffsetMap.records_ofPieces (Normalized.ofText (first ++ second)).pieces
  have before := Token.place_moved (ofText front name first).source source
    (Lexeme.scan (Normalized.ofText first).text) [] [] (Normalized.ofText first).pieces
    ((Normalized.ofText second).pieces.map (Piece.shift first.byteLength)) 0
    (OffsetMap.records_ofPieces _)
    (by rw [Piece.shift_zero, List.nil_append, List.nil_append, ← pieces]; exact records)
    (Lexeme.scan_append _) (Lexeme.scan_filled _)
  have after := Token.place_moved (ofText back other second).source source
    (Lexeme.scan (Normalized.ofText second).text) (Normalized.ofText first).pieces []
    (Normalized.ofText second).pieces [] first.byteLength (OffsetMap.records_ofPieces _)
    (by rw [List.append_nil, List.nil_append, ← pieces]; exact records) (Lexeme.scan_append _)
    (Lexeme.scan_filled _)
  calc (ofText serial third (first ++ second)).tokens
      = Token.place source 0 (Lexeme.scan ((Normalized.ofText first).text ++
          (Normalized.ofText second).text)) := by
        rw [← text]
        rfl
    _ = Token.place source 0 (Lexeme.scan (Normalized.ofText first).text) ++
          Token.place source (0 + Text.byteLength (Normalized.ofText first).text)
            (Lexeme.scan (Normalized.ofText second).text) := by
        rw [Lexeme.scan_lines _ _ (Normalized.feedEnds_text _ ends), Token.place_append,
          Lexeme.scan_append]
    _ = _ := congrArg₂ (· ++ ·) before after

theorem token_part (token : Token) (member : token ∈ (ofText front name first).tokens) :
    ∃ before own after, first = before ++ (own ++ after) ∧ own ≠ [] ∧
      token.origin = ⟨Text.byteLength before, Text.byteLength before + Text.byteLength own⟩ := by
  obtain ⟨kept, beyond, whole, covers, _⟩ := Normalized.ofText_covers first
  have placed := Token.place_covers (ofText front name first).source
    (Lexeme.scan (Normalized.ofText first).text) [] (Normalized.ofText first).pieces
    (OffsetMap.records_ofPieces _) (Lexeme.scan_append _) (Lexeme.scan_filled _) 0 kept covers
  obtain ⟨gap, own, rest, same, filled, place⟩ :=
    covers_mem [] kept _ placed token.origin (List.mem_map_of_mem member)
  refine ⟨gap, own, rest ++ beyond, ?_, filled, place⟩
  rw [whole, same]
  simp only [List.append_assoc]

theorem reading_front (token : Token) (member : token ∈ (ofText front name first).tokens) :
    (token.moved (ofText serial third (first ++ second)).source 0 0).reading = token.reading := by
  obtain ⟨before, own, after, same, filled, place⟩ := token_part front name first token member
  have file : token.source.file = .make name first := by
    rw [Token.place_source _ _ _ token member]
  apply Token.reading_moved token _ 0 0 0
  · have shorter := Text.slice_append before own after
    have longer := Text.slice_append before own (after ++ second)
    rw [← same] at shorter
    rw [← List.append_assoc own, ← List.append_assoc before, ← same] at longer
    rw [Token.originText, file, place]
    exact congrArg (Option.getD · []) (longer.trans shorter.symm)
  · have inside : token.origin.start < first.byteLength := by
      have wide := Text.byteLength_pos own filled
      rw [place, same, Text.byteLength_append, Text.byteLength_append]
      dsimp only
      omega
    rw [file]
    exact SourceFile.lineColumn_front third name first second _ inside

theorem reading_back (ends : first.FeedEnds) (ahead : Nat) (token : Token)
    (member : token ∈ (ofText back other second).tokens) :
    (token.moved (ofText serial third (first ++ second)).source ahead first.byteLength).reading =
      token.reading.shift ahead first.byteLength (first.count '\n') := by
  have file : token.source.file = .make other second := by
    rw [Token.place_source _ _ _ token member]
  apply Token.reading_moved
  · rw [Token.originText, file]
    exact congrArg (Option.getD · []) (Text.slice_add first second _ _)
  · rw [file]
    exact SourceFile.lineColumn_back third other first second _ ends

theorem tokens_joined (closed : (ofText front name first).openComment = none)
    (newline : (ofText front name first).tokens.getLast?.map Token.kind = some .newline) :
    (ofText serial third (first ++ second)).tokens.map Token.reading =
      (ofText front name first).tokens.map Token.reading ++
        (ofText back other second).tokens.map (fun token => token.reading.shift
          (ofText front name first).source.normalized.byteLength first.byteLength
          (first.count '\n')) ∧
    (ofText serial third (first ++ second)).openComment =
      (ofText back other second).openComment.map (· + first.byteLength) := by
  have ends := endsLine_of_newline front name first closed newline
  have fed := (Normalized.scan_lines .code 0 first second ends).1
  refine ⟨?_, ?_⟩
  · rw [tokens_lines serial front back name other third first second ends, List.map_append,
      List.map_map, List.map_map]
    exact congrArg₂ (· ++ ·)
      (List.map_congr_left (reading_front serial front name third first second))
      (List.map_congr_left (reading_back serial back other third first second fed _))
  · exact congrArg Normalized.openComment (Normalized.ofText_lines first second ends)

-- The first text has splices before and after its last line end, and a comment and a literal that
-- reach a line end; the second one ends inside a comment.
theorem tokens_joined_sample :
    let first := "a\\\r\nb/*\n*/'x\\\n\r\n\\\n".toList
    let second := "é\n\ty/*z".toList
    (ofText 1 [] first).openComment = none ∧
    (ofText 1 [] first).tokens.getLast?.map Token.kind = some .newline ∧
    (ofText 0 "a.c".toList (first ++ second)).tokens.map Token.reading =
      (ofText 1 [] first).tokens.map Token.reading ++
        (ofText 2 [] second).tokens.map (fun token => token.reading.shift 7 18 5) ∧
    (ofText 0 "a.c".toList (first ++ second)).openComment = some 23 := by
  intro first second
  have closed : (ofText 1 [] first).openComment = none := by decide +kernel
  have newline : (ofText 1 [] first).tokens.getLast?.map Token.kind = some .newline := by
    decide +kernel
  obtain ⟨tokens, unclosed⟩ := tokens_joined 0 1 2 [] [] "a.c".toList first second closed newline
  have ahead : (ofText 1 [] first).source.normalized.byteLength = 7 := by decide +kernel
  have distance : Text.byteLength first = 18 := by decide +kernel
  have lines : first.count '\n' = 5 := by decide +kernel
  have own : (ofText 2 [] second).openComment = some 5 := by decide +kernel
  rw [ahead, distance, lines] at tokens
  rw [own, distance] at unclosed
  exact ⟨closed, newline, tokens, unclosed⟩

end Lexed

end CPreprocessor
