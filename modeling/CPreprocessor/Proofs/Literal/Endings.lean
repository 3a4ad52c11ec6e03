import CPreprocessor.Proofs.Lexing.Grammar
import CPreprocessor.Proofs.Lexing.Partition

/-!
Where a literal ends. The scanner goes from left to right and passes over what a backslash escapes;
whoever takes the quotes off looks at the end only and counts backslashes there. They agree on
whether a literal was closed.
-/

set_option autoImplicit false

namespace CPreprocessor

namespace Literal

theorem stripClosing_closed (quote : Char) (body : Text) (even : endsInEscape body = false) :
    stripClosing quote (body ++ [quote]) = body := by
  rw [stripClosing, List.getLast?_concat, List.dropLast_concat, even]
  exact if_pos ⟨rfl, rfl⟩

theorem stripClosing_unclosed (quote c : Char) (body : Text)
    (escaped : c = quote → endsInEscape body = true) :
    stripClosing quote (body ++ [c]) = body ++ [c] := by
  rw [stripClosing, List.getLast?_concat, List.dropLast_concat]
  refine if_neg ?_
  rintro ⟨same, even⟩
  rw [escaped (Option.some.inj same)] at even
  cases even

end Literal

namespace InPlace

open Utf8 (isAscii)

inductive Ending where
  | quote
  | line
  | text
deriving DecidableEq, Repr

def Ending.mark (quote : Char) : Ending → Text
  | .quote => [quote]
  | .line => []
  | .text => []

section

variable (ending : Ending) (quote : Char) {text inner : Text}
  (whole : text = quote :: (inner ++ ending.mark quote))
include whole

theorem Ending.closed_iff : text = quote :: (inner ++ [quote]) ↔ ending = .quote := by
  subst whole
  cases ending <;> simp [mark]

theorem Ending.open_iff : text = quote :: inner ↔ ending ≠ .quote := by
  subst whole
  cases ending <;> simp [mark]

end

def ending? (quote : UInt8) (cursor : Cursor) : Option (Ending × Cursor) :=
  if _ends : cursor.atEnd = true then some (.text, cursor)
  else if _breaks : cursor.atLineEnd = true then some (.line, cursor)
  else if cursor.current? = some quote then some (.quote, cursor.advance)
  else if cursor.current? = some '\\'.toUInt8 then
    if _short : (cursor.advance.atEnd || cursor.advance.atLineEnd) = true then
      ending? quote cursor.advance
    else
      match _moves : cursor.advance.advanceChar? with
      | none => none
      | some next => ending? quote next
  else
    match _moves : cursor.advanceChar? with
    | none => none
    | some next => ending? quote next
termination_by cursor.ahead.length
decreasing_by
  · exact advance_lt cursor (Bool.eq_false_iff.mpr _ends)
  · exact Nat.lt_of_lt_of_le
      (cursor.advance.advanceChar_lt next (cursor.advance.not_atEnd _short) _moves) (advance_le cursor)
  · exact cursor.advanceChar_lt next (Bool.eq_false_iff.mpr _ends) _moves

theorem ending_literal (quote : UInt8) (cursor : Cursor) :
    (ending? quote cursor).map Prod.snd = literal? quote cursor := by
  fun_induction ending? quote cursor with
  | case1 cursor ends =>
      rw [literal?, dif_pos (by rw [ends, Bool.true_or])]
      rfl
  | case2 cursor ends breaks =>
      rw [literal?, dif_pos (by rw [breaks, Bool.or_true])]
      rfl
  | case3 cursor ends breaks closes =>
      rw [literal?, dif_neg (by simp [ends, breaks]), if_pos closes]
      rfl
  | case4 cursor ends breaks closes escapes short ih =>
      rw [literal?, dif_neg (by simp [ends, breaks]), if_neg closes, if_pos escapes, dif_pos short, ih]
  | case5 cursor ends breaks closes escapes short fails =>
      rw [literal?, dif_neg (by simp [ends, breaks]), if_neg closes, if_pos escapes, dif_neg short]
      split
      · rfl
      · rename_i next moves
        cases fails.symm.trans moves
  | case6 cursor ends breaks closes escapes short next moves ih =>
      rw [literal?, dif_neg (by simp [ends, breaks]), if_neg closes, if_pos escapes, dif_neg short]
      split
      · rename_i fails
        cases moves.symm.trans fails
      · rename_i other found
        cases moves.symm.trans found
        exact ih
  | case7 cursor ends breaks closes escapes fails =>
      rw [literal?, dif_neg (by simp [ends, breaks]), if_neg closes, if_neg escapes]
      split
      · rfl
      · rename_i next moves
        cases fails.symm.trans moves
  | case8 cursor ends breaks closes escapes next moves ih =>
      rw [literal?, dif_neg (by simp [ends, breaks]), if_neg closes, if_neg escapes]
      split
      · rename_i fails
        cases moves.symm.trans fails
      · rename_i other found
        cases moves.symm.trans found
        exact ih

-- The reading passed over a word and stopped after it. `seen` is what the literal had before, and
-- what was passed is found again if the closing quote is taken off and put back.
def Strips (quote : Char) (before seen : Text) (result : Option (Ending × Cursor)) : Prop :=
  ∃ ending stop word rest, result = some (ending, stop) ∧ stop.Splits (before ++ word) rest ∧
    (ending ≠ .quote → (stop.atEnd || stop.atLineEnd) = true) ∧
    Literal.stripClosing quote (seen ++ word) ++ ending.mark quote = seen ++ word

theorem Strips.passed {quote : Char} {before seen own : Text} {result : Option (Ending × Cursor)}
    (later : Strips quote (before ++ own) (seen ++ own) result) :
    Strips quote before seen result := by
  obtain ⟨ending, stop, word, rest, found, splits, stops, strips⟩ := later
  rw [List.append_assoc] at splits strips
  exact ⟨ending, stop, own ++ word, rest, found, splits, stops, strips⟩

theorem strips_here {quote : Char} {before seen rest : Text} {cursor : Cursor}
    (splits : cursor.Splits before rest) (unclosed : Literal.stripClosing quote seen = seen)
    (stops : (cursor.atEnd || cursor.atLineEnd) = true) (ending : Ending)
    (bare : ending.mark quote = []) : Strips quote before seen (some (ending, cursor)) := by
  refine ⟨ending, cursor, [], rest, rfl, ?_, fun _ => stops, ?_⟩
  · rwa [List.append_nil]
  · rw [List.append_nil, unclosed, bare, List.append_nil]

-- An escape is left open only where the line or the text ends, so a quote that the loop looks at
-- is a closing one.
theorem ending_strips (quote : Char) (ascii : isAscii quote = true) (cursor : Cursor)
    (before after seen : Text) (splits : cursor.Splits before after)
    (unclosed : Literal.stripClosing quote seen = seen)
    (settled : Literal.endsInEscape seen = true → (cursor.atEnd || cursor.atLineEnd) = true) :
    Strips quote before seen (ending? quote.toUInt8 cursor) := by
  fun_induction ending? quote.toUInt8 cursor generalizing before after seen with
  | case1 cursor ends => exact strips_here splits unclosed (by rw [ends, Bool.true_or]) .text rfl
  | case2 cursor ends breaks =>
      exact strips_here splits unclosed (by rw [breaks, Bool.or_true]) .line rfl
  | case3 cursor ends breaks closes =>
      obtain ⟨rest, rfl⟩ := List.head?_eq_some_iff.mp ((splits.current_iff quote ascii).mp closes)
      have even : Literal.endsInEscape seen = false :=
        Bool.eq_false_iff.mpr fun odd => absurd (settled odd) (by simp [ends, breaks])
      refine ⟨.quote, cursor.advance, [quote], rest, rfl, splits.advance ascii,
        fun differs => absurd rfl differs, ?_⟩
      rw [Literal.stripClosing_closed quote seen even]
      rfl
  | case4 cursor ends breaks closes escapes short ih =>
      obtain ⟨rest, rfl⟩ := List.head?_eq_some_iff.mp ((splits.current_iff '\\' rfl).mp escapes)
      have other : '\\' ≠ quote := fun same => closes (same ▸ escapes)
      have open_ := Literal.stripClosing_unclosed quote '\\' seen fun same => absurd same other
      exact (ih _ _ _ (splits.advance rfl) open_ fun _ => short).passed
  | case5 cursor ends breaks closes escapes short fails =>
      obtain ⟨rest, rfl⟩ := List.head?_eq_some_iff.mp ((splits.current_iff '\\' rfl).mp escapes)
      obtain ⟨c, more, _, moves, _⟩ :=
        (splits.advance rfl).nextChar (cursor.advance.not_atEnd short)
      cases fails.symm.trans moves
  | case6 cursor ends breaks closes escapes short next moves ih =>
      obtain ⟨rest, rfl⟩ := List.head?_eq_some_iff.mp ((splits.current_iff '\\' rfl).mp escapes)
      obtain ⟨c, more, rfl, found, passed⟩ :=
        (splits.advance rfl).nextChar (cursor.advance.not_atEnd short)
      cases moves.symm.trans found
      have even : Literal.endsInEscape seen = false :=
        Bool.eq_false_iff.mpr fun odd => absurd (settled odd) (by simp [ends, breaks])
      have odd : Literal.endsInEscape (seen ++ ['\\']) = true := by
        rw [Literal.endsInEscape_concat, even]
        rfl
      have open_ := Literal.stripClosing_unclosed quote c (seen ++ ['\\']) fun _ => odd
      have later : Literal.endsInEscape (seen ++ ['\\'] ++ [c]) = false := by
        rw [Literal.endsInEscape_concat, odd]
        rfl
      exact (ih _ _ _ passed open_ fun escape => absurd escape (by rw [later]; decide)).passed.passed
  | case7 cursor ends breaks closes escapes fails =>
      obtain ⟨c, more, _, moves, _⟩ := splits.nextChar (Bool.eq_false_iff.mpr ends)
      cases fails.symm.trans moves
  | case8 cursor ends breaks closes escapes next moves ih =>
      obtain ⟨c, more, rfl, found, passed⟩ := splits.nextChar (Bool.eq_false_iff.mpr ends)
      cases moves.symm.trans found
      have other : c ≠ quote := fun same =>
        closes ((splits.current_iff quote ascii).mpr (congrArg some same))
      have plain : c ≠ '\\' := fun same =>
        escapes ((splits.current_iff '\\' rfl).mpr (congrArg some same))
      have open_ := Literal.stripClosing_unclosed quote c seen fun same => absurd same other
      have later : Literal.endsInEscape (seen ++ [c]) = false := by
        rw [Literal.endsInEscape_concat, beq_false_of_ne plain, Bool.and_false]
      exact (ih _ _ _ passed open_ fun escape => absurd escape (by rw [later]; decide)).passed

theorem Ending.quote_iff (ending : Ending) (quote : Char) (body : Text)
    (strips : Literal.stripClosing quote body ++ ending.mark quote = body) :
    ending = .quote ↔ ∃ inner, body = inner ++ [quote] ∧ Literal.endsInEscape inner = false := by
  constructor
  · rintro rfl
    refine ⟨_, strips.symm, Bool.eq_false_iff.mpr fun odd => ?_⟩
    have open_ := Literal.stripClosing_unclosed quote quote (Literal.stripClosing quote body)
      fun _ => odd
    have same : Literal.stripClosing quote body ++ [quote] = body := strips
    rw [same] at open_
    rw [open_] at same
    simp at same
  · rintro ⟨inner, rfl, even⟩
    rw [Literal.stripClosing_closed quote inner even] at strips
    cases ending with
    | quote => rfl
    | line => simp [mark] at strips
    | text => simp [mark] at strips

theorem ending_scanned (quote : Char) (ascii : isAscii quote = true) (cursor : Cursor)
    (before more : Text) (splits : cursor.Splits before (quote :: more)) :
    ∃ ending stop, ending? quote.toUInt8 cursor.advance = some (ending, stop) ∧
      literal? quote.toUInt8 cursor.advance = some stop ∧
      stop.Splits (before ++ [quote] ++ (Lexeme.literal quote false more).1)
        (Lexeme.literal quote false more).2 ∧
      (ending ≠ .quote → (stop.atEnd || stop.atLineEnd) = true) ∧
      Literal.stripClosing quote (Lexeme.literal quote false more).1 ++ ending.mark quote =
        (Lexeme.literal quote false more).1 := by
  have inside := splits.advance ascii
  obtain ⟨stop, scanned, rests⟩ := literal_splits quote ascii cursor.advance _ more inside
  obtain ⟨ending, same, word, rest, found, reached, stops, strips⟩ :=
    ending_strips quote ascii cursor.advance _ more [] inside rfl fun escape => by cases escape
  have projected := ending_literal quote.toUInt8 cursor.advance
  rw [found, scanned] at projected
  obtain rfl : same = stop := Option.some.inj projected
  obtain rfl : word = (Lexeme.literal quote false more).1 :=
    List.append_cancel_left (reached.unique rests).1
  exact ⟨ending, same, found, scanned, rests, stops, strips⟩

end InPlace

namespace Lexed

variable (serial : Nat) (name content : Text)

theorem literal_starts (token : Token) (member : token ∈ (ofText serial name content).tokens)
    (string : token.kind = .string) :
    ∃ quote body, Grammar.Quote quote ∧ token.text = quote :: body := by
  obtain ⟨quote, more, _, read⟩ := Token.place_starts _ [] _ token member
  have munches := Grammar.first_munches quote more
  rw [read, string] at munches
  have quotes : Grammar.Quote quote := by
    cases munches with
    | string _ quoted => exact quoted.starts
  refine ⟨quote, (Lexeme.literal quote false more).1, quotes, ?_⟩
  exact congrArg Lexeme.text (read.symm.trans (Grammar.first_quote quote more quotes))

theorem literal_scanned (token : Token) (quote : Char) (body : Text)
    (member : token ∈ (ofText serial name content).tokens) (quotes : Grammar.Quote quote)
    (text : token.text = quote :: body) :
    ∃ before more, (Cursor.mk (ofText serial name content).source.normalized token.span.start).Splits
        before (quote :: more) ∧
      token.span.stop = Text.byteLength (before ++ [quote] ++ body) ∧
      (Lexeme.literal quote false more).1 = body := by
  obtain ⟨c, more, starts, scanned⟩ := Token.place_starts _ [] _ token member
  obtain ⟨before, after, whole, span⟩ := Token.place_cuts (ofText serial name content).source [] _
    (Lexeme.scan_append _).symm token member
  have start : token.span.start = before.byteLength := congrArg Span.start span
  have remaining : token.text ++ after = c :: more := by
    have dropped := Text.dropBytes_append before (token.text ++ after)
    rw [← whole, ← start] at dropped
    exact Option.some.inj (dropped.symm.trans starts)
  obtain ⟨rfl, _⟩ : quote = c ∧ body ++ after = more := by
    rw [text] at remaining
    exact List.cons.inj remaining
  refine ⟨before, more, ⟨?_, start⟩, ?_, ?_⟩
  · rw [whole, remaining]
  · rw [span, text]
    simp
  · rw [Grammar.first_quote quote more quotes, text] at scanned
    exact (List.cons.inj (congrArg Lexeme.text scanned)).2

theorem literal_closed_as_stripped (serial : Nat) (name content : Text) (token : Token)
    (member : token ∈ (ofText serial name content).tokens) (string : token.kind = .string) :
    let cursor : Cursor := ⟨(ofText serial name content).source.normalized, token.span.start⟩
    ∃ quote ending stop, CharClass.isQuote quote = true ∧
      cursor.current? = some quote.toUInt8 ∧
      InPlace.lexeme? quote.toUInt8 cursor = some (.string, stop) ∧
      InPlace.ending? quote.toUInt8 cursor.advance = some (ending, stop) ∧
      stop.position = token.span.stop ∧
      (ending ≠ .quote → (stop.atEnd || stop.atLineEnd) = true) ∧
      (token.text = quote :: (Literal.stripQuotes token.text ++ [quote]) ↔ ending = .quote) ∧
      (token.text = quote :: Literal.stripQuotes token.text ↔ ending ≠ .quote) := by
  intro cursor
  obtain ⟨c, body, quotes, text⟩ := literal_starts serial name content token member string
  have quote := (Grammar.isQuote_iff c).mpr quotes
  have ascii := Utf8.narrow_quote c quote
  obtain ⟨before, more, splits, end_, own⟩ :=
    literal_scanned serial name content token c body member quotes text
  obtain ⟨ending, stop, found, scanned, reached, stops, strips⟩ :=
    InPlace.ending_scanned c ascii cursor before more splits
  rw [own] at reached strips
  have stripped : Literal.stripQuotes token.text = Literal.stripClosing c body := by
    rw [text, Literal.stripQuotes, if_pos quote]
  have closing : token.text = c :: (Literal.stripQuotes token.text ++ ending.mark c) := by
    rw [stripped, strips, text]
  refine ⟨c, ending, stop, quote, (splits.current_iff c ascii).mpr rfl, ?_, found,
    reached.position.trans end_.symm, stops, ending.closed_iff c closing,
    ending.open_iff c closing⟩
  rw [InPlace.lexeme?, Utf8.asChar_ascii c ascii, if_pos quote, scanned]
  rfl

-- A literal with an escaped quote and an escaped backslash before its own quote, and one whose line
-- ends after a quote that is escaped.
theorem literal_closed_as_stripped_sample :
    let lexed := ofText 0 "a.c".toList "'\\'\\\\' \"é\\\"\nx".toList
    let cursor (position : Nat) : Cursor := ⟨lexed.source.normalized, position⟩
    (∃ token ∈ lexed.tokens, token.text = "'\\'\\\\'".toList ∧
      Literal.stripQuotes token.text = "\\'\\\\".toList ∧
      ∃ quote stop, InPlace.ending? quote (cursor 0).advance = some (.quote, stop)) ∧
    ∃ token ∈ lexed.tokens, token.text = "\"é\\\"".toList ∧
      Literal.stripQuotes token.text = "é\\\"".toList ∧
      ∃ quote ending stop, ending ≠ .quote ∧
        InPlace.ending? quote (cursor 7).advance = some (ending, stop) := by
  intro lexed cursor
  have closed : ∃ token ∈ lexed.tokens, token.kind = .string ∧ token.span.start = 0 ∧
      token.text = "'\\'\\\\'".toList ∧ Literal.stripQuotes token.text = "\\'\\\\".toList := by
    decide +kernel
  have unclosed : ∃ token ∈ lexed.tokens, token.kind = .string ∧ token.span.start = 7 ∧
      token.text = "\"é\\\"".toList ∧ Literal.stripQuotes token.text = "é\\\"".toList := by
    decide +kernel
  obtain ⟨first, firstMember, firstKind, firstStart, firstText, firstInner⟩ := closed
  obtain ⟨second, secondMember, secondKind, secondStart, secondText, secondInner⟩ := unclosed
  obtain ⟨quote, ending, stop, _, _, _, found, _, _, _, bare⟩ :=
    literal_closed_as_stripped 0 _ _ first firstMember firstKind
  obtain ⟨other, left, rest, _, _, _, broken, _, _, marked, _⟩ :=
    literal_closed_as_stripped 0 _ _ second secondMember secondKind
  rw [firstInner, firstText] at bare
  rw [secondInner, secondText] at marked
  rw [firstStart] at found
  rw [secondStart] at broken
  have quoted : ending = .quote := by
    by_contra differs
    cases congrArg List.length (bare.mpr differs)
  have runsOn : left ≠ .quote := by
    intro same
    cases congrArg List.length (marked.mpr same)
  exact ⟨⟨first, firstMember, firstText, firstInner, _, stop, quoted ▸ found⟩,
    ⟨second, secondMember, secondText, secondInner, _, left, rest, runsOn, broken⟩⟩

end Lexed

end CPreprocessor
