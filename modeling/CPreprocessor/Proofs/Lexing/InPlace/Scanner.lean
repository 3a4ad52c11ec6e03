import CPreprocessor.Lexing.Token
import CPreprocessor.Proofs.Text.Cursor

/-!
Scanning in place. A normalized text need not be taken apart to be scanned: a cursor can go over its
bytes and look at one at a time, and only the text of a token is cut out. Nothing is ever cut inside
a character, and the tokens are those of the lexical grammar.
-/

set_option autoImplicit false

namespace CPreprocessor.InPlace

open Utf8 (asChar isAscii)

theorem advance_le (cursor : Cursor) : cursor.advance.ahead.length ≤ cursor.ahead.length := by
  rw [Cursor.advance]
  split
  · exact Nat.le_refl _
  · exact cursor.moved_le 1

theorem advance_lt (cursor : Cursor) (more : cursor.atEnd = false) :
    cursor.advance.ahead.length < cursor.ahead.length := by
  rw [Cursor.advance, if_neg (by rw [more]; decide)]
  exact cursor.moved_lt 1 more Nat.one_pos

def literal? (quote : UInt8) (cursor : Cursor) : Option Cursor :=
  if _stops : (cursor.atEnd || cursor.atLineEnd) = true then some cursor
  else if cursor.current? = some quote then some cursor.advance
  else if cursor.current? = some '\\'.toUInt8 then
    if _short : (cursor.advance.atEnd || cursor.advance.atLineEnd) = true then
      literal? quote cursor.advance
    else
      match _moves : cursor.advance.advanceChar? with
      | none => none
      | some next => literal? quote next
  else
    match _moves : cursor.advanceChar? with
    | none => none
    | some next => literal? quote next
termination_by cursor.ahead.length
decreasing_by
  · exact advance_lt cursor (cursor.not_atEnd _stops)
  · exact Nat.lt_of_lt_of_le
      (cursor.advance.advanceChar_lt next (cursor.advance.not_atEnd _short) _moves) (advance_le cursor)
  · exact cursor.advanceChar_lt next (cursor.not_atEnd _stops) _moves

theorem literal_le (quote : UInt8) (cursor stop : Cursor) (found : literal? quote cursor = some stop) :
    stop.ahead.length ≤ cursor.ahead.length := by
  fun_induction literal? quote cursor with
  | case1 cursor stops =>
      cases found
      exact Nat.le_refl _
  | case2 cursor stops closes =>
      cases found
      exact advance_le cursor
  | case3 cursor stops closes escapes short ih => exact Nat.le_trans (ih found) (advance_le cursor)
  | case4 cursor stops closes escapes short fails => cases found
  | case5 cursor stops closes escapes short next moves ih =>
      have less := cursor.advance.advanceChar_lt next (cursor.advance.not_atEnd short) moves
      exact Nat.le_trans (ih found) (Nat.le_trans (Nat.le_of_lt less) (advance_le cursor))
  | case6 cursor stops closes escapes fails => cases found
  | case7 cursor stops closes escapes next moves ih =>
      have less := cursor.advanceChar_lt next (cursor.not_atEnd stops) moves
      exact Nat.le_trans (ih found) (Nat.le_of_lt less)

def digits (cursor : Cursor) : Cursor := (cursor.eatWhile (Char.isDigit ∘ asChar)).2

def nameParts (cursor : Cursor) : Cursor := (cursor.eatWhile (CharClass.isNameContinue ∘ asChar)).2

def fraction (cursor : Cursor) : Cursor :=
  let point := cursor.eat '.'.toUInt8
  if point.1 then digits point.2 else point.2

def sign (cursor : Cursor) : Cursor :=
  let plus := cursor.eat '+'.toUInt8
  if plus.1 then plus.2 else (plus.2.eat '-'.toUInt8).2

def exponent (cursor : Cursor) : Cursor :=
  if cursor.lookingAt (CharClass.isExponentMarker ∘ asChar) then digits (sign cursor.advance)
  else cursor

def number (cursor : Cursor) : Cursor := nameParts (exponent (fraction (digits cursor)))

def lexeme? (byte : UInt8) (cursor : Cursor) : Option (Kind × Cursor) :=
  if CharClass.isQuote (asChar byte) then (literal? byte cursor.advance).map (.string, ·)
  else if CharClass.isNameStart (asChar byte) then some (.name, nameParts cursor.advance)
  else if (asChar byte).isDigit then some (.number, number cursor)
  else if CharClass.isSpaceTab (asChar byte) then
    some (.spaceTab, (cursor.eatWhile (CharClass.isSpaceTab ∘ asChar)).2)
  else if cursor.atLineEnd then some (.newline, (cursor.eat '\r'.toUInt8).2.advance)
  else cursor.advanceChar?.map (.other, ·)

section Progress

theorem eatWhile_le (cursor : Cursor) (holds : UInt8 → Bool) :
    (cursor.eatWhile holds).2.ahead.length ≤ cursor.ahead.length := cursor.moved_le _

theorem eat_le (cursor : Cursor) (expected : UInt8) :
    (cursor.eat expected).2.ahead.length ≤ cursor.ahead.length := by
  rw [Cursor.eat]
  split
  · exact cursor.moved_le 1
  · exact Nat.le_refl _

theorem fraction_le (cursor : Cursor) : (fraction cursor).ahead.length ≤ cursor.ahead.length := by
  have eaten := eat_le cursor '.'.toUInt8
  dsimp only [fraction]
  split
  · exact Nat.le_trans (eatWhile_le _ _) eaten
  · exact eaten

theorem sign_le (cursor : Cursor) : (sign cursor).ahead.length ≤ cursor.ahead.length := by
  have eaten := eat_le cursor '+'.toUInt8
  dsimp only [sign]
  split
  · exact eaten
  · exact Nat.le_trans (eat_le _ _) eaten

theorem exponent_le (cursor : Cursor) : (exponent cursor).ahead.length ≤ cursor.ahead.length := by
  rw [exponent]
  split
  · exact Nat.le_trans (eatWhile_le _ _) (Nat.le_trans (sign_le _) (advance_le cursor))
  · exact Nat.le_refl _

variable (byte : UInt8) (cursor : Cursor) (here : cursor.current? = some byte)
include here

theorem eatWhile_lt (holds : UInt8 → Bool) (is : holds byte = true) :
    (cursor.eatWhile holds).2.ahead.length < cursor.ahead.length := by
  refine cursor.moved_lt _ (cursor.current_more byte here) ?_
  rw [Cursor.current?, Cursor.peek?] at here
  cases same : cursor.ahead with
  | nil =>
      rw [same] at here
      cases here
  | cons first more =>
      rw [same] at here
      cases here
      rw [List.takeWhile_cons_of_pos is]
      exact Nat.succ_pos _

theorem lexeme_lt (kind : Kind) (next : Cursor) (found : lexeme? byte cursor = some (kind, next)) :
    next.ahead.length < cursor.ahead.length := by
  have more := cursor.current_more byte here
  rw [lexeme?] at found
  by_cases quote : CharClass.isQuote (asChar byte) = true
  · rw [if_pos quote] at found
    obtain ⟨stop, closed, same⟩ := Option.map_eq_some_iff.mp found
    cases same
    exact Nat.lt_of_le_of_lt (literal_le byte cursor.advance next closed) (advance_lt cursor more)
  rw [if_neg quote] at found
  by_cases name : CharClass.isNameStart (asChar byte) = true
  · rw [if_pos name] at found
    cases found
    exact Nat.lt_of_le_of_lt (eatWhile_le _ _) (advance_lt cursor more)
  rw [if_neg name] at found
  by_cases digit : (asChar byte).isDigit = true
  · rw [if_pos digit] at found
    cases found
    calc (number cursor).ahead.length
      _ ≤ (exponent (fraction (digits cursor))).ahead.length := eatWhile_le _ _
      _ ≤ (fraction (digits cursor)).ahead.length := exponent_le _
      _ ≤ (digits cursor).ahead.length := fraction_le _
      _ < cursor.ahead.length := eatWhile_lt byte cursor here _ digit
  rw [if_neg digit] at found
  by_cases blank : CharClass.isSpaceTab (asChar byte) = true
  · rw [if_pos blank] at found
    cases found
    exact eatWhile_lt byte cursor here _ blank
  rw [if_neg blank] at found
  by_cases ends : cursor.atLineEnd = true
  · rw [if_pos ends] at found
    cases found
    rw [Cursor.eat]
    split
    · exact Nat.lt_of_le_of_lt (advance_le _) (cursor.moved_lt 1 more Nat.one_pos)
    · exact advance_lt cursor more
  · rw [if_neg ends] at found
    obtain ⟨moved, advanced, same⟩ := Option.map_eq_some_iff.mp found
    cases same
    exact cursor.advanceChar_lt next more advanced

end Progress

def tokens? (source : Source) (cursor : Cursor) : Option (List Token) :=
  match _here : cursor.current? with
  | none => some []
  | some byte =>
      match _found : lexeme? byte cursor with
      | none => none
      | some (kind, next) =>
          match next.sliceFrom? cursor.position with
          | none => none
          | some text =>
              let span : Span := ⟨cursor.position, next.position⟩
              (tokens? source next).map
                (⟨source, kind, text, span, source.offsets.origin span⟩ :: ·)
termination_by cursor.ahead.length
decreasing_by exact lexeme_lt byte cursor _here kind next _found

section Agreement

variable {cursor : Cursor} {before after : Text}

theorem digits_splits (splits : cursor.Splits before after) :
    (digits cursor).Splits (before ++ after.takeWhile Char.isDigit) (after.dropWhile Char.isDigit) :=
  splits.eatWhile Char.isDigit Utf8.narrow_digit

theorem nameParts_splits (splits : cursor.Splits before after) :
    (nameParts cursor).Splits (before ++ after.takeWhile CharClass.isNameContinue)
      (after.dropWhile CharClass.isNameContinue) :=
  splits.eatWhile CharClass.isNameContinue Utf8.narrow_nameContinue

theorem fraction_splits (splits : cursor.Splits before after) :
    (fraction cursor).Splits (before ++ (Lexeme.fraction after).1) (Lexeme.fraction after).2 := by
  rw [Lexeme.fraction.eq_def]
  split
  · rw [fraction, splits.eat_pos rfl]
    exact (digits_splits (splits.movedOne rfl)).joined
  · rename_i other
    have none : after.head? ≠ some '.' := fun found => by
      obtain ⟨rest, same⟩ := List.head?_eq_some_iff.mp found
      exact other rest same
    rw [fraction, splits.eat_neg '.' rfl none, List.append_nil]
    exact splits

theorem sign_splits (splits : cursor.Splits before after) :
    (sign cursor).Splits (before ++ (Lexeme.sign after).1) (Lexeme.sign after).2 := by
  rw [Lexeme.sign.eq_def]
  split
  · rw [sign, splits.eat_pos rfl]
    exact splits.movedOne rfl
  · rw [sign, splits.eat_neg '+' rfl (by simp)]
    dsimp only
    rw [if_neg Bool.false_ne_true, splits.eat_pos rfl]
    exact splits.movedOne rfl
  · rename_i plus minus
    have neither : ∀ c, after.head? = some c → c ≠ '+' ∧ c ≠ '-' := by
      intro c found
      obtain ⟨rest, rfl⟩ := List.head?_eq_some_iff.mp found
      exact ⟨fun same => plus rest (by rw [same]), fun same => minus rest (by rw [same])⟩
    rw [sign, splits.eat_neg '+' rfl fun found => (neither _ found).1 rfl]
    dsimp only
    rw [if_neg Bool.false_ne_true, splits.eat_neg '-' rfl fun found => (neither _ found).2 rfl,
      List.append_nil]
    exact splits

theorem exponent_splits (splits : cursor.Splits before after) :
    (exponent cursor).Splits (before ++ (Lexeme.exponent after).1) (Lexeme.exponent after).2 := by
  rw [exponent, splits.lookingAt _ Utf8.narrow_exponentMarker]
  cases after with
  | nil =>
      rw [Lexeme.exponent, List.append_nil]
      exact splits
  | cons c rest =>
      rw [Lexeme.exponent]
      by_cases marker : CharClass.isExponentMarker c = true
      · have marked := splits.advance (Utf8.narrow_exponentMarker c marker)
        have scaled := digits_splits (sign_splits marked)
        rw [if_pos marker, List.head?_cons, Option.any_some, if_pos marker]
        simpa [Lexeme.run] using scaled
      · rw [if_neg marker, List.head?_cons, Option.any_some, if_neg marker, List.append_nil]
        exact splits

theorem number_splits (splits : cursor.Splits before after) :
    (number cursor).Splits (before ++ (Lexeme.number after).1) (Lexeme.number after).2 := by
  have suffixed := nameParts_splits (exponent_splits (fraction_splits (digits_splits splits)))
  simpa [number, Lexeme.number, Lexeme.run] using suffixed

theorem literal_stops (quote : UInt8) (splits : cursor.Splits before after)
    (stops : (after.isEmpty || after.atLineEnd) = true) : literal? quote cursor = some cursor := by
  rw [literal?, splits.atEnd, splits.atLineEnd, dif_pos stops]

section Literal

variable {c : Char} {rest : Text} (quote : Char) (ascii : isAscii quote = true)
  (splits : cursor.Splits before (c :: rest)) (inside : Text.atLineEnd (c :: rest) = false)
include ascii splits inside

theorem literal_closes (closes : c = quote) :
    literal? quote.toUInt8 cursor = some cursor.advance := by
  rw [literal?, splits.atEnd, splits.atLineEnd, inside, dif_neg (by simp),
    if_pos ((splits.current_iff quote ascii).mpr (congrArg some closes))]

theorem literal_plain (goesOn : c ≠ quote) (plain : c ≠ '\\') :
    literal? quote.toUInt8 cursor = literal? quote.toUInt8 (cursor.moved c.utf8Size) := by
  rw [literal?, splits.atEnd, splits.atLineEnd, inside, dif_neg (by simp),
    if_neg (mt (splits.current_iff quote ascii).mp (by simpa using goesOn)),
    if_neg (mt (splits.current_iff '\\' rfl).mp (by simpa using plain))]
  split
  · rename_i lost
    rw [splits.advanceChar] at lost
    cases lost
  · rename_i next moves
    rw [splits.advanceChar] at moves
    cases moves
    rfl

theorem literal_escapes (goesOn : c ≠ quote) (escape : c = '\\') :
    literal? quote.toUInt8 cursor =
      match rest with
      | [] => literal? quote.toUInt8 cursor.advance
      | d :: more =>
          if Text.atLineEnd (d :: more) then literal? quote.toUInt8 cursor.advance
          else literal? quote.toUInt8 (cursor.advance.moved d.utf8Size) := by
  subst escape
  have escaped := splits.advance rfl
  rw [literal?, splits.atEnd, splits.atLineEnd, inside, dif_neg (by simp),
    if_neg (mt (splits.current_iff quote ascii).mp (by simpa using goesOn)),
    if_pos ((splits.current_iff '\\' rfl).mpr rfl)]
  simp only [escaped.atEnd, escaped.atLineEnd]
  cases rest with
  | nil => rfl
  | cons d more =>
      dsimp only
      by_cases ends : Text.atLineEnd (d :: more) = true
      · rw [dif_pos (by rw [ends, Bool.or_true]), if_pos ends]
      · rw [dif_neg (by simpa using ends), if_neg ends]
        split
        · rename_i lost
          rw [escaped.advanceChar] at lost
          cases lost
        · rename_i next moves
          rw [escaped.advanceChar] at moves
          cases moves
          rfl

end Literal

theorem literal_splits (quote : Char) (ascii : isAscii quote = true) (cursor : Cursor)
    (before after : Text) (splits : cursor.Splits before after) :
    ∃ stop, literal? quote.toUInt8 cursor = some stop ∧
      stop.Splits (before ++ (Lexeme.literal quote false after).1)
        (Lexeme.literal quote false after).2 := by
  induction measured : after.length using Nat.strongRecOn generalizing cursor before after with
  | ind size ih =>
      cases after with
      | nil =>
          refine ⟨cursor, literal_stops _ splits rfl, ?_⟩
          rw [Lexeme.literal, List.append_nil]
          exact splits
      | cons c rest =>
          have shorter : rest.length < size := measured ▸ Nat.lt_succ_self _
          rw [Lexeme.literal]
          cases inside : Text.atLineEnd (c :: rest) with
          | true =>
              refine ⟨cursor, literal_stops _ splits (by rw [inside, Bool.or_true]), ?_⟩
              rw [if_pos rfl, List.append_nil]
              exact splits
          | false =>
              rw [if_neg Bool.false_ne_true]
              by_cases closes : c = quote
              · rw [literal_closes quote ascii splits inside closes, if_pos (by simpa using closes)]
                exact ⟨_, rfl, splits.advance (closes ▸ ascii)⟩
              rw [if_neg (by simpa using closes)]
              by_cases escape : c = '\\'
              · have escaped := splits.advance (escape ▸ rfl)
                rw [literal_escapes quote ascii splits inside closes escape,
                  show (!false && c == '\\') = true by simpa using escape]
                cases rest with
                | nil => exact ⟨_, literal_stops _ escaped rfl, escaped⟩
                | cons d more =>
                    rw [Lexeme.literal]
                    dsimp only
                    by_cases ends : Text.atLineEnd (d :: more) = true
                    · rw [if_pos ends, if_pos ends]
                      exact ⟨_, literal_stops _ escaped (by rw [ends, Bool.or_true]), escaped⟩
                    · obtain ⟨stop, found, rests⟩ := ih _
                        (Nat.lt_trans (Nat.lt_succ_self _) shorter) _ _ more escaped.movedChar rfl
                      rw [if_neg ends, if_neg ends, Bool.not_true, Bool.false_and, Bool.false_and,
                        if_neg Bool.false_ne_true]
                      exact ⟨stop, found, rests.joined.joined⟩
              · obtain ⟨stop, found, rests⟩ := ih _ shorter _ _ rest splits.movedChar rfl
                rw [literal_plain quote ascii splits inside closes escape,
                  show (!false && c == '\\') = false by simpa using escape]
                exact ⟨stop, found, rests.joined⟩

theorem lexeme_splits (c : Char) (rest : Text) (splits : cursor.Splits before (c :: rest)) :
    ∃ byte next, cursor.current? = some byte ∧
      lexeme? byte cursor = some ((Lexeme.first c rest).1.kind, next) ∧
      next.Splits (before ++ (Lexeme.first c rest).1.text) (Lexeme.first c rest).2 := by
  obtain ⟨byte, here, own, class_⟩ := splits.current_class
  refine ⟨byte, ?_⟩
  rw [lexeme?, Lexeme.first.eq_def, class_ _ Utf8.narrow_quote, class_ _ Utf8.narrow_nameStart,
    class_ _ Utf8.narrow_digit, class_ _ Utf8.narrow_spaceTab, splits.atLineEnd]
  by_cases quote : CharClass.isQuote c = true
  · have ascii := Utf8.narrow_quote c quote
    obtain ⟨stop, closed, rests⟩ := literal_splits c ascii _ _ rest (splits.advance ascii)
    rw [if_pos quote, if_pos quote, own ascii, closed]
    exact ⟨stop, own ascii ▸ here, rfl, rests.joined⟩
  rw [if_neg quote, if_neg quote]
  by_cases name : CharClass.isNameStart c = true
  · rw [if_pos name, if_pos name]
    exact ⟨_, here, rfl,
      (nameParts_splits (splits.advance (Utf8.narrow_nameStart c name))).joined⟩
  rw [if_neg name, if_neg name]
  by_cases digit : c.isDigit = true
  · rw [if_pos digit, if_pos digit]
    exact ⟨_, here, rfl, number_splits splits⟩
  rw [if_neg digit, if_neg digit]
  by_cases blank : CharClass.isSpaceTab c = true
  · have eaten := splits.eatWhile _ Utf8.narrow_spaceTab
    rw [List.takeWhile_cons_of_pos blank, List.dropWhile_cons_of_pos blank] at eaten
    rw [if_pos blank, if_pos blank]
    exact ⟨_, here, rfl, eaten⟩
  rw [if_neg blank, if_neg blank]
  split
  · rename_i ends
    rw [Text.atLineEnd.eq_def] at ends
    split at ends
    · rename_i same
      cases same
      rw [splits.eat_neg '\r' rfl (by simp)]
      exact ⟨_, here, rfl, splits.advance rfl⟩
    · rename_i same
      cases same
      rw [splits.eat_pos rfl]
      exact ⟨_, here, rfl, ((splits.movedOne rfl).advance rfl).joined⟩
    · cases ends
  · rename_i inside
    rw [splits.advanceChar]
    split
    · exact absurd rfl inside
    · exact absurd rfl inside
    · exact ⟨_, here, rfl, splits.movedChar⟩

theorem tokens_splits (source : Source) (cursor : Cursor) (before after : Text)
    (splits : cursor.Splits before after) :
    tokens? source cursor = some (Token.place source before.byteLength (Lexeme.scan after)) := by
  induction measured : after.length using Nat.strongRecOn generalizing cursor before after with
  | ind size ih =>
      cases after with
      | nil =>
          rw [tokens?, Lexeme.scan]
          split
          · rfl
          · rename_i byte here
            rw [splits.current] at here
            cases here
      | cons c rest =>
          obtain ⟨byte, next, here, found, rests⟩ := lexeme_splits c rest splits
          have shorter : (Lexeme.first c rest).2.length < size := measured ▸ Lexeme.first_rest_lt c rest
          have later := ih _ shorter next _ _ rests rfl
          have text : next.sliceFrom? cursor.position = some (Lexeme.first c rest).1.text := by
            rw [splits.position]
            exact rests.slice
          rw [tokens?, Lexeme.scan, Token.place]
          split
          · rename_i none
            rw [here] at none
            cases none
          · rename_i first same
            rw [here] at same
            cases same
            split
            · rename_i lost
              rw [found] at lost
              cases lost
            · rename_i kind stop same
              rw [found] at same
              cases same
              rw [text, later, splits.position, rests.position, Text.byteLength_append]
              rfl

end Agreement

theorem tokens_start (source : Source) (text : Text) :
    tokens? source (.start text) = some (Token.place source 0 (Lexeme.scan text)) :=
  tokens_splits source _ [] text (Cursor.splits_start text)

end CPreprocessor.InPlace
