import Mathlib.Data.List.Induction
import CPreprocessor.Proofs.Literal.Elements
import CPreprocessor.Proofs.Text.Cursor

/-!
Decoding in place. A cursor copies the bytes of plain text one at a time, without regard to
characters, and cuts a character out only after a backslash. This cut is never inside a character,
and a number that is kept in a machine word, cut short after every digit or not, ends in the low
byte of its value. So a literal is decoded as the escape grammar says.
-/

set_option autoImplicit false

namespace CPreprocessor

namespace InPlace

open Utf8 (asChar isAscii)

def endsInEscape (text : Text) : Bool :=
  ((Utf8.encode text).reverse.takeWhile (· == '\\'.toUInt8)).length % 2 == 1

def stripQuotes? (raw : Text) : Option Text :=
  match raw.head?.filter CharClass.isQuote with
  | none => some raw
  | some quote =>
      (raw.dropBytes? 1).map fun body =>
        if body.getLast? = some quote ∧ !endsInEscape body.dropLast then body.dropLast else body

def digitRun (value? : Char → Option Nat) (cursor : Cursor) : List UInt8 :=
  cursor.ahead.takeWhile fun byte => (value? (asChar byte)).isSome

def digitWord (value? : Char → Option Nat) (byte : UInt8) : UInt32 :=
  UInt32.ofNat ((value? (asChar byte)).getD 0)

def octalByte (digits : List UInt8) : UInt8 :=
  (digits.foldl (fun (word : UInt32) digit =>
    word * 8 + digitWord CharClass.octalValue? digit) 0).toUInt8

def hexByte (digits : List UInt8) : UInt8 :=
  (digits.foldl (fun (word : UInt32) digit =>
    (word <<< 4 ||| digitWord CharClass.hexValue? digit) &&& 0xFF) 0).toUInt8

def escape? (cursor : Cursor) : Option (List UInt8 × Nat) :=
  cursor.remaining?.map fun rest =>
    match rest with
    | [] => (['\\'.toUInt8], 0)
    | c :: _ =>
        match Literal.controlByte? c with
        | some byte => ([byte], c.utf8Size)
        | none =>
            if '0' ≤ c ∧ c ≤ '7' then
              let digits := (digitRun CharClass.octalValue? cursor).take 3
              ([octalByte digits], digits.length)
            else if c = 'x' then
              let digits := digitRun CharClass.hexValue? (cursor.moved 1)
              (if digits.isEmpty then ['x'.toUInt8] else [hexByte digits], 1 + digits.length)
            else (String.utf8EncodeChar c, c.utf8Size)

def decodeBody? (cursor : Cursor) : Option (List UInt8) :=
  match _here : cursor.current? with
  | none => some []
  | some byte =>
      if byte = '\\'.toUInt8 then
        match escape? (cursor.moved 1) with
        | none => none
        | some (bytes, length) => (decodeBody? ((cursor.moved 1).moved length)).map (bytes ++ ·)
      else (decodeBody? (cursor.moved 1)).map (byte :: ·)
termination_by cursor.ahead.length
decreasing_by
  · exact Nat.lt_of_le_of_lt ((cursor.moved 1).moved_le length)
      (cursor.moved_lt 1 (cursor.current_more byte _here) Nat.one_pos)
  · exact cursor.moved_lt 1 (cursor.current_more byte _here) Nat.one_pos

def literalBytes? (raw : Text) : Option (List UInt8) :=
  match stripQuotes? raw with
  | none => none
  | some body => decodeBody? (.start body)

section Quotes

theorem endsInEscape_eq (text : Text) : endsInEscape text = Literal.endsInEscape text := by
  rw [endsInEscape, Literal.endsInEscape]
  congr 2
  induction text using List.reverseRecOn with
  | nil => rfl
  | append_singleton text c ih =>
      rw [Utf8.encode_append, List.reverse_append, List.reverse_append, List.reverse_singleton,
        List.singleton_append, show Utf8.encode [c] = String.utf8EncodeChar c from List.append_nil _]
      by_cases escape : c = '\\'
      · subst escape
        rw [Utf8.encodeChar_ascii '\\' rfl, List.reverse_singleton, List.singleton_append,
          List.takeWhile_cons_of_pos (by rfl), List.takeWhile_cons_of_pos (by rfl),
          List.length_cons, List.length_cons, ih]
      · have none : '\\'.toUInt8 ∉ String.utf8EncodeChar c := fun member =>
          escape ((Utf8.mem_encodeChar c '\\' rfl).mp member).symm
        rw [List.takeWhile_cons_of_neg (by simpa using escape)]
        cases bytes : (String.utf8EncodeChar c).reverse with
        | nil =>
            have length := String.length_utf8EncodeChar c
            rw [List.reverse_eq_nil_iff.mp bytes] at length
            exact absurd length.symm (Nat.ne_of_gt c.utf8Size_pos)
        | cons byte more =>
            have other : byte ≠ '\\'.toUInt8 := fun same =>
              none (List.mem_reverse.mp (by rw [bytes, same]; exact List.mem_cons_self))
            rw [List.cons_append, List.takeWhile_cons_of_neg (by simpa using other)]
            rfl

theorem stripQuotes_eq (raw : Text) : stripQuotes? raw = some (Literal.stripQuotes raw) := by
  rw [stripQuotes?.eq_def, Literal.stripQuotes.eq_def]
  cases raw with
  | nil => rfl
  | cons c body =>
      rw [List.head?_cons, Option.filter_some]
      by_cases quote : CharClass.isQuote c = true
      · have dropped := Text.dropBytes_append [c] body
        rw [Text.byteLength_cons, Text.byteLength_nil,
          Utf8.utf8Size_ascii c (Utf8.narrow_quote c quote)] at dropped
        rw [if_pos quote]
        dsimp only
        rw [if_pos quote, show Text.dropBytes? 1 (c :: body) = some body from dropped,
          Option.map_some, endsInEscape_eq]
        rfl
      · rw [if_neg quote]
        dsimp only
        rw [if_neg quote]

end Quotes

section Numbers

theorem word_low (base : Nat) (step : UInt32 → UInt8 → UInt32) (digit : UInt8 → Nat)
    (steps : ∀ word byte, (step word byte).toNat % 256 = (word.toNat * base + digit byte) % 256)
    (bytes : List UInt8) (word : UInt32) (value : Nat) (same : word.toNat % 256 = value % 256) :
    (bytes.foldl step word).toNat % 256 =
      (bytes.map digit).foldl (fun value digit => value * base + digit) value % 256 := by
  induction bytes generalizing word value with
  | nil => exact same
  | cons byte bytes ih =>
      rw [List.foldl_cons, List.map_cons, List.foldl_cons]
      apply ih
      rw [steps, Nat.add_mod, Nat.mul_mod, same, ← Nat.mul_mod, ← Nat.add_mod]

theorem octalStep_low (word : UInt32) (byte : UInt8) :
    (word * 8 + digitWord CharClass.octalValue? byte).toNat % 256 =
      (word.toNat * 8 + (CharClass.octalValue? (asChar byte)).getD 0) % 256 := by
  rw [UInt32.toNat_add, UInt32.toNat_mul, digitWord, UInt32.toNat_ofNat']
  change ((word.toNat * 8) % 2 ^ 32 + _ % 2 ^ 32) % 2 ^ 32 % 256 = _
  omega

theorem hexValue_lt (c : Char) : (CharClass.hexValue? c).getD 0 < 16 := by
  rw [Literal.hexValue_eq]
  cases found : Literal.digitTable.lookup c with
  | none => decide
  | some digit =>
      have bounded : ∀ entry ∈ Literal.digitTable, entry.2 < 16 := by decide
      exact bounded (c, digit) (Literal.lookup_mem _ c digit found)

-- The mask keeps the low byte, which the next digit moves up by its four bits.
theorem hexStep_low (word : UInt32) (byte : UInt8) :
    ((word <<< 4 ||| digitWord CharClass.hexValue? byte) &&& 0xFF).toNat % 256 =
      (word.toNat * 16 + (CharClass.hexValue? (asChar byte)).getD 0) % 256 := by
  have small : (CharClass.hexValue? (asChar byte)).getD 0 < 2 ^ 4 := hexValue_lt (asChar byte)
  rw [UInt32.toNat_and, UInt32.toNat_or, UInt32.toNat_shiftLeft, digitWord, UInt32.toNat_ofNat']
  generalize (CharClass.hexValue? (asChar byte)).getD 0 = digit at small ⊢
  calc ((word.toNat <<< 4 % 2 ^ 32 ||| digit % 2 ^ 32) &&& (2 ^ 8 - 1)) % 2 ^ 8
    _ = (word.toNat <<< 4 % 2 ^ 32 ||| digit % 2 ^ 32) % 2 ^ 8 := by
        rw [Nat.and_two_pow_sub_one_eq_mod, Nat.mod_mod]
    _ = (word.toNat <<< 4 ||| digit) % 2 ^ 8 := by
        rw [← Nat.or_mod_two_pow, Nat.mod_mod_of_dvd _ (by decide)]
    _ = (word.toNat * 16 + digit) % 2 ^ 8 := by
        rw [← Nat.shiftLeft_add_eq_or_of_lt small, Nat.shiftLeft_eq]

theorem narrow_lookup {α : Type} (table : List (Char × α))
    (entries : ∀ entry ∈ table, isAscii entry.1 = true) :
    Utf8.Narrow fun c => (table.lookup c).isSome := by
  intro c is
  obtain ⟨value, found⟩ := Option.isSome_iff_exists.mp is
  exact entries (c, value) (Literal.lookup_mem table c value found)

theorem narrow_octal : Utf8.Narrow Literal.isOctal := narrow_lookup _ (by decide)

theorem narrow_hex : Utf8.Narrow Literal.isHex := narrow_lookup _ (by decide)

theorem encode_ascii (text : Text) (ascii : ∀ c ∈ text, isAscii c = true) :
    Utf8.encode text = text.map Char.toUInt8 := by
  induction text with
  | nil => rfl
  | cons c text ih =>
      obtain ⟨first, others⟩ := List.forall_mem_cons.mp ascii
      rw [Utf8.encode_cons, Utf8.encodeChar_ascii c first, ih others]
      rfl

theorem word_numeral (base : Nat) (value? : Char → Option Nat) (step : UInt32 → UInt8 → UInt32)
    (steps : ∀ word byte, (step word byte).toNat % 256 =
      (word.toNat * base + (value? (asChar byte)).getD 0) % 256)
    (digits : Text) (ascii : ∀ c ∈ digits, isAscii c = true)
    (read : ∀ c ∈ digits, value? c = some (Literal.digitValue c)) :
    ((Utf8.encode digits).foldl step 0).toUInt8 = Literal.lowByte (Literal.numeral base digits) := by
  have values : (Utf8.encode digits).map (fun byte => (value? (asChar byte)).getD 0) =
      digits.map Literal.digitValue := by
    rw [encode_ascii digits ascii, List.map_map]
    apply List.map_congr_left
    intro c member
    rw [Function.comp_apply, Utf8.asChar_ascii c (ascii c member), read c member]
    rfl
  have low := word_low base step _ steps (Utf8.encode digits) 0 0 rfl
  rw [← Literal.numberByte_eq]
  apply UInt8.toNat_inj.mp
  rw [UInt32.toNat_toUInt8, Literal.numberByte, UInt8.toNat_ofNat', ← values]
  exact low

end Numbers

section Escapes

variable {cursor : Cursor} {before after rest : Text}

theorem digitRun_splits (value? : Char → Option Nat) (holds : Char → Bool)
    (same : ∀ c, (value? c).isSome = holds c) (narrow : Utf8.Narrow holds)
    (splits : cursor.Splits before after) :
    digitRun value? cursor = Utf8.encode (after.takeWhile holds) := by
  rw [← Utf8.takeWhile_encode holds narrow, digitRun, splits.ahead]
  congr 1
  funext byte
  exact same (asChar byte)

theorem octalRun (splits : cursor.Splits before after) :
    digitRun CharClass.octalValue? cursor = Utf8.encode (after.takeWhile Literal.isOctal) :=
  digitRun_splits _ _ (fun c => by rw [Literal.octalValue_eq]; rfl) narrow_octal splits

theorem hexRun (splits : cursor.Splits before after) :
    digitRun CharClass.hexValue? cursor = Utf8.encode (after.takeWhile Literal.isHex) :=
  digitRun_splits _ _ (fun c => by rw [Literal.hexValue_eq]; rfl) narrow_hex splits

theorem isOctal_iff (c : Char) : Literal.isOctal c = true ↔ '0' ≤ c ∧ c ≤ '7' := by
  have same : Literal.isOctal c = (CharClass.octalValue? c).isSome := by
    rw [Literal.octalValue_eq]
    rfl
  rw [same, CharClass.octalValue?]
  split
  · rename_i within
    exact iff_of_true rfl within
  · rename_i outside
    exact iff_of_false (by decide) outside

theorem controlByte_octal (c : Char) (octal : Literal.isOctal c = true) :
    Literal.controlByte? c = none := by
  rw [Literal.controlByte?.eq_def]
  split
  case h_8 => rfl
  all_goals exact absurd octal (by decide)

theorem take_encode (text : Text) (ascii : ∀ c ∈ text, isAscii c = true) (count : Nat) :
    (Utf8.encode text).take count = Utf8.encode (text.take count) := by
  rw [encode_ascii text ascii, ← List.map_take,
    encode_ascii _ fun c member => ascii c (List.mem_of_mem_take member)]

theorem escape_octal (digits : Text) (splits : cursor.Splits before (digits ++ rest))
    (fits : (Literal.Element.octal digits).Fits rest) :
    escape? cursor = some ((Literal.Element.octal digits).value, digits.byteLength) := by
  obtain ⟨filled, most, octal, stops⟩ := fits
  have ascii : ∀ c ∈ (digits ++ rest).takeWhile Literal.isOctal, isAscii c = true :=
    fun c member => narrow_octal c (List.all_eq_true.mp List.all_takeWhile c member)
  have run : (digitRun CharClass.octalValue? cursor).take 3 = Utf8.encode digits := by
    rw [octalRun splits, take_encode _ ascii,
      Literal.takeWhile_at_most Literal.isOctal 3 digits rest most octal stops]
  have byte : octalByte (Utf8.encode digits) = Literal.lowByte (Literal.numeral 8 digits) :=
    word_numeral 8 CharClass.octalValue? _ octalStep_low digits
      (fun c member => narrow_octal c (octal c member))
      fun c member => Literal.octalValue_some c (octal c member)
  rw [escape?, splits.remaining, run]
  cases digits with
  | nil => contradiction
  | cons c digits =>
      have first := octal c List.mem_cons_self
      rw [Option.map_some, List.cons_append]
      dsimp only
      rw [controlByte_octal c first]
      dsimp only
      rw [if_pos ((isOctal_iff c).mp first), byte, Utf8.encode_length]
      rfl

theorem escape_x (splits : cursor.Splits before ('x' :: rest)) :
    escape? cursor =
      let digits := Utf8.encode (rest.takeWhile Literal.isHex)
      some (if digits.isEmpty then ['x'.toUInt8] else [hexByte digits], 1 + digits.length) := by
  have moved := splits.movedOne rfl
  rw [escape?, splits.remaining, hexRun moved]
  rfl

theorem escape_hex (digits : Text) (splits : cursor.Splits before ('x' :: (digits ++ rest)))
    (fits : (Literal.Element.hex digits).Fits rest) :
    escape? cursor =
      some ((Literal.Element.hex digits).value, Text.byteLength ('x' :: digits)) := by
  obtain ⟨filled, hex, stops⟩ := fits
  have byte : hexByte (Utf8.encode digits) = Literal.lowByte (Literal.numeral 16 digits) :=
    word_numeral 16 CharClass.hexValue? _ hexStep_low digits
      (fun c member => narrow_hex c (hex c member))
      fun c member => Literal.hexValue_some c (hex c member)
  have some : (Utf8.encode digits).isEmpty = false := by
    have wide := Text.byteLength_pos digits (List.ne_nil_of_length_pos filled)
    rw [← Utf8.encode_length] at wide
    exact List.isEmpty_eq_false_iff.mpr (List.ne_nil_of_length_pos wide)
  rw [escape_x splits, Literal.takeWhile_exact Literal.isHex digits rest hex stops]
  dsimp only
  rw [some, if_neg Bool.false_ne_true, byte, Utf8.encode_length]
  rfl

theorem escape_char (c : Char) (splits : cursor.Splits before (c :: rest))
    (fits : (Literal.Element.escaped c).Fits rest) :
    escape? cursor = some ((Literal.Element.escaped c).value, c.utf8Size) := by
  obtain ⟨other, stops⟩ := fits
  by_cases marker : c = 'x'
  · subst marker
    have none : rest.takeWhile Literal.isHex = [] :=
      Literal.takeWhile_exact Literal.isHex [] rest (by simp) (stops rfl)
    rw [escape_x splits, none]
    rfl
  · rw [escape?, splits.remaining, Literal.Element.value, ← Literal.controlByte_eq]
    dsimp only [Option.map_some]
    cases Literal.controlByte? c with
    | some byte => rfl
    | none =>
        dsimp only
        rw [if_neg (mt (isOctal_iff c).mpr (Bool.eq_false_iff.mp other)), if_neg marker]

theorem escape_element (element : Literal.Element) (own : Text)
    (spelled : element.spelling = '\\' :: own) (fits : element.Fits rest)
    (splits : cursor.Splits before (own ++ rest)) :
    escape? cursor = some (element.value, own.byteLength) := by
  cases element with
  | char c => exact absurd (List.cons.inj spelled).1 fits
  | octal digits =>
      obtain rfl : digits = own := (List.cons.inj spelled).2
      exact escape_octal digits splits fits
  | hex digits =>
      cases spelled
      exact escape_hex digits splits fits
  | escaped c =>
      cases spelled
      exact escape_char c splits fits
  | backslash =>
      cases spelled
      cases fits
      rw [escape?, splits.remaining]
      rfl

end Escapes

section Agreement

theorem decodeBody_ended (cursor : Cursor) (ends : cursor.current? = none) :
    decodeBody? cursor = some [] := by
  rw [decodeBody?]
  split
  · rfl
  · rename_i byte here
    cases ends.symm.trans here

theorem decodeBody_plain (cursor : Cursor) (byte : UInt8) (here : cursor.current? = some byte)
    (plain : byte ≠ '\\'.toUInt8) :
    decodeBody? cursor = (decodeBody? (cursor.moved 1)).map (byte :: ·) := by
  rw [decodeBody?]
  split
  · rename_i ends
    cases here.symm.trans ends
  · rename_i first same
    cases here.symm.trans same
    exact if_neg plain

theorem decodeBody_escape (cursor : Cursor) (bytes : List UInt8) (length : Nat)
    (here : cursor.current? = some '\\'.toUInt8)
    (escape : escape? (cursor.moved 1) = some (bytes, length)) :
    decodeBody? cursor = (decodeBody? ((cursor.moved 1).moved length)).map (bytes ++ ·) := by
  rw [decodeBody?]
  split
  · rename_i ends
    cases here.symm.trans ends
  · rename_i first same
    cases here.symm.trans same
    rw [if_pos rfl, escape]

theorem decodeBody_copies (bytes more : List UInt8) (cursor : Cursor)
    (ahead : cursor.ahead = bytes ++ more) (plain : '\\'.toUInt8 ∉ bytes) :
    decodeBody? cursor = (decodeBody? (cursor.moved bytes.length)).map (bytes ++ ·) := by
  induction bytes generalizing cursor with
  | nil => exact Option.map_id'.symm
  | cons byte bytes ih =>
      have here : cursor.current? = some byte := by
        rw [Cursor.current?, Cursor.peek?, ahead]
        rfl
      have next : (cursor.moved 1).ahead = bytes ++ more := by
        rw [Cursor.ahead_moved, ahead]
        rfl
      have other : byte ≠ '\\'.toUInt8 := fun same => plain (same ▸ List.mem_cons_self)
      have moves : (cursor.moved 1).moved bytes.length = cursor.moved (byte :: bytes).length := by
        rw [Cursor.moved, Cursor.moved, Cursor.moved, Nat.add_assoc, Nat.add_comm 1]
        rfl
      rw [decodeBody_plain cursor byte here other,
        ih _ next fun member => plain (List.mem_cons_of_mem byte member), moves, Option.map_map]
      rfl

theorem decodeBody_splits (body : Text) (elements : List Literal.Element)
    (reads : Literal.ReadsAs body elements) (cursor : Cursor) (before : Text)
    (splits : cursor.Splits before body) :
    decodeBody? cursor = some (elements.flatMap Literal.Element.value) := by
  induction reads generalizing cursor before with
  | nil => exact decodeBody_ended cursor splits.current
  | cons element rest elements fits later ih =>
      rw [List.flatMap_cons]
      rcases element.spelling_cases with ⟨c, rfl⟩ | ⟨own, spelled⟩
      · have plain : '\\'.toUInt8 ∉ String.utf8EncodeChar c := fun member =>
          fits ((Utf8.mem_encodeChar c '\\' rfl).mp member).symm
        rw [decodeBody_copies _ (Utf8.encode rest) cursor splits.ahead plain,
          String.length_utf8EncodeChar, ih _ _ splits.movedChar]
        rfl
      · rw [spelled] at splits
        have here := (splits.current_iff '\\' rfl).mpr rfl
        have escaped := splits.movedOne rfl
        rw [decodeBody_escape cursor _ _ here (escape_element element own spelled fits escaped),
          ih _ _ escaped.moved]
        rfl

end Agreement

end InPlace

theorem Literal.bytes_by_elements (raw : Text) :
    ∃ elements, (∀ others, ReadsAs (stripQuotes raw) others ↔ others = elements) ∧
      bytes raw = elements.flatMap Element.value ∧
      InPlace.literalBytes? raw = some (elements.flatMap Element.value) := by
  obtain ⟨elements, only⟩ := readsAs_iff (stripQuotes raw)
  have reads := (only elements).mpr rfl
  refine ⟨elements, only, decodeBody_elements _ elements reads, ?_⟩
  rw [InPlace.literalBytes?, InPlace.stripQuotes_eq]
  exact InPlace.decodeBody_splits _ elements reads _ [] (Cursor.splits_start _)

example : Literal.bytes "'\\x1ffg\\7770\\é\\".toList =
    [0xFF, 0x67, 0xFF, 0x30, 0xC3, 0xA9, 0x5C] := by decide +kernel

end CPreprocessor
