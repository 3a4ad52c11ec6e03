import CPreprocessor.Text.CharClass
import CPreprocessor.Text.Cursor
import CPreprocessor.Proofs.Text.Bytes

/-!
A cursor between two characters. A byte below 0x80 is a character by itself wherever it stands, and
no byte of a wider character is below that. So a cursor that looks at such bytes only sees
characters, and one that moves over them, or over whole characters, stays between two.
-/

set_option autoImplicit false

namespace CPreprocessor

namespace Utf8

@[simp] theorem encode_cons (c : Char) (text : Text) :
    encode (c :: text) = String.utf8EncodeChar c ++ encode text := rfl

@[simp] theorem encode_append (first second : Text) : encode (first ++ second) = encode first ++ encode second :=
  List.flatMap_append

@[simp] theorem encode_length (text : Text) : (encode text).length = text.byteLength := by
  induction text with
  | nil => rfl
  | cons c text ih =>
      rw [encode_cons, List.length_append, String.length_utf8EncodeChar, ih, Text.byteLength_cons]

def isAscii (c : Char) : Bool := c.toNat < 0x80

theorem encodeChar_ascii (c : Char) (ascii : isAscii c = true) :
    String.utf8EncodeChar c = [c.toUInt8] := by
  have small : c.val.toNat ≤ 0x7F := Nat.le_of_lt_succ (of_decide_eq_true ascii)
  rw [String.utf8EncodeChar.eq_def]
  dsimp only
  rw [if_pos small]
  rfl

theorem utf8Size_ascii (c : Char) (ascii : isAscii c = true) : c.utf8Size = 1 := by
  rw [← String.length_utf8EncodeChar, encodeChar_ascii c ascii]
  rfl

theorem encodeChar_high (c : Char) (wide : isAscii c = false) (byte : UInt8)
    (member : byte ∈ String.utf8EncodeChar c) : 0x80 ≤ byte.toNat := by
  have large : ¬ c.val.toNat ≤ 0x7F := fun small =>
    Bool.false_ne_true (wide.symm.trans (decide_eq_true (Nat.lt_succ_of_le small)))
  have high : ∀ value, 0x80 ≤ value → value < 0x100 → 0x80 ≤ (UInt8.ofNat value).toNat := by
    intro value lower upper
    rwa [UInt8.toNat_ofNat_of_lt' upper]
  rw [String.utf8EncodeChar.eq_def] at member
  dsimp only at member
  rw [if_neg large] at member
  split at member
  · simp only [List.mem_cons, List.not_mem_nil, or_false] at member
    rcases member with rfl | rfl
    all_goals exact high _ (by omega) (by omega)
  · split at member
    · simp only [List.mem_cons, List.not_mem_nil, or_false] at member
      rcases member with rfl | rfl | rfl
      all_goals exact high _ (by omega) (by omega)
    · simp only [List.mem_cons, List.not_mem_nil, or_false] at member
      rcases member with rfl | rfl | rfl | rfl
      all_goals exact high _ (by omega) (by omega)

theorem encodeChar_wide (c : Char) (wide : isAscii c = false) :
    ∃ byte more, String.utf8EncodeChar c = byte :: more ∧ 0x80 ≤ byte.toNat := by
  cases bytes : String.utf8EncodeChar c with
  | nil =>
      have length := String.length_utf8EncodeChar c
      rw [bytes] at length
      exact absurd length.symm (Nat.ne_of_gt c.utf8Size_pos)
  | cons byte more =>
      exact ⟨byte, more, rfl, encodeChar_high c wide byte (bytes ▸ List.mem_cons_self)⟩

def asChar (byte : UInt8) : Char := Char.ofNat byte.toNat

theorem asChar_ascii (c : Char) (ascii : isAscii c = true) : asChar c.toUInt8 = c := by
  have small : c.toNat < 256 := Nat.lt_trans (of_decide_eq_true ascii) (by decide)
  have same : c.toUInt8.toNat = c.toNat := UInt8.toNat_ofNat_of_lt' small
  rw [asChar, same, Char.ofNat_toNat]

theorem isAscii_asChar (byte : UInt8) : isAscii (asChar byte) = decide (byte.toNat < 0x80) := by
  have valid : byte.toNat.isValidChar := .inl (Nat.lt_trans byte.toNat_lt (by decide))
  rw [isAscii, asChar, Char.ofNat, dif_pos valid]
  rfl

-- Only the character itself has the byte of an ASCII character.
theorem mem_encodeChar (c d : Char) (ascii : isAscii d = true) :
    d.toUInt8 ∈ String.utf8EncodeChar c ↔ d = c := by
  constructor
  · intro member
    cases narrow : isAscii c with
    | true =>
        rw [encodeChar_ascii c narrow, List.mem_singleton] at member
        have chars := congrArg asChar member
        rwa [asChar_ascii d ascii, asChar_ascii c narrow] at chars
    | false =>
        have high := encodeChar_high c narrow _ member
        have small := isAscii_asChar d.toUInt8
        rw [asChar_ascii d ascii, ascii] at small
        have low := of_decide_eq_true small.symm
        omega
  · rintro rfl
    rw [encodeChar_ascii d ascii]
    exact List.mem_singleton_self _

def Narrow (holds : Char → Bool) : Prop := ∀ c, holds c = true → isAscii c = true

theorem narrow_not (holds : Char → Bool) (narrow : Narrow holds) (c : Char)
    (wide : isAscii c = false) : holds c = false :=
  Bool.eq_false_iff.mpr fun is => Bool.false_ne_true (wide.symm.trans (narrow c is))

theorem narrow_eq (c : Char) (ascii : isAscii c = true) : Narrow (· == c) := by
  intro d same
  rwa [beq_iff_eq.mp same]

theorem narrow_below (holds : Char → Bool) (most : Char) (ascii : isAscii most = true)
    (bounded : ∀ c, holds c = true → c.val ≤ most.val) : Narrow holds :=
  fun c is => decide_eq_true (Nat.lt_of_le_of_lt (bounded c is) (of_decide_eq_true ascii))

theorem narrow_digit : Narrow Char.isDigit :=
  narrow_below _ '9' rfl fun _ is => of_decide_eq_true (Bool.and_eq_true_iff.mp is).2

theorem narrow_upper : Narrow Char.isUpper :=
  narrow_below _ 'Z' rfl fun _ is => (of_decide_eq_true is).2

theorem narrow_lower : Narrow Char.isLower :=
  narrow_below _ 'z' rfl fun _ is => of_decide_eq_true (Bool.and_eq_true_iff.mp is).2

theorem narrow_or (first second : Char → Bool) (left : Narrow first) (right : Narrow second) :
    Narrow fun c => first c || second c := by
  intro c is
  exact (Bool.or_eq_true_iff.mp is).elim (left c) (right c)

theorem narrow_alpha : Narrow Char.isAlpha := narrow_or _ _ narrow_upper narrow_lower

theorem narrow_nameStart : Narrow CharClass.isNameStart :=
  narrow_or _ _ narrow_alpha (narrow_eq '_' rfl)

theorem narrow_nameContinue : Narrow CharClass.isNameContinue :=
  narrow_or _ _ (narrow_or _ _ narrow_alpha narrow_digit) (narrow_eq '_' rfl)

theorem narrow_spaceTab : Narrow CharClass.isSpaceTab :=
  narrow_or _ _ (narrow_eq ' ' rfl) (narrow_eq '\t' rfl)

theorem narrow_quote : Narrow CharClass.isQuote :=
  narrow_or _ _ (narrow_eq '"' rfl) (narrow_eq '\'' rfl)

theorem narrow_exponentMarker : Narrow CharClass.isExponentMarker :=
  narrow_or _ _ (narrow_eq 'e' rfl) (narrow_eq 'E' rfl)

theorem encodeChar_first (holds : Char → Bool) (narrow : Narrow holds) (c : Char) :
    ∃ byte more, String.utf8EncodeChar c = byte :: more ∧ holds (asChar byte) = holds c ∧
      (holds c = true → more = []) := by
  cases ascii : isAscii c with
  | true => exact ⟨_, [], encodeChar_ascii c ascii, by rw [asChar_ascii c ascii], fun _ => rfl⟩
  | false =>
      obtain ⟨byte, more, same, large⟩ := encodeChar_wide c ascii
      have not := narrow_not holds narrow c ascii
      refine ⟨byte, more, same, ?_, fun is => absurd is (by rw [not]; decide)⟩
      rw [not]
      exact narrow_not holds narrow _ (by rw [isAscii_asChar]; exact decide_eq_false (by omega))

theorem takeWhile_encode (holds : Char → Bool) (narrow : Narrow holds) (text : Text) :
    (encode text).takeWhile (holds ∘ asChar) = encode (text.takeWhile holds) := by
  induction text with
  | nil => rfl
  | cons c text ih =>
      obtain ⟨byte, more, same, first, alone⟩ := encodeChar_first holds narrow c
      cases is : holds c with
      | true =>
          have here : (holds ∘ asChar) byte = true := first.trans is
          rw [encode_cons, List.takeWhile_cons_of_pos is, encode_cons, same, alone is,
            List.singleton_append, List.takeWhile_cons_of_pos here, ih]
          rfl
      | false =>
          have not : ¬ (holds ∘ asChar) byte = true := by
            rw [Function.comp_apply, first, is]
            decide
          rw [encode_cons, List.takeWhile_cons_of_neg (by rw [is]; decide), same, List.cons_append,
            List.takeWhile_cons_of_neg not]
          rfl

theorem encode_head (holds : Char → Bool) (narrow : Narrow holds) (text : Text) :
    (encode text).head?.any (holds ∘ asChar) = text.head?.any holds := by
  cases text with
  | nil => rfl
  | cons c text =>
      obtain ⟨byte, more, same, first, _⟩ := encodeChar_first holds narrow c
      rw [encode_cons, same]
      exact first

theorem encode_begins (c : Char) (ascii : isAscii c = true) (text : Text) (more : List UInt8)
    (begins : encode text = c.toUInt8 :: more) : ∃ rest, text = c :: rest ∧ encode rest = more := by
  cases text with
  | nil => cases begins
  | cons d rest =>
      rw [encode_cons] at begins
      cases narrow : isAscii d with
      | true =>
          rw [encodeChar_ascii d narrow] at begins
          obtain ⟨same, rfl⟩ := List.cons.inj begins
          have chars := congrArg asChar same
          rw [asChar_ascii d narrow, asChar_ascii c ascii] at chars
          exact ⟨rest, by rw [chars], rfl⟩
      | false =>
          obtain ⟨byte, later, first, large⟩ := encodeChar_wide d narrow
          rw [first] at begins
          have same : byte = c.toUInt8 := (List.cons.inj begins).1
          have small := isAscii_asChar byte
          rw [same, asChar_ascii c ascii, ascii] at small
          have bound := of_decide_eq_true small.symm
          rw [← same] at bound
          omega

theorem atLineEnd_encode (text : Text) :
    (match encode text with
      | 0x0A :: _ => true
      | 0x0D :: 0x0A :: _ => true
      | _ => false) = text.atLineEnd := by
  split
  · rename_i more begins
    obtain ⟨rest, rfl, _⟩ := encode_begins '\n' rfl text more begins
    rfl
  · rename_i more begins
    obtain ⟨rest, rfl, later⟩ := encode_begins '\r' rfl text _ begins
    obtain ⟨rest, rfl, _⟩ := encode_begins '\n' rfl rest more later
    rfl
  · rename_i feed returnFeed
    rw [Text.atLineEnd.eq_def]
    split
    · exact absurd rfl (feed _)
    · exact absurd rfl (returnFeed _)
    · rfl

theorem encode_dropBytes (position : Nat) (text rest : Text)
    (dropped : text.dropBytes? position = some rest) : (encode text).drop position = encode rest := by
  induction text generalizing position with
  | nil =>
      rw [Text.dropBytes?] at dropped
      split at dropped
      · cases dropped
        exact List.drop_nil
      · cases dropped
  | cons c text ih =>
      rw [Text.dropBytes?] at dropped
      by_cases start : position = 0
      · rw [if_pos start] at dropped
        cases dropped
        rw [start, List.drop_zero]
      · rw [if_neg start] at dropped
        by_cases past : c.utf8Size ≤ position
        · rw [if_pos past] at dropped
          have later := ih _ dropped
          rw [encode_cons, List.drop_append, String.length_utf8EncodeChar, later,
            List.drop_eq_nil_of_le (by rwa [String.length_utf8EncodeChar]), List.nil_append]
        · rw [if_neg past] at dropped
          cases dropped

end Utf8

namespace Cursor

-- The length of the character ahead, which is one at the end; undefined inside a character.
def charLength? (cursor : Cursor) : Option Nat :=
  cursor.remaining?.map fun rest =>
    match rest with
    | [] => 1
    | c :: _ => c.utf8Size

theorem not_atEnd (cursor : Cursor) (goesOn : ¬ (cursor.atEnd || cursor.atLineEnd) = true) :
    cursor.atEnd = false :=
  Bool.eq_false_iff.mpr fun ends => goesOn (Bool.or_eq_true_iff.mpr (.inl ends))

theorem current_more (cursor : Cursor) (byte : UInt8) (here : cursor.current? = some byte) :
    cursor.atEnd = false := by
  rw [current?, peek?] at here
  rw [atEnd]
  cases same : cursor.ahead with
  | nil =>
      rw [same] at here
      cases here
  | cons byte more => rfl

theorem ahead_moved (cursor : Cursor) (distance : Nat) :
    (cursor.moved distance).ahead = cursor.ahead.drop distance := by
  rw [ahead, ahead, List.drop_drop]
  rfl

theorem moved_le (cursor : Cursor) (distance : Nat) :
    (cursor.moved distance).ahead.length ≤ cursor.ahead.length := by
  rw [ahead_moved, List.length_drop]
  exact Nat.sub_le _ _

theorem moved_lt (cursor : Cursor) (distance : Nat) (more : cursor.atEnd = false)
    (moves : 0 < distance) : (cursor.moved distance).ahead.length < cursor.ahead.length := by
  have filled : 0 < cursor.ahead.length :=
    List.length_pos_iff.mpr fun none => by rw [atEnd, none] at more; cases more
  rw [ahead_moved, List.length_drop]
  omega

theorem charLength_pos (cursor : Cursor) (length : Nat) (found : cursor.charLength? = some length) :
    0 < length := by
  obtain ⟨rest, _, same⟩ := Option.map_eq_some_iff.mp found
  rw [← same]
  cases rest with
  | nil => exact Nat.one_pos
  | cons c rest => exact c.utf8Size_pos

theorem advanceChar_lt (cursor next : Cursor) (more : cursor.atEnd = false)
    (found : cursor.advanceChar? = some next) : next.ahead.length < cursor.ahead.length := by
  obtain ⟨rest, dropped, same⟩ := Option.map_eq_some_iff.mp found
  cases rest with
  | nil =>
      have none : cursor.ahead = [] := Utf8.encode_dropBytes _ _ _ dropped
      rw [atEnd, none] at more
      cases more
  | cons c rest =>
      rw [← same]
      exact moved_lt cursor _ more c.utf8Size_pos

structure Splits (cursor : Cursor) (before after : Text) : Prop where
  text : cursor.text = before ++ after
  position : cursor.position = before.byteLength

theorem splits_start (text : Text) : (start text).Splits [] text := ⟨rfl, rfl⟩

section

variable {cursor : Cursor} {before after : Text} (splits : cursor.Splits before after)
include splits

theorem Splits.ahead : cursor.ahead = Utf8.encode after := by
  rw [Cursor.ahead, splits.text, splits.position, Utf8.encode_append, ← Utf8.encode_length,
    List.drop_left]

theorem Splits.atEnd : cursor.atEnd = after.isEmpty := by
  rw [Cursor.atEnd, splits.ahead]
  cases after with
  | nil => rfl
  | cons c after =>
      obtain ⟨byte, more, same, _⟩ := Utf8.encodeChar_first (fun _ => false) (by simp [Utf8.Narrow]) c
      rw [Utf8.encode_cons, same]
      rfl

theorem Splits.atLineEnd : cursor.atLineEnd = after.atLineEnd := by
  rw [Cursor.atLineEnd, splits.ahead]
  exact Utf8.atLineEnd_encode after

theorem Splits.current : cursor.current? = (Utf8.encode after).head? := by
  rw [Cursor.current?, peek?, splits.ahead, List.head?_eq_getElem?]

theorem Splits.lookingAt (holds : Char → Bool) (narrow : Utf8.Narrow holds) :
    cursor.lookingAt (holds ∘ Utf8.asChar) = after.head?.any holds := by
  rw [Cursor.lookingAt, splits.current]
  exact Utf8.encode_head holds narrow after

theorem Splits.current_iff (c : Char) (ascii : Utf8.isAscii c = true) :
    cursor.current? = some c.toUInt8 ↔ after.head? = some c := by
  rw [splits.current]
  constructor
  · intro found
    obtain ⟨more, begins⟩ := List.head?_eq_some_iff.mp found
    obtain ⟨rest, rfl, _⟩ := Utf8.encode_begins c ascii after more begins
    rfl
  · intro found
    obtain ⟨rest, rfl⟩ := List.head?_eq_some_iff.mp found
    rw [Utf8.encode_cons, Utf8.encodeChar_ascii c ascii]
    rfl

theorem Splits.remaining : cursor.remaining? = some after := by
  rw [remaining?, splits.text, splits.position]
  exact Text.dropBytes_append before after

end

section

variable {cursor : Cursor} {before rest : Text}

theorem Splits.unique {first second : Text} (splits : cursor.Splits before first)
    (other : cursor.Splits rest second) : before = rest ∧ first = second := by
  have after : first = second := Option.some.inj (splits.remaining.symm.trans other.remaining)
  subst after
  exact ⟨List.append_cancel_right (splits.text.symm.trans other.text), rfl⟩

theorem Splits.moved {own : Text} (splits : cursor.Splits before (own ++ rest)) :
    (cursor.moved own.byteLength).Splits (before ++ own) rest := by
  refine ⟨?_, ?_⟩
  · rw [List.append_assoc]
    exact splits.text
  · rw [Text.byteLength_append, ← splits.position]
    rfl

theorem Splits.joined {first second : Text}
    (splits : cursor.Splits (before ++ first ++ second) rest) :
    cursor.Splits (before ++ (first ++ second)) rest := by
  rwa [← List.append_assoc]

theorem Splits.movedChar {c : Char} (splits : cursor.Splits before (c :: rest)) :
    (cursor.moved c.utf8Size).Splits (before ++ [c]) rest :=
  have parts : cursor.Splits before ([c] ++ rest) := splits
  parts.moved

theorem Splits.charLength {c : Char} (splits : cursor.Splits before (c :: rest)) :
    cursor.charLength? = some c.utf8Size := by
  rw [charLength?, splits.remaining]
  rfl

theorem Splits.current_class {c : Char} (splits : cursor.Splits before (c :: rest)) :
    ∃ byte, cursor.current? = some byte ∧ (Utf8.isAscii c = true → byte = c.toUInt8) ∧
      ∀ holds, Utf8.Narrow holds → holds (Utf8.asChar byte) = holds c := by
  rw [splits.current, Utf8.encode_cons]
  cases ascii : Utf8.isAscii c with
  | true =>
      rw [Utf8.encodeChar_ascii c ascii]
      exact ⟨c.toUInt8, rfl, fun _ => rfl, fun holds _ => by rw [Utf8.asChar_ascii c ascii]⟩
  | false =>
      obtain ⟨byte, more, same, large⟩ := Utf8.encodeChar_wide c ascii
      have wide : Utf8.isAscii (Utf8.asChar byte) = false := by
        rw [Utf8.isAscii_asChar]
        exact decide_eq_false (Nat.not_lt.mpr large)
      rw [same]
      refine ⟨byte, rfl, fun is => absurd is Bool.false_ne_true, fun holds narrow => ?_⟩
      rw [Utf8.narrow_not holds narrow c ascii, Utf8.narrow_not holds narrow _ wide]

theorem Splits.first {byte : UInt8} (splits : cursor.Splits before rest)
    (here : cursor.current? = some byte) :
    ∃ c more, rest = c :: more ∧ (Utf8.isAscii c = true → byte = c.toUInt8) ∧
      ∀ holds, Utf8.Narrow holds → holds (Utf8.asChar byte) = holds c := by
  cases rest with
  | nil =>
      rw [splits.current] at here
      cases here
  | cons c more =>
      obtain ⟨own, found, alone, classes⟩ := splits.current_class
      cases here.symm.trans found
      exact ⟨c, more, rfl, alone, classes⟩

theorem Splits.ended (splits : cursor.Splits before rest) (ends : cursor.current? = none) :
    rest = [] := by
  cases rest with
  | nil => rfl
  | cons c more =>
      obtain ⟨byte, here, _⟩ := splits.current_class
      cases ends.symm.trans here

theorem Splits.advanceChar {c : Char} (splits : cursor.Splits before (c :: rest)) :
    cursor.advanceChar? = some (cursor.moved c.utf8Size) := by
  have remaining := splits.remaining
  rw [remaining?] at remaining
  rw [advanceChar?, remaining]
  rfl

theorem Splits.nextChar (splits : cursor.Splits before rest) (goesOn : cursor.atEnd = false) :
    ∃ c more, rest = c :: more ∧ cursor.advanceChar? = some (cursor.moved c.utf8Size) ∧
      (cursor.moved c.utf8Size).Splits (before ++ [c]) more := by
  cases rest with
  | nil =>
      rw [splits.atEnd] at goesOn
      cases goesOn
  | cons c more => exact ⟨c, more, rfl, splits.advanceChar, splits.movedChar⟩

theorem Splits.movedOne {c : Char} (splits : cursor.Splits before (c :: rest))
    (ascii : Utf8.isAscii c = true) : (cursor.moved 1).Splits (before ++ [c]) rest := by
  have moved := splits.movedChar
  rwa [Utf8.utf8Size_ascii c ascii] at moved

theorem Splits.advance {c : Char} (splits : cursor.Splits before (c :: rest))
    (ascii : Utf8.isAscii c = true) : cursor.advance.Splits (before ++ [c]) rest := by
  rw [Cursor.advance, splits.atEnd, List.isEmpty_cons, if_neg Bool.false_ne_true]
  exact splits.movedOne ascii

theorem Splits.slice {own : Text} (splits : cursor.Splits (before ++ own) rest) :
    cursor.sliceFrom? before.byteLength = some own := by
  rw [sliceFrom?, splits.text, splits.position, Text.byteLength_append, List.append_assoc]
  exact Text.slice_append before own rest

theorem Splits.eatWhile (splits : cursor.Splits before rest) (holds : Char → Bool)
    (narrow : Utf8.Narrow holds) :
    (cursor.eatWhile (holds ∘ Utf8.asChar)).2.Splits (before ++ rest.takeWhile holds)
      (rest.dropWhile holds) := by
  have parts : cursor.Splits before (rest.takeWhile holds ++ rest.dropWhile holds) := by
    rwa [List.takeWhile_append_dropWhile]
  have moved := parts.moved
  rwa [← Utf8.encode_length, ← Utf8.takeWhile_encode holds narrow, ← splits.ahead] at moved

theorem Splits.eat_pos {c : Char} (splits : cursor.Splits before (c :: rest))
    (ascii : Utf8.isAscii c = true) :
    cursor.eat c.toUInt8 = (true, cursor.moved 1) := by
  rw [eat, if_pos ((splits.current_iff c ascii).mpr rfl)]

theorem Splits.eat_neg (splits : cursor.Splits before rest) (c : Char)
    (ascii : Utf8.isAscii c = true) (other : rest.head? ≠ some c) :
    cursor.eat c.toUInt8 = (false, cursor) := by
  rw [eat, if_neg (mt (splits.current_iff c ascii).mp other)]

end

end Cursor

end CPreprocessor
