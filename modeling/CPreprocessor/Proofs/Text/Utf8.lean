import CPreprocessor.Text.Utf8

/-!
Reading back what was encoded: the automaton takes the bytes of a character, one by one, back to
that character, so no text is changed by its UTF-8 form.
-/

set_option autoImplicit false

namespace CPreprocessor.Utf8

theorem lead_two (byte : Nat) (least : 0xC2 ≤ byte) (most : byte ≤ 0xDF) :
    lead byte = .first ⟨byte - 0xC0, 1, 0x80, 0xBF⟩ := by
  rw [lead, if_neg (by omega), if_neg (by omega), if_pos most]

-- The second byte is bounded where the first alone would allow a form that is too long, or one of
-- the code points that stand for no character.
theorem lead_three (byte : Nat) (least : 0xE0 ≤ byte) (most : byte ≤ 0xEF) :
    lead byte = .first ⟨byte - 0xE0, 2, if byte = 0xE0 then 0xA0 else 0x80,
      if byte = 0xED then 0x9F else 0xBF⟩ := by
  rw [lead, if_neg (by omega), if_neg (by omega), if_neg (by omega)]
  by_cases low : byte = 0xE0
  · simp [low]
  · rw [if_neg low, if_neg low]
    by_cases surrogate : byte = 0xED
    · simp [surrogate]
    · rw [if_neg surrogate, if_pos most, if_neg surrogate]

theorem lead_four (byte : Nat) (least : 0xF0 ≤ byte) (most : byte ≤ 0xF4) :
    lead byte = .first ⟨byte - 0xF0, 3, if byte = 0xF0 then 0x90 else 0x80,
      if byte = 0xF4 then 0x8F else 0xBF⟩ := by
  rw [lead, if_neg (by omega), if_neg (by omega), if_neg (by omega), if_neg (by omega),
    if_neg (by omega), if_neg (by omega)]
  by_cases low : byte = 0xF0
  · simp [low]
  · rw [if_neg low, if_neg low]
    by_cases high : byte = 0xF4
    · simp [high]
    · rw [if_neg high, if_pos (by omega), if_neg high]

section

variable (byte : Nat) (rest : List UInt8) (fits : byte < 256)
include fits

theorem units_whole (ascii : byte ≤ 0x7F) :
    units none (UInt8.ofNat byte :: rest) = some (Char.ofNat byte) :: units none rest := by
  have same : (UInt8.ofNat byte).toNat = byte := UInt8.toNat_ofNat_of_lt' fits
  rw [units, same, lead, if_pos ascii]
  rfl

theorem units_begins (pending : Pending) (begins : lead byte = .first pending) :
    units none (UInt8.ofNat byte :: rest) = units (some pending) rest := by
  have same : (UInt8.ofNat byte).toNat = byte := UInt8.toNat_ofNat_of_lt' fits
  rw [units, same, begins]
  rfl

variable (bits owed low high : Nat) (least : low ≤ byte) (most : byte ≤ high)
include least most

theorem units_goesOn :
    units (some ⟨bits, owed + 2, low, high⟩) (UInt8.ofNat byte :: rest) =
      units (some ⟨bits * 64 + (byte - 0x80), owed + 1, 0x80, 0xBF⟩) rest := by
  have same : (UInt8.ofNat byte).toNat = byte := UInt8.toNat_ofNat_of_lt' fits
  rw [units, same, Pending.units, if_pos ⟨least, most⟩]
  dsimp only
  rw [if_neg (by omega)]
  rfl

theorem units_ends (value : Nat) (whole : bits * 64 + (byte - 0x80) = value) :
    units (some ⟨bits, 1, low, high⟩) (UInt8.ofNat byte :: rest) =
      some (Char.ofNat value) :: units none rest := by
  have same : (UInt8.ofNat byte).toNat = byte := UInt8.toNat_ofNat_of_lt' fits
  rw [units, same, Pending.units, if_pos ⟨least, most⟩, ← whole]
  rfl

end

theorem units_encodeChar (c : Char) (rest : List UInt8) :
    units none (String.utf8EncodeChar c ++ rest) = some c :: units none rest := by
  have code : Char.ofNat c.val.toNat = c := Char.ofNat_toNat c
  have valid : c.val.toNat < 0xD800 ∨ 0xDFFF < c.val.toNat ∧ c.val.toNat < 0x110000 := c.valid
  rw [String.utf8EncodeChar.eq_def]
  generalize c.val.toNat = value at code valid
  dsimp only
  by_cases one : value ≤ 0x7F
  · rw [if_pos one, List.singleton_append, units_whole value rest (by omega) one, code]
  rw [if_neg one]
  by_cases two : value ≤ 0x7FF
  · rw [if_pos two, List.cons_append, List.singleton_append,
      units_begins _ _ (by omega) _ (lead_two _ (by omega) (by omega)),
      units_ends _ _ (by omega) _ _ _ (by omega) (by omega) value (by omega), code]
  rw [if_neg two]
  by_cases three : value ≤ 0xFFFF
  · rw [if_pos three, List.cons_append, List.cons_append, List.singleton_append,
      units_begins _ _ (by omega) _ (lead_three _ (by omega) (by omega)),
      units_goesOn _ _ (by omega) _ 0 _ _ (by split <;> omega) (by split <;> omega),
      units_ends _ _ (by omega) _ _ _ (by omega) (by omega) value (by omega), code]
  · rw [if_neg three, List.cons_append, List.cons_append, List.cons_append, List.singleton_append,
      units_begins _ _ (by omega) _ (lead_four _ (by omega) (by omega)),
      units_goesOn _ _ (by omega) _ 1 _ _ (by split <;> omega) (by split <;> omega),
      units_goesOn _ _ (by omega) _ 0 _ _ (by omega) (by omega),
      units_ends _ _ (by omega) _ _ _ (by omega) (by omega) value (by omega), code]

theorem units_encode (text : Text) : units none (encode text) = text.map some := by
  induction text with
  | nil => rfl
  | cons c text ih => rw [encode, List.flatMap_cons, units_encodeChar, ← encode, ih, List.map_cons]

@[simp] theorem decodeLossy_encode (text : Text) : decodeLossy (encode text) = text := by
  rw [decodeLossy, units_encode, List.map_map]
  exact List.map_id text

end CPreprocessor.Utf8
