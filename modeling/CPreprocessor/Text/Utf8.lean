import CPreprocessor.Text.Basic

/-!
The UTF-8 form of texts. Bytes are read one at a time; a sequence that breaks off or that no
character has is one fault, from its first byte up to the byte that rules it out.
-/

set_option autoImplicit false

namespace CPreprocessor.Utf8

def encode (text : Text) : List UInt8 := text.flatMap String.utf8EncodeChar

-- A character whose encoding has begun: the bits read so far, the number of bytes owed, and the
-- range that the next byte must lie in.
structure Pending where
  bits : Nat
  owed : Nat
  low : Nat
  high : Nat
deriving DecidableEq, Repr

inductive Lead where
  | whole (char : Char)
  | first (pending : Pending)
  | fault
deriving DecidableEq, Repr

def lead (byte : Nat) : Lead :=
  if byte ≤ 0x7F then .whole (Char.ofNat byte)
  else if byte < 0xC2 then .fault
  else if byte ≤ 0xDF then .first ⟨byte - 0xC0, 1, 0x80, 0xBF⟩
  else if byte = 0xE0 then .first ⟨0, 2, 0xA0, 0xBF⟩
  else if byte = 0xED then .first ⟨0xD, 2, 0x80, 0x9F⟩
  else if byte ≤ 0xEF then .first ⟨byte - 0xE0, 2, 0x80, 0xBF⟩
  else if byte = 0xF0 then .first ⟨0, 3, 0x90, 0xBF⟩
  else if byte ≤ 0xF3 then .first ⟨byte - 0xF0, 3, 0x80, 0xBF⟩
  else if byte = 0xF4 then .first ⟨4, 3, 0x80, 0x8F⟩
  else .fault

def Lead.units : Lead → List (Option Char) × Option Pending
  | .whole char => ([some char], none)
  | .first pending => ([], some pending)
  | .fault => ([none], none)

-- The units that a byte completes inside a character. A byte out of range ends the character as a
-- fault and is read again as the start of another.
def Pending.units (pending : Pending) (byte : Nat) : List (Option Char) × Option Pending :=
  if pending.low ≤ byte ∧ byte ≤ pending.high then
    let bits := pending.bits * 64 + (byte - 0x80)
    if pending.owed ≤ 1 then ([some (Char.ofNat bits)], none)
    else ([], some ⟨bits, pending.owed - 1, 0x80, 0xBF⟩)
  else
    let again := (lead byte).units
    (none :: again.1, again.2)

def units : Option Pending → List UInt8 → List (Option Char)
  | none, [] => []
  | some _, [] => [none]
  | none, byte :: bytes =>
      let step := (lead byte.toNat).units
      step.1 ++ units step.2 bytes
  | some pending, byte :: bytes =>
      let step := pending.units byte.toNat
      step.1 ++ units step.2 bytes

def replacement : Char := '\uFFFD'

def decodeLossy (bytes : List UInt8) : Text :=
  (units none bytes).map (·.getD replacement)

def decode? (bytes : List UInt8) : Option Text :=
  (units none bytes).mapM id

end CPreprocessor.Utf8
