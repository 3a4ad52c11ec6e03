import Mathlib.Data.Nat.Digits.Defs
import CPreprocessor.Literal

/-!
The escape grammar. The body of a literal falls apart, from left to right and greedily, into
characters and escapes. Each of these has a value of its own, and a literal denotes the values of
its elements in order.
-/

set_option autoImplicit false

namespace CPreprocessor.Literal

def digitTable : List (Char × Nat) :=
  [('0', 0), ('1', 1), ('2', 2), ('3', 3), ('4', 4), ('5', 5), ('6', 6), ('7', 7), ('8', 8),
    ('9', 9), ('a', 10), ('b', 11), ('c', 12), ('d', 13), ('e', 14), ('f', 15), ('A', 10),
    ('B', 11), ('C', 12), ('D', 13), ('E', 14), ('F', 15)]

def controlTable : List (Char × UInt8) :=
  [('n', 10), ('t', 9), ('r', 13), ('a', 7), ('b', 8), ('f', 12), ('v', 11)]

def isHex (c : Char) : Bool := (digitTable.lookup c).isSome

def isOctal (c : Char) : Bool := ((digitTable.take 8).lookup c).isSome

def digitValue (c : Char) : Nat := (digitTable.lookup c).getD 0

def numeral (base : Nat) (digits : Text) : Nat := Nat.ofDigits base (digits.map digitValue).reverse

def lowByte (value : Nat) : UInt8 := .ofNatLT (value % 256) (Nat.mod_lt value (by decide))

inductive Element where
  | char (c : Char)
  | octal (digits : Text)
  | hex (digits : Text)
  | escaped (c : Char)
  | backslash
deriving DecidableEq, Repr

namespace Element

def spelling : Element → Text
  | .char c => [c]
  | .octal digits => '\\' :: digits
  | .hex digits => '\\' :: 'x' :: digits
  | .escaped c => ['\\', c]
  | .backslash => ['\\']

def value : Element → List UInt8
  | .char c => String.utf8EncodeChar c
  | .octal digits => [lowByte (numeral 8 digits)]
  | .hex digits => [lowByte (numeral 16 digits)]
  | .escaped c =>
      match controlTable.lookup c with
      | some byte => [byte]
      | none => String.utf8EncodeChar c
  | .backslash => [0x5C]

-- An element takes all that it can of what follows.
def Fits (rest : Text) : Element → Prop
  | .char c => c ≠ '\\'
  | .octal digits =>
      0 < digits.length ∧ digits.length ≤ 3 ∧ (∀ c ∈ digits, isOctal c = true) ∧
        (digits.length < 3 → rest.head?.any isOctal = false)
  | .hex digits =>
      0 < digits.length ∧ (∀ c ∈ digits, isHex c = true) ∧ rest.head?.any isHex = false
  | .escaped c => isOctal c = false ∧ (c = 'x' → rest.head?.any isHex = false)
  | .backslash => rest = []

end Element

inductive ReadsAs : Text → List Element → Prop
  | nil : ReadsAs [] []
  | cons (element : Element) (rest : Text) (elements : List Element) (fits : element.Fits rest)
      (later : ReadsAs rest elements) : ReadsAs (element.spelling ++ rest) (element :: elements)

section Tables

theorem lookup_mem {α : Type} (table : List (Char × α)) (c : Char) (value : α)
    (found : table.lookup c = some value) : (c, value) ∈ table := by
  obtain ⟨before, after, parts, _⟩ := List.lookup_eq_some_iff.mp found
  rw [parts]
  exact List.mem_append_right before List.mem_cons_self

theorem lookup_of_ascii {α : Type} (values : Char → Option α) (table : List (Char × α))
    (entries : table.all (fun entry => entry.1.toNat < 128) = true)
    (wide : ∀ c, 128 ≤ c.toNat → values c = none)
    (ascii : ∀ n < 128, values (Char.ofNat n) = table.lookup (Char.ofNat n)) (c : Char) :
    values c = table.lookup c := by
  rcases Nat.lt_or_ge c.toNat 128 with small | large
  · have same := ascii c.toNat small
    rwa [Char.ofNat_toNat] at same
  · cases found : table.lookup c with
    | none => exact wide c large
    | some value =>
        have member := lookup_mem table c value found
        have small := of_decide_eq_true (List.all_eq_true.mp entries (c, value) member)
        exact absurd large (Nat.not_le.mpr small)

theorem not_le_of_wide (c most : Char) (wide : 128 ≤ c.toNat) (ascii : most.toNat < 128) :
    ¬ c ≤ most := by
  intro below
  have bound : c.toNat ≤ most.toNat := below
  omega

theorem octalValue_eq (c : Char) : CharClass.octalValue? c = (digitTable.take 8).lookup c := by
  refine lookup_of_ascii CharClass.octalValue? _ rfl ?_ (by decide +kernel) c
  intro c wide
  exact if_neg fun within => not_le_of_wide c '7' wide (by decide) within.2

theorem hexValue_eq (c : Char) : CharClass.hexValue? c = digitTable.lookup c := by
  refine lookup_of_ascii CharClass.hexValue? _ rfl ?_ (by decide +kernel) c
  intro c wide
  rw [CharClass.hexValue?, if_neg fun within => not_le_of_wide c '9' wide (by decide) within.2,
    if_neg fun within => not_le_of_wide c 'f' wide (by decide) within.2]
  exact if_neg fun within => not_le_of_wide c 'F' wide (by decide) within.2

theorem controlByte_eq (c : Char) : controlByte? c = controlTable.lookup c := by
  refine lookup_of_ascii controlByte? _ rfl ?_ (by decide +kernel) c
  intro c wide
  rw [controlByte?.eq_def]
  split
  case h_8 => rfl
  all_goals exact absurd wide (by decide)

theorem octalValue_some (c : Char) (octal : isOctal c = true) :
    CharClass.octalValue? c = some (digitValue c) := by
  obtain ⟨digit, found⟩ := Option.isSome_iff_exists.mp octal
  have whole : digitTable.lookup c = some digit := by
    rw [← List.take_append_drop 8 digitTable, List.lookup_append, found]
    rfl
  rw [octalValue_eq, found, digitValue, whole]
  rfl

theorem octalValue_none (c : Char) (other : isOctal c = false) : CharClass.octalValue? c = none := by
  rw [octalValue_eq]
  exact Option.isNone_iff_eq_none.mp (Option.isSome_eq_false_iff.mp other)

theorem hexValue_some (c : Char) (hex : isHex c = true) :
    CharClass.hexValue? c = some (digitValue c) := by
  obtain ⟨digit, found⟩ := Option.isSome_iff_exists.mp hex
  rw [hexValue_eq, found, digitValue, found]
  rfl

theorem hexValue_none (c : Char) (other : isHex c = false) : CharClass.hexValue? c = none := by
  rw [hexValue_eq]
  exact Option.isNone_iff_eq_none.mp (Option.isSome_eq_false_iff.mp other)

theorem numberByte_eq (base : Nat) (digits : Text) :
    numberByte base (digits.map digitValue) = lowByte (numeral base digits) := by
  apply UInt8.toNat_inj.mp
  have folded : (digits.map digitValue).foldl (fun value digit => value * base + digit) 0 =
      numeral base digits := by
    rw [numeral, Nat.ofDigits_eq_foldr, List.foldr_reverse]
    congr 1
    funext value digit
    rw [Nat.cast_id, Nat.mul_comm, Nat.add_comm]
  rw [numberByte, folded, UInt8.toNat_ofNat']
  rfl

end Tables

section Decoding

theorem decodeBody_octal (read : List Nat) (left : Nat) (digits rest : Text)
    (octal : ∀ c ∈ digits, isOctal c = true) (most : digits.length ≤ left)
    (stops : digits.length < left → rest.head?.any isOctal = false) :
    decodeBody (.octal read left) (digits ++ rest) =
      numberByte 8 (read ++ digits.map digitValue) :: decodeBody .plain rest := by
  induction digits generalizing read left with
  | nil =>
      rw [List.map_nil, List.append_nil, List.nil_append]
      cases rest with
      | nil => rfl
      | cons c rest =>
          rw [decodeBody, Reading.step]
          · rfl
          · rintro digit left found rfl
            rw [octalValue_none c (stops (Nat.succ_pos left))] at found
            cases found
  | cons c digits ih =>
      obtain ⟨first, others⟩ := List.forall_mem_cons.mp octal
      cases left with
      | zero => exact absurd most (Nat.not_succ_le_zero _)
      | succ left =>
          have later := ih (read ++ [digitValue c]) left others (Nat.le_of_succ_le_succ most)
            fun less => stops (Nat.succ_lt_succ less)
          rw [List.cons_append, decodeBody]
          simp only [Reading.step, octalValue_some c first]
          rw [later, List.nil_append, List.append_assoc]
          rfl

theorem decodeBody_hex (read : List Nat) (digits rest : Text)
    (hex : ∀ c ∈ digits, isHex c = true) (stops : rest.head?.any isHex = false) :
    decodeBody (.hex read) (digits ++ rest) =
      (Reading.hex (read ++ digits.map digitValue)).close ++ decodeBody .plain rest := by
  induction digits generalizing read with
  | nil =>
      rw [List.map_nil, List.append_nil, List.nil_append]
      cases rest with
      | nil => rw [decodeBody, decodeBody, Reading.close, List.append_nil]
      | cons c rest =>
          rw [decodeBody, Reading.step, hexValue_none c stops]
          dsimp only
          rw [List.append_assoc]
          rfl
  | cons c digits ih =>
      obtain ⟨first, others⟩ := List.forall_mem_cons.mp hex
      rw [List.cons_append, decodeBody, Reading.step, hexValue_some c first]
      dsimp only
      rw [ih (read ++ [digitValue c]) others, List.nil_append, List.append_assoc]
      rfl

theorem escapedBytes_eq (c : Char) : escapedBytes c = (Element.escaped c).value := by
  rw [escapedBytes, controlByte_eq]
  rfl

theorem decodeBody_escape_cons (c : Char) (rest : Text) :
    decodeBody .plain ('\\' :: c :: rest) =
      (Reading.escape.step c).1 ++ decodeBody (Reading.escape.step c).2 rest := rfl

theorem decodeBody_element (element : Element) (rest : Text) (fits : element.Fits rest) :
    decodeBody .plain (element.spelling ++ rest) = element.value ++ decodeBody .plain rest := by
  cases element with
  | char c =>
      rw [Element.spelling, List.singleton_append, decodeBody, Reading.step, plainStep, if_neg fits]
      rfl
  | octal digits =>
      obtain ⟨filled, most, octal, stops⟩ := fits
      cases digits with
      | nil => contradiction
      | cons c digits =>
          obtain ⟨first, others⟩ := List.forall_mem_cons.mp octal
          have read := decodeBody_octal [digitValue c] 2 digits rest others
            (Nat.le_of_succ_le_succ most) fun less => stops (Nat.succ_lt_succ less)
          rw [Element.spelling, List.cons_append, List.cons_append, decodeBody_escape_cons,
            Reading.step, octalValue_some c first]
          dsimp only
          rw [read, List.nil_append, List.singleton_append, ← List.map_cons, numberByte_eq]
          rfl
  | hex digits =>
      obtain ⟨filled, hex, stops⟩ := fits
      have read := decodeBody_hex [] digits rest hex stops
      rw [Element.spelling, List.cons_append, List.cons_append, decodeBody_escape_cons]
      refine read.trans ?_
      cases digits with
      | nil => contradiction
      | cons c digits =>
          rw [List.nil_append, List.map_cons, Reading.close, ← List.map_cons, numberByte_eq]
          · rfl
          · simp
  | escaped c =>
      obtain ⟨other, stops⟩ := fits
      rw [Element.spelling, List.cons_append, List.singleton_append, decodeBody_escape_cons,
        Reading.step, octalValue_none c other]
      dsimp only
      by_cases marker : c = 'x'
      · subst marker
        rw [if_pos rfl]
        exact decodeBody_hex [] [] rest (by simp) (stops rfl)
      · rw [if_neg marker, escapedBytes_eq]
  | backslash =>
      cases fits
      rfl

theorem decodeBody_elements (body : Text) (elements : List Element)
    (reads : ReadsAs body elements) : decodeBody .plain body = elements.flatMap Element.value := by
  induction reads with
  | nil => rfl
  | cons element rest elements fits later ih =>
      rw [decodeBody_element element rest fits, ih, List.flatMap_cons]

end Decoding

section Splitting

theorem takeWhile_exact (holds : Char → Bool) (own rest : Text) (all : ∀ c ∈ own, holds c = true)
    (stops : rest.head?.any holds = false) : (own ++ rest).takeWhile holds = own := by
  rw [List.takeWhile_append_of_pos all]
  cases rest with
  | nil => rw [List.takeWhile_nil, List.append_nil]
  | cons c rest =>
      have other : ¬ holds c = true := Bool.eq_false_iff.mp stops
      rw [List.takeWhile_cons_of_neg other, List.append_nil]

theorem takeWhile_at_most (holds : Char → Bool) (most : Nat) (own rest : Text)
    (short : own.length ≤ most) (all : ∀ c ∈ own, holds c = true)
    (stops : own.length < most → rest.head?.any holds = false) :
    ((own ++ rest).takeWhile holds).take most = own := by
  rcases Nat.lt_or_eq_of_le short with less | full
  · rw [takeWhile_exact holds own rest all (stops less), List.take_of_length_le short]
  · rw [List.takeWhile_append_of_pos all, List.take_left' full]

theorem dropWhile_stops (holds : Char → Bool) (text : Text) :
    (text.dropWhile holds).head?.any holds = false := by
  have stops := List.head?_dropWhile_not holds text
  cases left : (text.dropWhile holds).head? with
  | none => rfl
  | some c =>
      rw [left] at stops
      exact stops

def Element.first (c : Char) (rest : Text) : Element :=
  if c ≠ '\\' then .char c
  else
    match rest with
    | [] => .backslash
    | d :: more =>
        if isOctal d then .octal ((rest.takeWhile isOctal).take 3)
        else if d = 'x' ∧ more.head?.any isHex = true then .hex (more.takeWhile isHex)
        else .escaped d

theorem first_fits (c : Char) (rest : Text) :
    ∃ after, (Element.first c rest).spelling ++ after = c :: rest ∧
      (Element.first c rest).Fits after := by
  rw [Element.first.eq_def]
  by_cases plain : c ≠ '\\'
  · rw [if_pos plain]
    exact ⟨rest, rfl, plain⟩
  obtain rfl : c = '\\' := not_not.mp plain
  rw [if_neg plain]
  cases rest with
  | nil => exact ⟨[], rfl, rfl⟩
  | cons d more =>
      dsimp only
      by_cases octal : isOctal d = true
      · rw [if_pos octal]
        have whole := List.takeWhile_append_dropWhile (p := isOctal) (l := d :: more)
        refine ⟨((d :: more).takeWhile isOctal).drop 3 ++ (d :: more).dropWhile isOctal, ?_, ?_⟩
        · rw [Element.spelling, List.cons_append, ← List.append_assoc, List.take_append_drop, whole]
        · refine ⟨?_, List.length_take_le 3 _, ?_, ?_⟩
          · rw [List.takeWhile_cons_of_pos octal]
            exact Nat.succ_pos _
          · intro c member
            exact List.all_eq_true.mp List.all_takeWhile c (List.mem_of_mem_take member)
          · intro less
            have short : ((d :: more).takeWhile isOctal).length ≤ 3 := by
              rw [List.length_take] at less
              omega
            rw [List.drop_eq_nil_of_le short]
            exact dropWhile_stops isOctal (d :: more)
      rw [if_neg octal]
      have other := Bool.eq_false_iff.mpr octal
      by_cases hex : d = 'x' ∧ more.head?.any isHex = true
      · rw [if_pos hex]
        obtain ⟨rfl, digit⟩ := hex
        refine ⟨more.dropWhile isHex, ?_, ?_, ?_, dropWhile_stops isHex more⟩
        · rw [Element.spelling, List.cons_append, List.cons_append, List.takeWhile_append_dropWhile]
        · cases more with
          | nil => cases digit
          | cons e more =>
              have here : isHex e = true := digit
              rw [List.takeWhile_cons_of_pos here]
              exact Nat.succ_pos _
        · exact List.all_eq_true.mp List.all_takeWhile
      · rw [if_neg hex]
        exact ⟨more, rfl, other, fun same => Bool.eq_false_iff.mpr fun digit => hex ⟨same, digit⟩⟩

theorem first_unique (element : Element) (after : Text) (fits : element.Fits after) (c : Char)
    (rest : Text) (same : element.spelling ++ after = c :: rest) :
    Element.first c rest = element := by
  rw [Element.first.eq_def]
  cases element with
  | char d =>
      obtain ⟨rfl, rfl⟩ := List.cons.inj same
      exact if_pos fits
  | octal digits =>
      obtain ⟨filled, most, octal, stops⟩ := fits
      rw [Element.spelling, List.cons_append] at same
      obtain ⟨rfl, rfl⟩ := List.cons.inj same
      have taken := takeWhile_at_most isOctal 3 digits after most octal stops
      cases digits with
      | nil => contradiction
      | cons d digits =>
          rw [if_neg (not_not.mpr rfl), List.cons_append]
          dsimp only
          rw [if_pos (octal d List.mem_cons_self)]
          exact congrArg Element.octal taken
  | hex digits =>
      obtain ⟨filled, hex, stops⟩ := fits
      rw [Element.spelling, List.cons_append, List.cons_append] at same
      obtain ⟨rfl, rfl⟩ := List.cons.inj same
      have taken := takeWhile_exact isHex digits after hex stops
      cases digits with
      | nil => contradiction
      | cons d digits =>
          rw [if_neg (not_not.mpr rfl)]
          dsimp only
          rw [if_neg (by decide), if_pos ⟨rfl, hex d List.mem_cons_self⟩]
          exact congrArg Element.hex taken
  | escaped d =>
      obtain ⟨other, stops⟩ := fits
      rw [Element.spelling, List.cons_append, List.singleton_append] at same
      obtain ⟨rfl, rfl⟩ := List.cons.inj same
      rw [if_neg (not_not.mpr rfl)]
      dsimp only
      rw [if_neg (Bool.eq_false_iff.mp other)]
      exact if_neg fun hex => Bool.eq_false_iff.mp (stops hex.1) hex.2
  | backslash =>
      cases fits
      obtain ⟨rfl, rfl⟩ := List.cons.inj same
      rfl

theorem Element.spelling_pos (element : Element) : 0 < element.spelling.length := by
  cases element <;> exact Nat.succ_pos _

theorem Element.spelling_cases (element : Element) :
    (∃ c, element = .char c) ∨ ∃ own, element.spelling = '\\' :: own := by
  cases element with
  | char c => exact .inl ⟨c, rfl⟩
  | octal digits => exact .inr ⟨_, rfl⟩
  | hex digits => exact .inr ⟨_, rfl⟩
  | escaped c => exact .inr ⟨_, rfl⟩
  | backslash => exact .inr ⟨_, rfl⟩

theorem readsAs_nil (elements : List Element) (reads : ReadsAs [] elements) : elements = [] := by
  generalize none : [] = body at reads
  cases reads with
  | nil => rfl
  | cons element rest elements fits later =>
      have filled := element.spelling_pos
      rw [List.nil_eq_append_iff.mp none |>.1] at filled
      contradiction

theorem readsAs_iff (body : Text) :
    ∃ elements, ∀ others, ReadsAs body others ↔ others = elements := by
  induction measured : body.length using Nat.strongRecOn generalizing body with
  | ind size ih =>
      cases body with
      | nil => exact ⟨[], fun others => ⟨readsAs_nil others, fun none => none ▸ .nil⟩⟩
      | cons c rest =>
          obtain ⟨after, whole, fits⟩ := first_fits c rest
          have shorter : after.length < size := by
            have filled := (Element.first c rest).spelling_pos
            rw [← measured, ← whole, List.length_append]
            omega
          obtain ⟨elements, only⟩ := ih after.length shorter after rfl
          refine ⟨Element.first c rest :: elements, fun others => ⟨fun reads => ?_, ?_⟩⟩
          · generalize split : c :: rest = body at reads
            cases reads with
            | nil => cases split
            | cons element left later own reads =>
                have same := first_unique element left own c rest split.symm
                rw [← whole, same] at split
                rw [← List.append_cancel_left split] at reads
                rw [same, (only later).mp reads]
          · rintro rfl
            rw [← whole]
            exact .cons _ after elements fits ((only elements).mpr rfl)

end Splitting

end CPreprocessor.Literal
