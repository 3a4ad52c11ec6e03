import Mathlib.Computability.Language
import CPreprocessor.Proofs.Lexing.Escapes

/-!
The lexical grammar as languages. A name, a number or a run of blanks is the longest prefix of what
is left of the normalized text that lies in its language; a literal is found from the line it stands
on. The readers of the scanner take one step after the other and never go back, and still take the
longest.
-/

set_option autoImplicit false

open scoped Computability

namespace CPreprocessor

namespace Grammar

def Letter (c : Char) : Prop := 'a' ≤ c ∧ c ≤ 'z' ∨ 'A' ≤ c ∧ c ≤ 'Z'

def Digit (c : Char) : Prop := '0' ≤ c ∧ c ≤ '9'

def NameStart (c : Char) : Prop := Letter c ∨ c = '_'

def NamePart (c : Char) : Prop := NameStart c ∨ Digit c

def Blank (c : Char) : Prop := c = ' ' ∨ c = '\t'

def Quote (c : Char) : Prop := c = '"' ∨ c = '\''

def Marker (c : Char) : Prop := c = 'e' ∨ c = 'E'

def Sign (c : Char) : Prop := c = '+' ∨ c = '-'

instance (c : Char) : Decidable (Letter c) := inferInstanceAs (Decidable (_ ∨ _))

instance (c : Char) : Decidable (Digit c) := inferInstanceAs (Decidable (_ ∧ _))

instance (c : Char) : Decidable (NameStart c) := inferInstanceAs (Decidable (_ ∨ _))

instance (c : Char) : Decidable (NamePart c) := inferInstanceAs (Decidable (_ ∨ _))

instance (c : Char) : Decidable (Blank c) := inferInstanceAs (Decidable (_ ∨ _))

instance (c : Char) : Decidable (Quote c) := inferInstanceAs (Decidable (_ ∨ _))

def one (holds : Char → Prop) : Language Char := {text | ∃ c, text = [c] ∧ holds c}

def names : Language Char := one NameStart * (one NamePart)∗

def fractions : Language Char := 1 + one (· = '.') * (one Digit)∗

def exponents : Language Char := 1 + one Marker * (1 + one Sign) * (one Digit)∗

def numbers : Language Char :=
  one Digit * (one Digit)∗ * fractions * exponents * (one NamePart)∗

def blanks : Language Char := one Blank * (one Blank)∗

def lineEnds : Language Char := {['\n'], ['\r', '\n']}

structure Longest (language : Language Char) (text word : Text) : Prop where
  taken : word <+: text
  within : word ∈ language
  longest : ∀ other, other <+: text → other ∈ language → other.length ≤ word.length

def EndsAt (text : Text) : Prop := ∃ ending ∈ lineEnds, ending <+: text

structure Line (text line : Text) : Prop where
  taken : line <+: text
  stops : ∀ rest, text = line ++ rest → rest = [] ∨ EndsAt rest
  first : ∀ before rest, text = before ++ rest → EndsAt rest → line.length ≤ before.length

def Unclosed (quote : Char) (before text : Text) : Prop :=
  ∀ part, part ++ [quote] <+: text → Literal.endsInEscape (before ++ part) = true

inductive Quoted (text : Text) : Text → Prop
  | closed (quote : Char) (rest line body : Text) (quotes : Quote quote)
      (starts : text = quote :: rest) (single : Line rest line) (taken : body ++ [quote] <+: line)
      (closes : Literal.endsInEscape body = false) (first : Unclosed quote [] body) :
      Quoted text (quote :: (body ++ [quote]))
  | unclosed (quote : Char) (rest line : Text) (quotes : Quote quote)
      (starts : text = quote :: rest) (single : Line rest line) (runsOn : Unclosed quote [] line) :
      Quoted text (quote :: line)

inductive Munches (text : Text) : Kind → Text → Prop
  | name (word : Text) (longest : Longest names text word) : Munches text .name word
  | number (word : Text) (longest : Longest numbers text word) : Munches text .number word
  | spaceTab (word : Text) (longest : Longest blanks text word) : Munches text .spaceTab word
  | newline (word : Text) (taken : word <+: text) (ends : word ∈ lineEnds) :
      Munches text .newline word
  | string (word : Text) (quoted : Quoted text word) : Munches text .string word
  | other (c : Char) (rest : Text) (starts : text = c :: rest)
      (none : ∀ word, word <+: text → word ∉ names + numbers + blanks + lineEnds)
      (unquoted : ∀ word, ¬ Quoted text word) : Munches text .other [c]

theorem isDigit_iff (c : Char) : c.isDigit = true ↔ Digit c := by
  simp [Char.isDigit, Digit, Char.le_def]

theorem isAlpha_iff (c : Char) : c.isAlpha = true ↔ Letter c := by
  have upper : c.isUpper = true ↔ 'A' ≤ c ∧ c ≤ 'Z' := decide_eq_true_iff
  have lower : c.isLower = true ↔ 'a' ≤ c ∧ c ≤ 'z' :=
    Bool.and_eq_true_iff.trans (and_congr decide_eq_true_iff decide_eq_true_iff)
  rw [show c.isAlpha = (c.isUpper || c.isLower) from rfl, Bool.or_eq_true, upper, lower, or_comm]
  rfl

theorem isNameStart_iff (c : Char) : CharClass.isNameStart c = true ↔ NameStart c := by
  simp [CharClass.isNameStart, NameStart, isAlpha_iff]

theorem isNameContinue_iff (c : Char) : CharClass.isNameContinue c = true ↔ NamePart c := by
  simp [CharClass.isNameContinue, Char.isAlphanum, NamePart, NameStart, isAlpha_iff, isDigit_iff,
    or_right_comm]

theorem isSpaceTab_iff (c : Char) : CharClass.isSpaceTab c = true ↔ Blank c := by
  simp [CharClass.isSpaceTab, Blank]

theorem isQuote_iff (c : Char) : CharClass.isQuote c = true ↔ Quote c := by
  simp [CharClass.isQuote, Quote]

theorem isExponentMarker_iff (c : Char) : CharClass.isExponentMarker c = true ↔ Marker c := by
  simp [CharClass.isExponentMarker, Marker]

theorem namePart_of_digit (c : Char) (digit : Digit c) : NamePart c := Or.inr digit

theorem digit_not_nameStart (c : Char) (digit : Digit c) : ¬ NameStart c := by
  rintro ((small | capital) | rfl)
  · exact absurd (Char.le_trans small.1 digit.2) (by decide)
  · exact absurd (Char.le_trans capital.1 digit.2) (by decide)
  · exact absurd digit (by decide)

theorem marker_not_digit (c : Char) (marker : Marker c) : ¬ Digit c := by
  rcases marker with rfl | rfl <;> decide

theorem marker_namePart (c : Char) (marker : Marker c) : NamePart c := by
  rcases marker with rfl | rfl <;> decide

theorem sign_not_namePart (c : Char) (sign : Sign c) : ¬ NamePart c := by
  rcases sign with rfl | rfl <;> decide

theorem mem_many (holds : Char → Prop) (text : Text) :
    text ∈ (one holds)∗ ↔ ∀ c ∈ text, holds c := by
  constructor
  · rintro ⟨parts, rfl, all⟩ c member
    obtain ⟨part, among, within⟩ := List.mem_flatten.mp member
    obtain ⟨d, rfl, right⟩ := all part among
    rwa [List.mem_singleton.mp within]
  · intro all
    refine ⟨text.map fun c => [c], (List.flatMap_singleton' text).symm, ?_⟩
    intro part among
    obtain ⟨c, member, rfl⟩ := List.mem_map.mp among
    exact ⟨c, rfl, all c member⟩

theorem mem_one_mul (holds : Char → Prop) (language : Language Char) (text : Text) :
    text ∈ one holds * language ↔ ∃ c rest, text = c :: rest ∧ holds c ∧ rest ∈ language := by
  rw [Language.mem_mul]
  constructor
  · rintro ⟨_, ⟨c, rfl, right⟩, rest, member, rfl⟩
    exact ⟨c, rest, rfl, right, member⟩
  · rintro ⟨c, rest, rfl, right, member⟩
    exact ⟨[c], ⟨c, rfl, right⟩, rest, member, rfl⟩

def Greedy (language : Language Char) (reader : Text → Text) : Prop :=
  ∀ text word, word ∈ language → word <+: text → word <+: reader text

theorem greedy_many (test : Char → Bool) (holds : Char → Prop)
    (same : ∀ c, test c = true ↔ holds c) :
    Greedy (one holds)∗ fun text => (Lexeme.run test text).1 := by
  intro text word many taken
  rw [mem_many] at many
  induction text generalizing word with
  | nil =>
      rw [List.prefix_nil.mp taken]
      exact List.nil_prefix
  | cons c text ih =>
      cases word with
      | nil => exact List.nil_prefix
      | cons d word =>
          obtain ⟨rfl, later⟩ := List.cons_prefix_cons.mp taken
          have here : test d = true := (same d).mpr (many d List.mem_cons_self)
          dsimp only
          rw [Lexeme.run, List.takeWhile_cons_of_pos here]
          exact List.cons_prefix_cons.mpr
            ⟨rfl, ih word (fun c member => many c (List.mem_cons_of_mem d member)) later⟩

theorem run_many (test : Char → Bool) (holds : Char → Prop)
    (same : ∀ c, test c = true ↔ holds c) (text : Text) :
    (Lexeme.run test text).1 ∈ (one holds)∗ :=
  (mem_many holds _).mpr fun c member => (same c).mp (List.mem_takeWhile_imp member)

-- What can follow digits that were cut short: a word of the language that begins with a digit is
-- nothing but name characters, and any of these may stand there.
structure Resumes (language : Language Char) : Prop where
  parts : ∀ word ∈ (one NamePart)∗, word ∈ language
  digit : ∀ c word, Digit c → c :: word ∈ language → word ∈ (one NamePart)∗

theorem digits_tail (language : Language Char) (resumes : Resumes language) (c : Char)
    (word : Text) (digit : Digit c) (member : c :: word ∈ (one Digit)∗ * language) :
    word ∈ (one Digit)∗ * language := by
  obtain ⟨digits, many, rest, within, same⟩ := Language.mem_mul.mp member
  cases digits with
  | nil =>
      cases same
      exact Language.append_mem_mul (Language.nil_mem_kstar _)
        (resumes.parts word (resumes.digit c word digit within))
  | cons d digits =>
      cases same
      rw [mem_many] at many
      exact Language.append_mem_mul
        ((mem_many _ _).mpr fun e among => many e (List.mem_cons_of_mem _ among)) within

theorem digits_none (language : Language Char) (c : Char) (word : Text) (other : ¬ Digit c)
    (member : c :: word ∈ (one Digit)∗ * language) : c :: word ∈ language := by
  obtain ⟨digits, many, rest, within, same⟩ := Language.mem_mul.mp member
  cases digits with
  | nil =>
      cases same
      exact within
  | cons d digits =>
      cases same
      exact absurd ((mem_many _ _).mp many c List.mem_cons_self) other

theorem greedy_digits (language : Language Char) (reader : Text → Text)
    (greedy : Greedy language reader) (resumes : Resumes language) :
    Greedy ((one Digit)∗ * language) fun text =>
      (Lexeme.run Char.isDigit text).1 ++ reader (Lexeme.run Char.isDigit text).2 := by
  intro text
  induction text with
  | nil =>
      intro word _ taken
      rw [List.prefix_nil.mp taken]
      exact List.nil_prefix
  | cons c text ih =>
      intro word member taken
      cases word with
      | nil => exact List.nil_prefix
      | cons d word =>
          obtain ⟨rfl, later⟩ := List.cons_prefix_cons.mp taken
          dsimp only
          rw [Lexeme.run]
          by_cases digit : d.isDigit = true
          · rw [List.takeWhile_cons_of_pos digit, List.dropWhile_cons_of_pos digit]
            have rest := digits_tail language resumes d word ((isDigit_iff d).mp digit) member
            exact List.cons_prefix_cons.mpr ⟨rfl, ih word rest later⟩
          · rw [List.takeWhile_cons_of_neg digit, List.dropWhile_cons_of_neg digit]
            have other : ¬ Digit d := fun right => digit ((isDigit_iff d).mpr right)
            exact greedy _ _ (digits_none language d word other member) taken

theorem resumes_parts : Resumes (one NamePart)∗ where
  parts := fun _ many => many
  digit := fun c _ _ many => (mem_many _ _).mpr fun d member =>
    (mem_many _ _).mp many d (List.mem_cons_of_mem c member)

theorem greedy_parts : Greedy (one NamePart)∗ fun text =>
    (Lexeme.run CharClass.isNameContinue text).1 :=
  greedy_many _ _ isNameContinue_iff

def signed : Language Char := (1 + one Sign) * ((one Digit)∗ * (one NamePart)∗)

theorem parts_signed (word : Text) (parts : word ∈ (one NamePart)∗) : word ∈ signed :=
  Language.mem_mul.mpr ⟨[], Or.inl rfl, word,
    Language.mem_mul.mpr ⟨[], Language.nil_mem_kstar _, word, parts, rfl⟩, rfl⟩

theorem digits_parts (word : Text) (member : word ∈ (one Digit)∗ * (one NamePart)∗) :
    ∀ c ∈ word, NamePart c := by
  obtain ⟨digits, many, rest, parts, rfl⟩ := Language.mem_mul.mp member
  rw [mem_many] at many parts
  intro c among
  rcases List.mem_append.mp among with digit | part
  · exact namePart_of_digit c (many c digit)
  · exact parts c part

theorem sign_plain (text : Text) (plain : ∀ c ∈ text.head?, ¬ Sign c) :
    Lexeme.sign text = ([], text) := by
  rw [Lexeme.sign.eq_def]
  split
  · exact absurd (Or.inl rfl) (plain '+' rfl)
  · exact absurd (Or.inr rfl) (plain '-' rfl)
  · rfl

theorem sign_taken (c : Char) (text : Text) (sign : Sign c) :
    Lexeme.sign (c :: text) = ([c], text) := by
  rcases sign with rfl | rfl <;> rfl

def readSigned (text : Text) : Text :=
  (Lexeme.sign text).1 ++ ((Lexeme.run Char.isDigit (Lexeme.sign text).2).1 ++
    (Lexeme.run CharClass.isNameContinue
      (Lexeme.run Char.isDigit (Lexeme.sign text).2).2).1)

theorem greedy_signed : Greedy signed readSigned := by
  intro text word member taken
  have digits := greedy_digits _ _ greedy_parts resumes_parts
  obtain ⟨front, optional, rest, within, rfl⟩ := Language.mem_mul.mp member
  rcases (Language.mem_add _ _ _).mp optional with none | ⟨c, rfl, sign⟩
  · rw [(Language.mem_one front).mp none, List.nil_append] at taken ⊢
    cases rest with
    | nil => exact List.nil_prefix
    | cons d rest =>
        have plain : ∀ c ∈ text.head?, ¬ Sign c := by
          obtain ⟨more, rfl⟩ := taken
          intro c head sign
          cases head
          exact sign_not_namePart _ sign (digits_parts _ within _ List.mem_cons_self)
        rw [readSigned, sign_plain text plain]
        exact digits text _ within taken
  · obtain ⟨more, rfl⟩ := taken
    rw [show [c] ++ rest ++ more = c :: (rest ++ more) from rfl, readSigned, sign_taken c _ sign]
    exact (List.prefix_append_right_inj [c]).mpr
      (digits (rest ++ more) rest within (List.prefix_append rest more))

def readScaled (text : Text) : Text :=
  (Lexeme.exponent text).1 ++ (Lexeme.run CharClass.isNameContinue (Lexeme.exponent text).2).1

theorem mem_scaled (word : Text) :
    word ∈ exponents * (one NamePart)∗ ↔ word ∈ (one NamePart)∗ ∨
      ∃ c rest, word = c :: rest ∧ Marker c ∧ rest ∈ signed := by
  rw [exponents, add_mul, one_mul, mul_assoc, mul_assoc, Language.mem_add, mem_one_mul]
  rfl

theorem greedy_scaled : Greedy (exponents * (one NamePart)∗) readScaled := by
  intro text word member taken
  rw [mem_scaled] at member
  cases word with
  | nil => exact List.nil_prefix
  | cons c word =>
      obtain ⟨more, rfl⟩ := taken
      rw [List.cons_append, readScaled, Lexeme.exponent]
      by_cases marker : CharClass.isExponentMarker c = true
      · have rest : word ∈ signed := by
          rcases member with parts | ⟨_, _, same, _, within⟩
          · exact parts_signed word ((mem_many _ _).mpr fun d among =>
              (mem_many _ _).mp parts d (List.mem_cons_of_mem c among))
          · cases same
            exact within
        rw [if_pos marker]
        dsimp only
        rw [List.cons_append, List.cons_append, List.append_assoc]
        exact List.cons_prefix_cons.mpr
          ⟨rfl, greedy_signed _ word rest (List.prefix_append word more)⟩
      · rw [if_neg marker, List.nil_append]
        rcases member with parts | ⟨_, _, same, mark, _⟩
        · exact greedy_parts _ _ parts (List.prefix_append (c :: word) more)
        · cases same
          exact absurd ((isExponentMarker_iff c).mpr mark) marker

theorem resumes_scaled : Resumes (exponents * (one NamePart)∗) where
  parts := fun word parts => (mem_scaled word).mpr (Or.inl parts)
  digit := by
    intro c word digit member
    rcases (mem_scaled _).mp member with parts | ⟨_, _, same, marker, _⟩
    · exact resumes_parts.digit c word digit parts
    · cases same
      exact absurd digit (marker_not_digit c marker)

def readFraction (text : Text) : Text :=
  (Lexeme.fraction text).1 ++ readScaled (Lexeme.fraction text).2

theorem mem_fractional (word : Text) :
    word ∈ fractions * (exponents * (one NamePart)∗) ↔
      word ∈ exponents * (one NamePart)∗ ∨
        ∃ rest, word = '.' :: rest ∧ rest ∈ (one Digit)∗ * (exponents * (one NamePart)∗) := by
  rw [fractions, add_mul, one_mul, mul_assoc, Language.mem_add, mem_one_mul]
  constructor
  · rintro (scaled | ⟨_, rest, same, rfl, within⟩)
    · exact Or.inl scaled
    · exact Or.inr ⟨rest, same, within⟩
  · rintro (scaled | ⟨rest, same, within⟩)
    · exact Or.inl scaled
    · exact Or.inr ⟨'.', rest, same, rfl, within⟩

theorem fraction_plain (c : Char) (text : Text) (plain : c ≠ '.') :
    Lexeme.fraction (c :: text) = ([], c :: text) := by
  rw [Lexeme.fraction.eq_def]
  split
  · rename_i same
    cases same
    exact absurd rfl plain
  · rfl

theorem point_not_scaled (word : Text) : '.' :: word ∉ exponents * (one NamePart)∗ := by
  intro member
  rcases (mem_scaled _).mp member with parts | ⟨_, _, same, marker, _⟩
  · exact absurd ((mem_many _ _).mp parts '.' List.mem_cons_self) (by decide)
  · cases same
    exact absurd (marker_namePart _ marker) (by decide)

theorem greedy_fractional : Greedy (fractions * (exponents * (one NamePart)∗)) readFraction := by
  intro text word member taken
  rw [mem_fractional] at member
  cases word with
  | nil => exact List.nil_prefix
  | cons c word =>
      obtain ⟨more, rfl⟩ := taken
      by_cases point : c = '.'
      · subst point
        rcases member with scaled | ⟨_, same, within⟩
        · exact absurd scaled (point_not_scaled word)
        · cases same
          exact List.cons_prefix_cons.mpr ⟨rfl, greedy_digits _ _ greedy_scaled resumes_scaled _ _
            within (List.prefix_append word more)⟩
      · rw [List.cons_append, readFraction, fraction_plain c _ point]
        rcases member with scaled | ⟨_, same, _⟩
        · exact greedy_scaled _ _ scaled (List.prefix_append (c :: word) more)
        · cases same
          exact absurd rfl point

theorem resumes_fractional : Resumes (fractions * (exponents * (one NamePart)∗)) where
  parts := fun word parts => (mem_fractional word).mpr (Or.inl (resumes_scaled.parts word parts))
  digit := by
    intro c word digit member
    rcases (mem_fractional _).mp member with scaled | ⟨_, same, _⟩
    · exact resumes_scaled.digit c word digit scaled
    · cases same
      exact absurd digit (by decide)

theorem numbers_eq : numbers =
    one Digit * ((one Digit)∗ * (fractions * (exponents * (one NamePart)∗))) := by
  rw [numbers, mul_assoc, mul_assoc, mul_assoc]

theorem numbers_digits (word : Text) (member : word ∈ numbers) :
    word ∈ (one Digit)∗ * (fractions * (exponents * (one NamePart)∗)) := by
  rw [numbers_eq, mem_one_mul] at member
  obtain ⟨c, rest, rfl, digit, within⟩ := member
  obtain ⟨digits, many, later, follows, rfl⟩ := Language.mem_mul.mp within
  refine Language.mem_mul.mpr ⟨c :: digits, ?_, later, follows, rfl⟩
  rw [mem_many] at many ⊢
  exact List.forall_mem_cons.mpr ⟨digit, many⟩

theorem fraction_mem (text : Text) : (Lexeme.fraction text).1 ∈ fractions := by
  rw [fractions, Language.mem_add, mem_one_mul, Lexeme.fraction.eq_def]
  split
  · exact Or.inr ⟨'.', _, rfl, rfl, run_many _ _ isDigit_iff _⟩
  · exact Or.inl rfl

theorem sign_mem (text : Text) : (Lexeme.sign text).1 ∈ 1 + one Sign := by
  rw [Language.mem_add, Lexeme.sign.eq_def]
  split
  · exact Or.inr ⟨'+', rfl, Or.inl rfl⟩
  · exact Or.inr ⟨'-', rfl, Or.inr rfl⟩
  · exact Or.inl rfl

theorem exponent_mem (text : Text) : (Lexeme.exponent text).1 ∈ exponents := by
  rw [exponents, Language.mem_add, mul_assoc, mem_one_mul, Lexeme.exponent.eq_def]
  split
  · exact Or.inl rfl
  · rename_i c rest
    by_cases marker : CharClass.isExponentMarker c = true
    · rw [if_pos marker]
      exact Or.inr ⟨c, _, rfl, (isExponentMarker_iff c).mp marker,
        Language.append_mem_mul (sign_mem rest) (run_many _ _ isDigit_iff _)⟩
    · rw [if_neg marker]
      exact Or.inl rfl

theorem number_longest (c : Char) (rest : Text) (digit : Digit c) :
    Longest numbers (c :: rest) (Lexeme.number (c :: rest)).1 := by
  have digits : (Lexeme.run Char.isDigit (c :: rest)).1 ∈ one Digit * (one Digit)∗ := by
    rw [Lexeme.run, List.takeWhile_cons_of_pos ((isDigit_iff c).mpr digit), mem_one_mul]
    exact ⟨c, _, rfl, digit, run_many _ _ isDigit_iff rest⟩
  refine ⟨⟨_, Lexeme.number_append _⟩, ?_, ?_⟩
  · exact Language.append_mem_mul (Language.append_mem_mul
      (Language.append_mem_mul digits (fraction_mem _)) (exponent_mem _))
      (run_many _ _ isNameContinue_iff _)
  · intro other taken member
    have whole := greedy_digits _ _ greedy_fractional resumes_fractional _ _
      (numbers_digits other member) taken
    rw [Lexeme.number]
    simp only [readFraction, readScaled] at whole
    simpa only [List.append_assoc] using whole.length_le

theorem run_longest (test : Char → Bool) (begins holds : Char → Prop)
    (same : ∀ c, test c = true ↔ holds c) (c : Char) (rest : Text) (starts : begins c) :
    Longest (one begins * (one holds)∗) (c :: rest) (c :: (Lexeme.run test rest).1) := by
  refine ⟨List.cons_prefix_cons.mpr ⟨rfl, _, Lexeme.run_append test rest⟩, ?_, ?_⟩
  · exact (mem_one_mul _ _ _).mpr ⟨c, _, rfl, starts, run_many test holds same rest⟩
  · intro other taken member
    obtain ⟨d, word, rfl, _, many⟩ := (mem_one_mul _ _ _).mp member
    have run := greedy_many test holds same rest word many (List.cons_prefix_cons.mp taken).2
    exact Nat.succ_le_succ run.length_le

theorem Longest.unique {language : Language Char} {text first second : Text}
    (left : Longest language text first) (right : Longest language text second) :
    first = second :=
  (List.prefix_of_prefix_length_le left.taken right.taken
    (right.longest first left.taken left.within)).eq_of_length_le
    (left.longest second right.taken right.within)

theorem endsAt_iff (text : Text) : EndsAt text ↔ Text.atLineEnd text = true := by
  cases text with
  | nil =>
      constructor
      · rintro ⟨_, rfl | rfl, taken⟩ <;> simp at taken
      · intro ends
        cases ends
  | cons c rest =>
      rw [Text.atLineEnd_iff]
      constructor
      · rintro ⟨_, rfl | rfl, more, same⟩
        · cases same
          exact Or.inl rfl
        · cases same
          exact Or.inr ⟨rfl, rfl⟩
      · rintro (rfl | ⟨rfl, next⟩)
        · exact ⟨['\n'], Or.inl rfl, rest, rfl⟩
        · obtain ⟨more, rfl⟩ := List.head?_eq_some_iff.mp next
          exact ⟨['\r', '\n'], Or.inr rfl, more, rfl⟩

theorem line_here (text : Text) (ends : text = [] ∨ EndsAt text) : Line text [] where
  taken := List.nil_prefix
  stops := fun rest same => by
    rw [List.nil_append] at same
    exact same ▸ ends
  first := fun _ _ _ _ => Nat.zero_le _

theorem line_cons (c : Char) (rest line : Text) (inside : ¬ EndsAt (c :: rest))
    (later : Line rest line) : Line (c :: rest) (c :: line) where
  taken := List.cons_prefix_cons.mpr ⟨rfl, later.taken⟩
  stops := fun more same => later.stops more (List.cons.inj same).2
  first := by
    intro before more same ends
    cases before with
    | nil => exact absurd (same ▸ ends) inside
    | cons d before =>
        exact Nat.succ_le_succ (later.first before more (List.cons.inj same).2 ends)

theorem Line.length_le {text first second : Text} (left : Line text first)
    (right : Line text second) : first.length ≤ second.length := by
  obtain ⟨rest, same⟩ := right.taken
  rcases right.stops rest same.symm with rfl | ends
  · rw [List.append_nil] at same
    exact same ▸ left.taken.length_le
  · exact left.first second rest same.symm ends

theorem Line.unique {text first second : Text} (left : Line text first)
    (right : Line text second) : first = second :=
  (List.prefix_of_prefix_length_le left.taken right.taken
    (left.length_le right)).eq_of_length_le (right.length_le left)

theorem Line.unbroken {text line : Text} (single : Line text line) :
    ∀ ending ∈ lineEnds, ¬ ending <:+: line := by
  rintro ending member ⟨before, after, same⟩
  obtain ⟨rest, whole⟩ := single.taken
  have filled : 0 < ending.length := by rcases member with rfl | rfl <;> decide
  have shorter := single.first before (ending ++ (after ++ rest))
    (by rw [← whole, ← same]; simp only [List.append_assoc])
    ⟨ending, member, List.prefix_append ending _⟩
  rw [← same, List.length_append, List.length_append] at shorter
  omega

theorem unclosed_cons (quote c : Char) (before text : Text) :
    Unclosed quote before (c :: text) ↔
      (c = quote → Literal.endsInEscape before = true) ∧ Unclosed quote (before ++ [c]) text := by
  constructor
  · intro unclosed
    refine ⟨?_, ?_⟩
    · rintro rfl
      simpa using unclosed [] (List.cons_prefix_cons.mpr ⟨rfl, List.nil_prefix⟩)
    · intro part taken
      simpa using unclosed (c :: part) (List.cons_prefix_cons.mpr ⟨rfl, taken⟩)
  · rintro ⟨here, later⟩ part taken
    cases part with
    | nil => simpa using here (List.cons_prefix_cons.mp taken).1.symm
    | cons d part =>
        obtain ⟨rfl, rest⟩ := List.cons_prefix_cons.mp taken
        simpa using later part rest

structure Closes (quote : Char) (before line body : Text) : Prop where
  taken : body ++ [quote] <+: line
  closes : Literal.endsInEscape (before ++ body) = false
  first : Unclosed quote before body

-- The reader keeps a flag for the backslashes that it has just passed; the flag is right for all
-- the text before.
theorem literal_line (quote : Char) (before text : Text) :
    ∃ line, Line text line ∧
      ((∃ body, Closes quote before line body ∧
        (Lexeme.literal quote (Literal.endsInEscape before) text).1 = body ++ [quote]) ∨
      (Unclosed quote before line ∧
        (Lexeme.literal quote (Literal.endsInEscape before) text).1 = line)) := by
  induction text generalizing before with
  | nil =>
      refine ⟨[], line_here [] (Or.inl rfl), Or.inr ⟨?_, rfl⟩⟩
      intro part taken
      simp at taken
  | cons c rest ih =>
      rw [Lexeme.literal]
      by_cases ends : Text.atLineEnd (c :: rest) = true
      · rw [if_pos ends]
        refine ⟨[], line_here _ (Or.inr ((endsAt_iff _).mpr ends)), Or.inr ⟨?_, rfl⟩⟩
        intro part taken
        simp at taken
      · have inside : ¬ EndsAt (c :: rest) := fun right => ends ((endsAt_iff _).mp right)
        obtain ⟨line, single, found⟩ := ih (before ++ [c])
        refine ⟨c :: line, line_cons c rest line inside single, ?_⟩
        rw [if_neg ends]
        by_cases closes : (!Literal.endsInEscape before && c == quote) = true
        · rw [if_pos closes]
          rw [Bool.and_eq_true, Bool.not_eq_true', beq_iff_eq] at closes
          refine Or.inl ⟨[], ⟨?_, ?_, ?_⟩, by rw [closes.2]; rfl⟩
          · exact List.cons_prefix_cons.mpr ⟨closes.2.symm, List.nil_prefix⟩
          · rw [List.append_nil, closes.1]
          · intro part taken
            simp at taken
        · have escapes : c = quote → Literal.endsInEscape before = true := by
            rintro rfl
            simpa using closes
          rw [if_neg closes]
          dsimp only
          rw [← Literal.endsInEscape_concat]
          rcases found with ⟨body, closing, read⟩ | ⟨unclosed, read⟩
          · refine Or.inl ⟨c :: body, ⟨?_, ?_, ?_⟩, by rw [read]; rfl⟩
            · exact List.cons_prefix_cons.mpr ⟨rfl, closing.taken⟩
            · rw [← closing.closes, List.append_assoc]
              rfl
            · exact (unclosed_cons quote c before body).mpr ⟨escapes, closing.first⟩
          · exact Or.inr ⟨(unclosed_cons quote c before line).mpr ⟨escapes, unclosed⟩,
              by rw [read]⟩

theorem literal_quoted (c : Char) (rest : Text) (quote : Quote c) :
    Quoted (c :: rest) (c :: (Lexeme.literal c false rest).1) := by
  obtain ⟨line, single, ⟨body, closing, read⟩ | ⟨unclosed, read⟩⟩ := literal_line c [] rest
  · rw [show Literal.endsInEscape [] = false from rfl] at read
    rw [read]
    exact .closed c rest line body quote rfl single closing.taken closing.closes closing.first
  · rw [show Literal.endsInEscape [] = false from rfl] at read
    rw [read]
    exact .unclosed c rest line quote rfl single unclosed

-- Two prefixes that each end in a quote: the quote of the shorter one lies in the longer one.
theorem closes_unique (quote : Char) (line first second : Text)
    (left : first ++ [quote] <+: line) (right : second ++ [quote] <+: line)
    (leftCloses : Literal.endsInEscape first = false) (rightFirst : Unclosed quote [] second) :
    second.length ≤ first.length := by
  by_contra longer
  have inside : first ++ [quote] <+: second := by
    apply List.prefix_of_prefix_length_le left ((List.prefix_append second [quote]).trans right)
    rw [List.length_append, List.length_singleton]
    omega
  have escapes := rightFirst first inside
  rw [List.nil_append, leftCloses] at escapes
  cases escapes

theorem Quoted.unique {text first second : Text} (left : Quoted text first)
    (right : Quoted text second) : first = second := by
  cases left with
  | closed quote rest line body quotes starts single taken closes first =>
      subst starts
      cases right with
      | closed other rest' line' body' quotes' starts' single' taken' closes' first' =>
          cases starts'
          cases single.unique single'
          have before : body <+: line := (List.prefix_append body _).trans taken
          have before' : body' <+: line := (List.prefix_append body' _).trans taken'
          have shorter := closes_unique quote line body' body taken' taken closes' first
          have longer := closes_unique quote line body body' taken taken' closes first'
          rw [(List.prefix_of_prefix_length_le before before' shorter).eq_of_length_le longer]
      | unclosed other rest' line' quotes' starts' single' runsOn =>
          cases starts'
          cases single.unique single'
          have escapes := runsOn body taken
          rw [List.nil_append, closes] at escapes
          cases escapes
  | unclosed quote rest line quotes starts single runsOn =>
      subst starts
      cases right with
      | closed other rest' line' body' quotes' starts' single' taken' closes' first' =>
          cases starts'
          cases single.unique single'
          have escapes := runsOn body' taken'
          rw [List.nil_append, closes'] at escapes
          cases escapes
      | unclosed other rest' line' quotes' starts' single' runsOn' =>
          cases starts'
          rw [single.unique single']

theorem Quoted.starts {c : Char} {rest word : Text} (quoted : Quoted (c :: rest) word) :
    Quote c := by
  cases quoted with
  | closed quote _ _ _ quotes starts =>
      cases starts
      exact quotes
  | unclosed quote _ _ quotes starts =>
      cases starts
      exact quotes

theorem quote_not_endsAt (c : Char) (rest : Text) (quote : Quote c) : ¬ EndsAt (c :: rest) := by
  rw [endsAt_iff, Text.atLineEnd_iff]
  rcases quote with rfl | rfl <;> simp

theorem Quoted.line {text word : Text} (quoted : Quoted text word) :
    ∃ line, Line text line ∧ word <+: line := by
  cases quoted with
  | closed quote rest line body quotes starts single taken =>
      subst starts
      exact ⟨quote :: line, line_cons quote rest line (quote_not_endsAt quote rest quotes) single,
        List.cons_prefix_cons.mpr ⟨rfl, taken⟩⟩
  | unclosed quote rest line quotes starts single =>
      subst starts
      exact ⟨quote :: line, line_cons quote rest line (quote_not_endsAt quote rest quotes) single,
        List.prefix_refl _⟩

section

variable (c : Char) (rest : Text)

theorem first_quote (quote : Quote c) :
    (Lexeme.first c rest).1 = ⟨.string, c :: (Lexeme.literal c false rest).1⟩ := by
  rw [Lexeme.first.eq_def, if_pos ((isQuote_iff c).mpr quote)]

theorem first_name (name : NameStart c) :
    (Lexeme.first c rest).1 = ⟨.name, c :: (Lexeme.run CharClass.isNameContinue rest).1⟩ := by
  have quote : ¬ CharClass.isQuote c = true := by
    rw [isQuote_iff]
    rintro (rfl | rfl)
    · exact absurd name (by decide)
    · exact absurd name (by decide)
  rw [Lexeme.first.eq_def, if_neg quote, if_pos ((isNameStart_iff c).mpr name)]

theorem first_number (digit : Digit c) :
    (Lexeme.first c rest).1 = ⟨.number, (Lexeme.number (c :: rest)).1⟩ := by
  have quote : ¬ CharClass.isQuote c = true := by
    rw [isQuote_iff]
    rintro (rfl | rfl)
    · exact absurd digit (by decide)
    · exact absurd digit (by decide)
  have name : ¬ CharClass.isNameStart c = true := by
    rw [isNameStart_iff]
    exact digit_not_nameStart c digit
  rw [Lexeme.first.eq_def, if_neg quote, if_neg name, if_pos ((isDigit_iff c).mpr digit)]

theorem first_blank (blank : Blank c) :
    (Lexeme.first c rest).1 = ⟨.spaceTab, c :: (Lexeme.run CharClass.isSpaceTab rest).1⟩ := by
  rcases blank with rfl | rfl <;> rfl

end

theorem starts_of_mem (holds : Char → Prop) (language : Language Char) (c : Char)
    (rest word : Text) (taken : word <+: c :: rest) (member : word ∈ one holds * language) :
    holds c := by
  obtain ⟨d, more, rfl, right, _⟩ := (mem_one_mul _ _ _).mp member
  rwa [← (List.cons_prefix_cons.mp taken).1]

theorem first_munches (c : Char) (rest : Text) :
    Munches (c :: rest) (Lexeme.first c rest).1.kind (Lexeme.first c rest).1.text := by
  by_cases quote : Quote c
  · rw [first_quote c rest quote]
    exact .string _ (literal_quoted c rest quote)
  by_cases name : NameStart c
  · rw [first_name c rest name]
    exact .name _ (run_longest _ _ _ isNameContinue_iff c rest name)
  by_cases digit : Digit c
  · rw [first_number c rest digit]
    exact .number _ (number_longest c rest digit)
  by_cases blank : Blank c
  · rw [first_blank c rest blank]
    exact .spaceTab _ (run_longest _ _ _ isSpaceTab_iff c rest blank)
  rw [Lexeme.first.eq_def, if_neg ((isQuote_iff c).not.mpr quote),
    if_neg ((isNameStart_iff c).not.mpr name), if_neg ((isDigit_iff c).not.mpr digit),
    if_neg ((isSpaceTab_iff c).not.mpr blank)]
  split
  · exact .newline _ (List.prefix_append ['\n'] rest) (Or.inl rfl)
  · rename_i more
    exact .newline _ (List.prefix_append ['\r', '\n'] more) (Or.inr rfl)
  · rename_i noFeed noReturn
    refine .other c rest rfl ?_ fun word quoted => quote quoted.starts
    rintro word taken (((names | numbers) | blanks) | ends)
    · exact name (starts_of_mem _ _ c rest word taken names)
    · exact digit (starts_of_mem _ _ c rest word taken (numbers_eq ▸ numbers))
    · exact blank (starts_of_mem _ _ c rest word taken blanks)
    · rcases (Text.atLineEnd_iff c rest).mp ((endsAt_iff _).mp ⟨word, ends, taken⟩) with
        feed | ⟨carriage, next⟩
      · exact noFeed feed
      · obtain ⟨more, rfl⟩ := List.head?_eq_some_iff.mp next
        exact noReturn more carriage rfl

theorem munches_first (c : Char) (rest : Text) (kind : Kind) (word : Text)
    (munches : Munches (c :: rest) kind word) : (Lexeme.first c rest).1 = ⟨kind, word⟩ := by
  cases munches with
  | name word longest =>
      have name : NameStart c := starts_of_mem _ _ c rest _ longest.taken longest.within
      rw [first_name c rest name,
        longest.unique (run_longest _ _ _ isNameContinue_iff c rest name)]
  | number word longest =>
      have digit : Digit c :=
        starts_of_mem _ _ c rest _ longest.taken (numbers_eq ▸ longest.within)
      rw [first_number c rest digit, longest.unique (number_longest c rest digit)]
  | spaceTab word longest =>
      have blank : Blank c := starts_of_mem _ _ c rest _ longest.taken longest.within
      rw [first_blank c rest blank,
        longest.unique (run_longest _ _ _ isSpaceTab_iff c rest blank)]
  | newline word taken ends =>
      obtain ⟨more, same⟩ := taken
      rcases ends with rfl | rfl
      · cases same
        rfl
      · cases same
        rfl
  | string word quoted =>
      rw [first_quote c rest quoted.starts, quoted.unique (literal_quoted c rest quoted.starts)]
  | other d more starts none unquoted =>
      cases starts
      have sound := first_munches c rest
      generalize (Lexeme.first c rest).1 = lexeme at sound
      obtain ⟨kind, word⟩ := lexeme
      cases sound with
      | name _ longest =>
          exact absurd (Or.inl (Or.inl (Or.inl longest.within))) (none _ longest.taken)
      | number _ longest =>
          exact absurd (Or.inl (Or.inl (Or.inr longest.within))) (none _ longest.taken)
      | spaceTab _ longest => exact absurd (Or.inl (Or.inr longest.within)) (none _ longest.taken)
      | newline _ taken ends => exact absurd (Or.inr ends) (none _ taken)
      | string _ quoted => exact absurd quoted (unquoted _)
      | other d more starts =>
          cases starts
          rfl

end Grammar

theorem Token.place_starts (source : Source) (before rest : Text) :
    ∀ token ∈ place source before.byteLength (Lexeme.scan rest), ∃ c more,
      Text.dropBytes? token.span.start (before ++ rest) = some (c :: more) ∧
        (Lexeme.first c more).1 = ⟨token.kind, token.text⟩ := by
  fun_induction Lexeme.scan rest generalizing before with
  | case1 =>
      intro token member
      cases member
  | case2 c rest ih =>
      intro token member
      rcases List.mem_cons.mp member with rfl | later
      · exact ⟨c, rest, Text.dropBytes_append before (c :: rest), rfl⟩
      · have found := ih (before ++ (Lexeme.first c rest).1.text) token
          (by rw [Text.byteLength_append]; exact later)
        rwa [List.append_assoc, Lexeme.first_append] at found

namespace Lexed

theorem tokens_munch (serial : Nat) (name content : Text) (token : Token)
    (member : token ∈ (ofText serial name content).tokens) :
    ∃ rest, (ofText serial name content).source.normalized.dropBytes? token.span.start = some rest ∧
      Grammar.Munches rest token.kind token.text ∧
      (∀ kind word, Grammar.Munches rest kind word → kind = token.kind ∧ word = token.text) ∧
      token.kind ≠ .nothing ∧
      (token.kind = .string → ∀ ending ∈ Grammar.lineEnds, ¬ ending <:+: token.text) := by
  obtain ⟨c, more, found, read⟩ := Token.place_starts _ [] _ token member
  have munches := Grammar.first_munches c more
  rw [read] at munches
  refine ⟨c :: more, found, munches, ?_, ?_, ?_⟩
  · intro kind word other
    have same := read.symm.trans (Grammar.munches_first c more kind word other)
    exact ⟨congrArg Lexeme.kind same.symm, congrArg Lexeme.text same.symm⟩
  · intro nothing
    rw [nothing] at munches
    cases munches
  · intro string
    rw [string] at munches
    cases munches with
    | string _ quoted =>
        obtain ⟨line, single, taken⟩ := quoted.line
        exact fun ending ends inside => single.unbroken ending ends (inside.trans taken.isInfix)

theorem tokens_munch_sample :
    let lexed := ofText 0 "a.c".toList "1.e+5x.2 'a\\'b\nc".toList
    (∃ token ∈ lexed.tokens, token.kind = .number ∧ token.text = "1.e+5x".toList ∧
      Grammar.Longest Grammar.numbers "1.e+5x.2 'a\\'b\nc".toList "1.e+5x".toList) ∧
    ∃ token ∈ lexed.tokens, token.kind = .string ∧ token.text = "'a\\'b".toList ∧
      Grammar.Quoted "'a\\'b\nc".toList "'a\\'b".toList := by
  intro lexed
  have number : ∃ token ∈ lexed.tokens, token.kind = .number ∧ token.text = "1.e+5x".toList ∧
      lexed.source.normalized.dropBytes? token.span.start =
        some "1.e+5x.2 'a\\'b\nc".toList := by
    decide +kernel
  have string : ∃ token ∈ lexed.tokens, token.kind = .string ∧ token.text = "'a\\'b".toList ∧
      lexed.source.normalized.dropBytes? token.span.start = some "'a\\'b\nc".toList := by
    decide +kernel
  obtain ⟨first, firstMember, firstKind, firstText, firstRest⟩ := number
  obtain ⟨second, secondMember, secondKind, secondText, secondRest⟩ := string
  obtain ⟨_, firstFound, firstMunches, _⟩ := tokens_munch 0 _ _ first firstMember
  obtain ⟨_, secondFound, secondMunches, _⟩ := tokens_munch 0 _ _ second secondMember
  cases firstRest.symm.trans firstFound
  cases secondRest.symm.trans secondFound
  rw [firstKind, firstText] at firstMunches
  rw [secondKind, secondText] at secondMunches
  refine ⟨⟨first, firstMember, firstKind, firstText, ?_⟩,
    ⟨second, secondMember, secondKind, secondText, ?_⟩⟩
  · cases firstMunches
    assumption
  · cases secondMunches
    assumption

end Lexed

end CPreprocessor
