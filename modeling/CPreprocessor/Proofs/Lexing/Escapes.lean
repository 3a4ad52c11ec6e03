import CPreprocessor.Literal
import CPreprocessor.Proofs.Lexing.Relexing
import CPreprocessor.Proofs.Text.Utf8

/-!
Writing a text as a literal. The normalizer, the scanner, the test for a closing quote and the
decoder each keep their own account of backslashes; on a literal that was written from a text they
agree, and the text is read back from it.
-/

set_option autoImplicit false

namespace CPreprocessor

namespace Literal

theorem endsInEscape_concat (text : Text) (c : Char) :
    endsInEscape (text ++ [c]) = (!endsInEscape text && c == '\\') := by
  rw [endsInEscape, endsInEscape, List.reverse_append, List.reverse_singleton,
    List.singleton_append]
  by_cases backslash : c = '\\'
  · have parity : ∀ n : Nat, ((n + 1) % 2 == 1) = !(n % 2 == 1) := by
      intro n
      rcases Nat.mod_two_eq_zero_or_one n with even | odd
      · simp [Nat.add_mod, even]
      · simp [Nat.add_mod, odd]
    simp [backslash, parity]
  · simp [backslash]

def escapeChar (c : Char) : Text :=
  match c with
  | '\\' => ['\\', '\\']
  | '"' => ['\\', '"']
  | '\n' => ['\\', 'n']
  | '\r' => ['\\', 'r']
  | _ => [c]

def escape (text : Text) : Text := text.flatMap escapeChar

def write (text : Text) : Text := '"' :: (escape text ++ ['"'])

structure Plain (c : Char) : Prop where
  noBackslash : c ≠ '\\'
  noQuote : c ≠ '"'
  noFeed : c ≠ '\n'
  noReturn : c ≠ '\r'

structure Mark (mark c : Char) : Prop where
  noFeed : mark ≠ '\n'
  noReturn : mark ≠ '\r'
  denotes : Reading.escape.step mark = (String.utf8EncodeChar c, .plain)

theorem escapeChar_cases (c : Char) :
    (escapeChar c = [c] ∧ Plain c) ∨ ∃ mark, escapeChar c = ['\\', mark] ∧ Mark mark c := by
  rw [escapeChar.eq_def]
  split
  · exact Or.inr ⟨_, rfl, by decide, by decide, by decide⟩
  · exact Or.inr ⟨_, rfl, by decide, by decide, by decide⟩
  · exact Or.inr ⟨_, rfl, by decide, by decide, by decide⟩
  · exact Or.inr ⟨_, rfl, by decide, by decide, by decide⟩
  · rename_i noBackslash noQuote noFeed noReturn
    exact Or.inl ⟨rfl, noBackslash, noQuote, noFeed, noReturn⟩

@[simp] theorem escape_cons (c : Char) (text : Text) : escape (c :: text) = escapeChar c ++ escape text :=
  List.flatMap_cons

theorem feed_not_mem_escape (text : Text) : '\n' ∉ escape text := by
  intro member
  obtain ⟨c, _, within⟩ := List.mem_flatMap.mp member
  rcases escapeChar_cases c with ⟨same, plain⟩ | ⟨mark, same, marks⟩
  · rw [same, List.mem_singleton] at within
    exact plain.noFeed within.symm
  · rw [same] at within
    simp [marks.noFeed.symm] at within

theorem endsInEscape_escape (before text : Text) (closed : endsInEscape before = false) :
    endsInEscape (before ++ escape text) = false := by
  induction text generalizing before with
  | nil => rwa [escape, List.flatMap_nil, List.append_nil]
  | cons c text ih =>
      rw [escape_cons, ← List.append_assoc]
      apply ih
      rcases escapeChar_cases c with ⟨same, plain⟩ | ⟨mark, same, _⟩
      · simp [same, endsInEscape_concat, plain.noBackslash]
      · rw [same, show before ++ ['\\', mark] = before ++ ['\\'] ++ [mark] by simp,
          endsInEscape_concat, endsInEscape_concat, closed]
        rfl

@[simp] theorem stripQuotes_write (text : Text) : stripQuotes (write text) = escape text := by
  have quotes : CharClass.isQuote '"' = true := rfl
  have closed := endsInEscape_escape [] text rfl
  rw [List.nil_append] at closed
  rw [write, stripQuotes, if_pos quotes, stripClosing, List.getLast?_concat, List.dropLast_concat,
    closed, if_pos ⟨rfl, rfl⟩]

@[simp] theorem decodeBody_escape (text : Text) : decodeBody .plain (escape text) = Utf8.encode text := by
  induction text with
  | nil => rfl
  | cons c text ih =>
      rw [escape_cons, Utf8.encode, List.flatMap_cons, ← Utf8.encode, ← ih]
      rcases escapeChar_cases c with ⟨same, plain⟩ | ⟨mark, same, marks⟩
      · rw [same, List.singleton_append, decodeBody, Reading.step, plainStep,
          if_neg plain.noBackslash]
      · rw [same, List.cons_append, List.singleton_append, decodeBody, Reading.step, plainStep,
          if_pos rfl, List.nil_append, decodeBody, marks.denotes]

theorem text_write (text : Text) : Literal.text (write text) = text := by
  rw [Literal.text, bytes, stripQuotes_write, decodeBody_escape, Utf8.decodeLossy_encode]

end Literal

namespace Lexeme

theorem literal_goesOn (quote : Char) (escaped : Bool) (c : Char) (rest : Text)
    (noFeed : c ≠ '\n') (noReturn : c ≠ '\r') (stays : escaped = true ∨ c ≠ quote) :
    literal quote escaped (c :: rest) =
      (c :: (literal quote (!escaped && c == '\\') rest).1,
        (literal quote (!escaped && c == '\\') rest).2) := by
  have inside : ¬ Text.atLineEnd (c :: rest) = true := by
    rw [Text.atLineEnd_iff]
    simp [noFeed, noReturn]
  rw [literal, if_neg inside, if_neg (by rcases stays with escapes | other <;> simp [*])]

theorem literal_escape (text rest : Text) :
    literal '"' false (Literal.escape text ++ '"' :: rest) =
      (Literal.escape text ++ ['"'], rest) := by
  induction text with
  | nil => rfl
  | cons c text ih =>
      rw [Literal.escape_cons]
      rcases Literal.escapeChar_cases c with ⟨same, plain⟩ | ⟨mark, same, marks⟩
      · rw [same, List.append_assoc, List.singleton_append,
          literal_goesOn '"' false c _ plain.noFeed plain.noReturn (Or.inr plain.noQuote),
          beq_false_of_ne plain.noBackslash, Bool.and_false, ih]
        rfl
      · have opened : ∀ more, literal '"' false ('\\' :: more) =
            ('\\' :: (literal '"' true more).1, (literal '"' true more).2) := fun more =>
          literal_goesOn '"' false '\\' more (by decide) (by decide) (Or.inr (by decide))
        rw [same, List.append_assoc, List.cons_append, List.singleton_append, opened,
          literal_goesOn '"' true mark _ marks.noFeed marks.noReturn (Or.inl rfl), Bool.not_true,
          Bool.false_and, ih]
        rfl

end Lexeme

def Piece.copies (offset : Nat) : Text → List Piece
  | [] => []
  | c :: rest => .copied c offset :: copies (offset + c.utf8Size) rest

theorem Piece.copies_char (offset : Nat) (text : Text) :
    (copies offset text).map Piece.char = text := by
  induction text generalizing offset with
  | nil => rfl
  | cons c rest ih => exact congrArg (c :: ·) (ih _)

theorem Piece.copies_hull (start offset : Nat) (text : Text) :
    (Span.mk start offset).hull ((copies offset text).map Piece.origin) =
      ⟨start, offset + text.byteLength⟩ := by
  induction text generalizing offset with
  | nil => rfl
  | cons c rest ih =>
      rw [copies, List.map_cons, Span.hull, Text.byteLength_cons, ← Nat.add_assoc]
      exact ih _

namespace Text

theorem startsSplice_line (text : Text) (line : '\n' ∉ text) : startsSplice text = false := by
  by_contra starts
  obtain ⟨splice, rest, single, rfl⟩ := splice_of_starts text (by simpa using starts)
  cases single <;> simp at line

theorem atLineEnd_line (text : Text) (line : '\n' ∉ text) : atLineEnd text = false := by
  cases text with
  | nil => rfl
  | cons c rest =>
      by_contra ends
      rcases (atLineEnd_iff c rest).mp (by simpa using ends) with rfl | ⟨_, next⟩
      · exact line List.mem_cons_self
      · exact line (List.mem_cons_of_mem c (List.mem_of_head? next))

end Text

namespace Normalized

-- On one line the normalizer leaves what the scanner takes for a literal as it is.
theorem literal_copies (quote : Char) (escaped : Bool) (offset : Nat) (text : Text)
    (line : '\n' ∉ text) (taken : Lexeme.literal quote escaped text = (text, [])) :
    scan (.literal quote escaped) offset text = ⟨Piece.copies offset text, none⟩ := by
  induction text generalizing escaped offset with
  | nil => rfl
  | cons c rest ih =>
      have inside := Text.atLineEnd_line _ line
      rw [scan_char _ offset c rest (Text.startsSplice_line _ line), inside]
      rw [Lexeme.literal, inside, if_neg (by simp)] at taken
      by_cases closes : (!escaped && c == quote) = true
      · rw [if_pos closes] at taken
        obtain rfl : rest = [] := congrArg Prod.snd taken
        rw [literal_closes quote escaped false offset c closes]
        rfl
      · rw [if_neg closes] at taken
        rw [Prod.mk.injEq, List.cons.injEq] at taken
        have tail : Lexeme.literal quote (!escaped && c == '\\') rest = (rest, []) :=
          Prod.ext taken.1.2 taken.2
        rw [literal_goesOn quote escaped offset c closes,
          ih _ _ (fun member => line (List.mem_cons_of_mem c member)) tail]
        rfl

end Normalized

theorem Literal.write_alone (text : Text) :
    Lexeme.Alone ⟨.string, write text⟩ (write text) 0 (.copied '"' 0)
      (Piece.copies 1 (escape text ++ ['"'])) := by
  have quotes : CharClass.isQuote '"' = true := rfl
  have taken := Lexeme.literal_escape text []
  have line : '\n' ∉ escape text ++ ['"'] := by simp [feed_not_mem_escape]
  refine ⟨?_, congrArg ('"' :: ·) (Piece.copies_char _ _), ?_, ?_⟩
  · rw [write, Normalized.scan_copies 0 '"' _ rfl (by decide) _ (List.prefix_refl _), if_pos quotes,
      Normalized.literal_copies '"' false _ _ line taken]
    rfl
  · rw [write, Text.byteLength_cons, ← Nat.add_assoc]
    exact Piece.copies_hull 0 1 _
  · have first : Lexeme.first '"' (escape text ++ ['"']) = (⟨.string, write text⟩, []) := by
      rw [Lexeme.first.eq_def, if_pos quotes, taken]
      rfl
    show Lexeme.scan (write text) = _
    rw [write, Lexeme.scan, first, Lexeme.scan]
    rfl

theorem Lexed.write_reads_back (serial : Nat) (name text : Text) :
    let lexed := ofText serial name (Literal.write text)
    lexed.openComment = none ∧
      ∃ token, lexed.tokens = [token] ∧ token.kind = .string ∧ token.text = Literal.write text ∧
        Literal.text token.text = text := by
  obtain ⟨closed, token, tokens, kind, same, _⟩ :=
    ofText_alone serial name (Literal.write text) _ _ _ (Literal.write_alone text)
  exact ⟨closed, token, tokens, kind, same, by rw [same, Literal.text_write]⟩

end CPreprocessor
