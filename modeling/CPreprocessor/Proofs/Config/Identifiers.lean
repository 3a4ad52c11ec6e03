import CPreprocessor.Proofs.Engine.Defining
import CPreprocessor.Proofs.Text.Cursor

/-!
Names that can be defined. The test for identifiers looks at one byte after the other and never
lexes; it accepts a name if and only if the lexer reads the name as one token that is spelled like
it. So a definition is either refused or found under the name it was given.
-/

set_option autoImplicit false

namespace CPreprocessor

def isIdentifierBytes : List UInt8 → Bool
  | [] => false
  | byte :: bytes => CharClass.isNameStart (Utf8.asChar byte) &&
      bytes.all (CharClass.isNameContinue ∘ Utf8.asChar)

theorem Utf8.all_encode (holds : Char → Bool) (narrow : Narrow holds) (text : Text) :
    (encode text).all (holds ∘ asChar) = text.all holds := by
  induction text with
  | nil => rfl
  | cons c text ih =>
      obtain ⟨byte, more, same, first, alone⟩ := encodeChar_first holds narrow c
      rw [encode_cons, same, List.all_append, List.all_cons, ih, List.all_cons,
        Function.comp_apply, first]
      cases is : holds c with
      | true =>
          rw [alone is]
          rfl
      | false => rfl

-- No byte of a wider character passes, so bytes do for characters.
theorem isIdentifierBytes_encode (name : Text) :
    isIdentifierBytes (Utf8.encode name) = isIdentifier name := by
  cases name with
  | nil => rfl
  | cons c rest =>
      obtain ⟨byte, more, same, first, alone⟩ :=
        Utf8.encodeChar_first _ Utf8.narrow_nameStart c
      rw [Utf8.encode_cons, same, List.cons_append, isIdentifierBytes, first, isIdentifier]
      cases starts : CharClass.isNameStart c with
      | true =>
          rw [alone starts, List.nil_append, Utf8.all_encode _ Utf8.narrow_nameContinue]
      | false => rfl

theorem mem_names (word : Text) : word ∈ Grammar.names ↔ isIdentifier word = true := by
  rw [Grammar.names, Grammar.mem_one_mul]
  simp only [Grammar.mem_many, ← Grammar.isNameStart_iff, ← Grammar.isNameContinue_iff]
  constructor
  · rintro ⟨c, rest, rfl, starts, continues⟩
    exact Bool.and_eq_true_iff.mpr ⟨starts, List.all_eq_true.mpr continues⟩
  · intro ident
    cases word with
    | nil => cases ident
    | cons c rest =>
        obtain ⟨starts, continues⟩ := Bool.and_eq_true_iff.mp ident
        exact ⟨c, rest, rfl, starts, List.all_eq_true.mp continues⟩

namespace Lexed

variable (serial : Nat) (file content : Text)

theorem identifier_of_name (token : Token) (member : token ∈ (ofText serial file content).tokens)
    (named : token.kind = .name) : isIdentifier token.text = true := by
  obtain ⟨c, rest, _, read⟩ := Token.place_starts _ [] _ token member
  have munches := Grammar.first_munches c rest
  rw [read, named] at munches
  cases munches with
  | name _ longest => exact (mem_names _).mp longest.within

theorem isIdentifier_iff_lexed (name : Text) :
    isIdentifier name = true ↔ ∃ token, (ofText serial file name).tokens = [token] ∧
      token.kind = .name ∧ token.text = name := by
  constructor
  · intro ident
    obtain ⟨token, tokens, read⟩ := ofText_identifier serial file name ident
    exact ⟨token, tokens, congrArg Lexeme.kind read, congrArg Lexeme.text read⟩
  · rintro ⟨token, tokens, named, text⟩
    have member : token ∈ (ofText serial file name).tokens := by
      rw [tokens]
      exact List.mem_singleton_self token
    -- The kind alone is not enough: a name with a splice in it is one name token too.
    rw [← text]
    exact identifier_of_name serial file name token member named

end Lexed

@[simp] theorem MacroTable.erase_define (table : MacroTable) (definition : Macro) :
    (table.define definition).erase definition.key = table.erase definition.key := by
  simp [define, erase]

namespace Session

theorem identifier_test_agrees (session : Session) (name body : Text) :
    isIdentifierBytes (Utf8.encode name) = isIdentifier name ∧
    (∀ serial file, isIdentifier name = true ↔
      ∃ token, (Lexed.ofText serial file name).tokens = [token] ∧
        token.kind = .name ∧ token.text = name) ∧
    (isIdentifier name = false →
      session.define name body = (session, some (.invalidMacroName name))) ∧
    (isIdentifier name = true → ∃ token table,
      (session.nameText name).tokens = [token] ∧
      session.define name body =
        ({ session with state := { session.state with
          macros := table, lexings := session.state.lexings + 2 } }, none) ∧
      table.lookup name = some ⟨token, none, Token.trim (session.bodyText body).tokens⟩ ∧
      table.erase name = session.state.macros.erase name ∧
      ∀ other, other ≠ name → table.lookup other = session.state.macros.lookup other) := by
  refine ⟨isIdentifierBytes_encode name, fun serial file =>
    Lexed.isIdentifier_iff_lexed serial file name, define_refused session name body, ?_⟩
  intro ident
  obtain ⟨token, tokens, read⟩ := Lexed.ofText_identifier
    (session.environment.numbering.serial session.state.lexings) predefinedFile name ident
  let definition : Macro := ⟨token, none, Token.trim (session.bodyText body).tokens⟩
  have key : definition.key = name := congrArg Lexeme.text read
  refine ⟨token, session.state.macros.define definition, tokens,
    define_token session name body token ident tokens, ?_, ?_, ?_⟩
  · exact (MacroTable.lookup_define _ _ _).trans (if_pos key)
  · rw [← key]
    exact MacroTable.erase_define _ _
  · intro other differs
    rw [MacroTable.lookup_define, key]
    exact if_neg differs.symm

theorem identifier_test_agrees_sample :
    let environment : Environment := ⟨.default, MemoryFiles.empty.loader, .fromOne⟩
    let session := ((start environment).define "A".toList "1".toList).1
    (lex [] "a\\\nb".toList).tokens.map Token.lexeme = [⟨.name, "ab".toList⟩] ∧
    isIdentifier "a\\\nb".toList = false ∧
    session.define "a\\\nb".toList [] = (session, some (.invalidMacroName "a\\\nb".toList)) ∧
    isIdentifier "_b1".toList = true ∧
    ∃ token table, (session.nameText "_b1".toList).tokens = [token] ∧
      session.define "_b1".toList " (2) ".toList =
        ({ session with state := { session.state with
          macros := table, lexings := session.state.lexings + 2 } }, none) ∧
      table.lookup "_b1".toList =
        some ⟨token, none, Token.trim (session.bodyText " (2) ".toList).tokens⟩ ∧
      "A".toList ≠ "_b1".toList ∧
      table.lookup "A".toList = session.state.macros.lookup "A".toList := by
  intro environment session
  have refused : isIdentifier "a\\\nb".toList = false := by decide
  have ident : isIdentifier "_b1".toList = true := by decide
  have apart : "A".toList ≠ "_b1".toList := by decide
  have spliced : (lex [] "a\\\nb".toList).tokens.map Token.lexeme = [⟨.name, "ab".toList⟩] := by
    decide +kernel
  obtain ⟨_, _, refuses, _⟩ := identifier_test_agrees session "a\\\nb".toList []
  obtain ⟨_, _, _, installs⟩ := identifier_test_agrees session "_b1".toList " (2) ".toList
  obtain ⟨token, table, found, defined, own, _, others⟩ := installs ident
  exact ⟨spliced, refused, refuses refused, ident, token, table, found, defined, own, apart,
    others _ apart⟩

end Session

end CPreprocessor
