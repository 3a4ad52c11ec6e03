import CPreprocessor.Proofs.Engine.Blocks
import CPreprocessor.Proofs.Engine.Restoration
import CPreprocessor.Proofs.Lexing.Joining
import CPreprocessor.Proofs.Macro.Agreement

/-!
Two ways to define a macro. A session takes a name and a body, each lexed on its own; a `#define`
line is lexed as a whole and then taken apart again. Both leave the same definitions.
-/

set_option autoImplicit false

namespace CPreprocessor

def Text.Inert (text : Text) : Prop :=
  ∀ c ∈ text, c ≠ '\\' ∧ c ≠ '/' ∧ CharClass.isQuote c = false

theorem isNameContinue_of_identifier (name : Text) (ident : isIdentifier name = true) :
    ∀ c ∈ name, CharClass.isNameContinue c = true := by
  cases name with
  | nil => cases ident
  | cons c name =>
      obtain ⟨starts, continues⟩ := Bool.and_eq_true_iff.mp ident
      intro d member
      rcases List.mem_cons.mp member with rfl | later
      · exact (Grammar.isNameContinue_iff d).mpr (Or.inl ((Grammar.isNameStart_iff d).mp starts))
      · exact List.all_eq_true.mp continues d later

theorem Text.inert_identifier (name : Text) (ident : isIdentifier name = true) : Inert name := by
  intro c member
  have part := isNameContinue_of_identifier name ident c member
  refine ⟨?_, ?_, Bool.eq_false_iff.mpr ?_⟩
  · rintro rfl
    cases part
  · rintro rfl
    cases part
  · rw [ne_eq, Grammar.isQuote_iff]
    rintro (rfl | rfl)
    · cases part
    · cases part

theorem Normalized.scan_inert (offset : Nat) (text rest : Text) (inert : text.Inert) :
    scan .code offset (text ++ rest) =
      (scan .code (offset + text.byteLength) rest).prepend (Piece.copies offset text) := by
  induction text generalizing offset with
  | nil => rfl
  | cons c text ih =>
      obtain ⟨noBackslash, noSlash, noQuote⟩ := inert c List.mem_cons_self
      have kept : Text.startsSplice (c :: (text ++ rest)) = false := by
        rw [Bool.eq_false_iff, ne_eq, Text.startsSplice_iff]
        exact fun starts => noBackslash starts.1
      have step : Mode.step (Text.atLineEnd (c :: (text ++ rest))) offset c .code =
          ([.copied c offset], .code) := by
        rw [Mode.step, Mode.codeStep, if_neg noSlash, noQuote]
        rfl
      rw [List.cons_append, scan_char .code offset c _ kept, step,
        ih _ fun d member => inert d (List.mem_cons_of_mem c member), prepend_prepend,
        Text.byteLength_cons, Nat.add_assoc]
      rfl

theorem Normalized.ofText_inert (text rest : Text) (inert : text.Inert) :
    (ofText (text ++ rest)).text = text ++ (ofText rest).text := by
  have shifted := scan_shift text.byteLength .code 0 rest
  rw [Mode.shift] at shifted
  rw [ofText, scan_inert 0 text rest inert, shifted, Normalized.text, prepend, List.map_append,
    Piece.copies_char, shift, Piece.chars_shift]
  rfl

namespace Lexeme

theorem run_exact (holds : Char → Bool) (own rest : Text) (all : ∀ c ∈ own, holds c = true)
    (stops : ∀ c ∈ rest.head?, holds c = false) : run holds (own ++ rest) = (own, rest) := by
  rw [run, List.takeWhile_append_of_pos all, List.dropWhile_append_of_pos all]
  cases rest with
  | nil => simp
  | cons c rest =>
      have stop : ¬ holds c = true := by
        rw [stops c rfl]
        exact Bool.false_ne_true
      rw [List.takeWhile_cons_of_neg stop, List.dropWhile_cons_of_neg stop, List.append_nil]

theorem scan_name (word rest : Text) (name : isIdentifier word = true)
    (stops : ∀ c ∈ rest.head?, CharClass.isNameContinue c = false) :
    scan (word ++ rest) = ⟨.name, word⟩ :: scan rest := by
  cases word with
  | nil => cases name
  | cons c word =>
      obtain ⟨starts, continues⟩ := Bool.and_eq_true_iff.mp name
      have unquoted : ¬ CharClass.isQuote c = true := by
        rw [Grammar.isQuote_iff]
        rintro (rfl | rfl)
        · cases starts
        · cases starts
      have tail := run_exact CharClass.isNameContinue word rest
        (List.all_eq_true.mp continues) stops
      rw [List.cons_append, scan, first.eq_def, if_neg unquoted, if_pos starts, tail]

theorem scan_blank (c : Char) (rest : Text) (blank : CharClass.isSpaceTab c = true) :
    scan (c :: rest) = ⟨.spaceTab, c :: (run CharClass.isSpaceTab rest).1⟩ ::
      scan (run CharClass.isSpaceTab rest).2 := by
  rcases (Grammar.isSpaceTab_iff c).mp blank with rfl | rfl
  · rw [scan]
    rfl
  · rw [scan]
    rfl

def isWhitespace (lexeme : Lexeme) : Bool := lexeme.kind.isWhitespace

def trim (lexemes : List Lexeme) : List Lexeme :=
  ((lexemes.dropWhile isWhitespace).reverse.dropWhile isWhitespace).reverse

theorem scan_leading (text : Text) :
    ∃ blanks, scan text = blanks ++ scan (run CharClass.isSpaceTab text).2 ∧
      ∀ lexeme ∈ blanks, lexeme.isWhitespace = true := by
  cases text with
  | nil => exact ⟨[], rfl, by simp⟩
  | cons c rest =>
      by_cases blank : CharClass.isSpaceTab c = true
      · refine ⟨[⟨.spaceTab, c :: (run CharClass.isSpaceTab rest).1⟩], ?_, ?_⟩
        · rw [scan_blank c rest blank, run, run, List.dropWhile_cons_of_pos blank]
          rfl
        · intro lexeme member
          rw [List.mem_singleton.mp member]
          rfl
      · refine ⟨[], ?_, by simp⟩
        rw [run, List.dropWhile_cons_of_neg blank]
        rfl

-- A blank in front joins the blanks that a text begins with, and is trimmed with them.
@[simp] theorem trim_blank (text : Text) : trim (scan (' ' :: text)) = trim (scan text) := by
  obtain ⟨blanks, same, white⟩ := scan_leading text
  rw [trim, trim, scan_blank ' ' text rfl, List.dropWhile_cons_of_pos (by rfl), same,
    List.dropWhile_append_of_pos white]

theorem scan_blank_unbroken (text : Text)
    (unbroken : ∀ lexeme ∈ scan text, lexeme.kind ≠ .newline) :
    ∀ lexeme ∈ scan (' ' :: text), lexeme.kind ≠ .newline := by
  obtain ⟨blanks, same, _⟩ := scan_leading text
  intro lexeme member
  rw [scan_blank ' ' text rfl] at member
  rcases List.mem_cons.mp member with rfl | later
  · exact Kind.noConfusion
  · apply unbroken
    rw [same]
    exact List.mem_append_right blanks later

end Lexeme

theorem Lexed.ofText_identifier (serial : Nat) (file name : Text) (ident : isIdentifier name = true) :
    ∃ token, (ofText serial file name).tokens = [token] ∧ token.lexeme = ⟨.name, name⟩ := by
  have text : (Normalized.ofText name).text = name := by
    have whole := Normalized.ofText_inert name [] (Text.inert_identifier name ident)
    rwa [List.append_nil, show (Normalized.ofText []).text = [] from rfl, List.append_nil] at whole
  have single : Lexeme.scan name = [⟨.name, name⟩] := by
    have whole := Lexeme.scan_name name [] ident (by simp)
    rwa [List.append_nil, Lexeme.scan] at whole
  have lexemes := Token.place_lexemes (ofText serial file name).source 0
    (Lexeme.scan (Normalized.ofText name).text)
  nth_rewrite 2 [text] at lexemes
  rw [single] at lexemes
  exact List.map_eq_singleton_iff.mp lexemes

theorem Token.trim_lexemes (tokens : List Token) :
    (trim tokens).map lexeme = Lexeme.trim (tokens.map lexeme) := by
  rw [trim, trimEnd, Lexeme.trim, List.dropWhile_map, ← List.map_reverse, List.dropWhile_map,
    ← List.map_reverse]
  rfl

namespace Macro

structure Reading where
  name : Lexeme
  parameters : Option (List Lexeme)
  body : List Lexeme
deriving DecidableEq, Repr

def reading (definition : Macro) : Reading :=
  ⟨definition.name.lexeme, definition.parameters.map (·.map Token.lexeme),
    definition.body.map Token.lexeme⟩

end Macro

namespace MacroTable

theorem define_readings (table : MacroTable) (left right : Macro)
    (same : left.reading = right.reading) (key : Text) :
    ((table.define left).lookup key).map Macro.reading =
      ((table.define right).lookup key).map Macro.reading := by
  have keys : left.key = right.key := congrArg (fun reading => reading.name.text) same
  rw [lookup_define, lookup_define, keys]
  split
  · exact congrArg some same
  · rfl

end MacroTable

-- Only a parenthesis right after the name makes a macro function-like.
theorem Operand.definition_object (directive gap name blank : Token) (rest : List Token)
    (spaced : gap.isSpace = true) (named : name.kind = .name) (apart : blank.isSpace = true) :
    definition directive (gap :: name :: blank :: rest) =
      .ok ⟨name, none, Token.trim (blank :: rest)⟩ := by
  have visible : name.isSpace = false := by simp [Token.isSpace, named]
  have plain : ¬ blank.isOther '(' = true := by
    intro paren
    rw [Token.isSpace_of_other blank '(' paren] at apart
    cases apart
  have start := Token.skipSpace_blank [gap] name (blank :: rest) (by simpa using spaced) visible
  rw [List.singleton_append] at start
  rw [definition, start]
  dsimp only
  rw [if_neg (not_not.mpr named), if_neg plain]

theorem Engine.Context.processFile_define (context : Context) (line : LineOf .define)
    (definition : Macro)
    (described : Operand.definition line.val.name line.val.operands = .ok definition)
    (state : State) (active : state.isActive = true) :
    context.processFile line.val.tokens state =
      ({ state with macros := state.macros.define definition }, .ok 0) := by
  have effect := directive_define context state.stack.depth line state active
  rw [Effects.define, described] at effect
  have run := lines_hash context state.stack.depth line.val [] state _ (fun _ => rfl) effect
  rw [List.append_nil, lines] at run
  exact processFile_of_lines context line.val.tokens state _ run rfl

namespace Session

def defineLine (name body : Text) : Text := "#define ".toList ++ (name ++ ' ' :: body)

theorem defineLine_inert (name : Text) (ident : isIdentifier name = true) :
    Text.Inert ("#define ".toList ++ (name ++ [' '])) := by
  have plain : Text.Inert "#define ".toList := by
    simp [Text.Inert, CharClass.isQuote]
  intro c member
  rcases List.mem_append.mp member with directive | member
  · exact plain c directive
  · rcases List.mem_append.mp member with inside | blank
    · exact Text.inert_identifier name ident c inside
    · obtain rfl := List.mem_singleton.mp blank
      decide

theorem scan_defineLine (name body : Text) (ident : isIdentifier name = true) :
    Lexeme.scan (defineLine name body) =
      ⟨.other, ['#']⟩ :: ⟨.name, "define".toList⟩ :: ⟨.spaceTab, [' ']⟩ :: ⟨.name, name⟩ ::
        Lexeme.scan (' ' :: body) := by
  have written : defineLine name body =
      '#' :: ("define".toList ++ ' ' :: (name ++ ' ' :: body)) := rfl
  have hash : ∀ rest, Lexeme.scan ('#' :: rest) = ⟨.other, ['#']⟩ :: Lexeme.scan rest := by
    intro rest
    rw [Lexeme.scan]
    rfl
  have stops : ∀ rest : Text, ∀ c ∈ (' ' :: rest).head?, CharClass.isNameContinue c = false := by
    rintro rest c ⟨⟩
    rfl
  have starts : ∀ c ∈ (name ++ ' ' :: body).head?, CharClass.isSpaceTab c = false := by
    cases name with
    | nil => cases ident
    | cons c name =>
        rintro d ⟨⟩
        rw [Bool.eq_false_iff, ne_eq, Grammar.isSpaceTab_iff]
        rintro (rfl | rfl)
        · cases ident
        · cases ident
  have apart : Lexeme.run CharClass.isSpaceTab (name ++ ' ' :: body) = ([], name ++ ' ' :: body) :=
    Lexeme.run_exact _ [] _ (by simp) starts
  have word : isIdentifier "define".toList = true := rfl
  -- The word is kept closed: nothing below depends on how it is spelled.
  generalize "define".toList = define at word written
  rw [written, hash, Lexeme.scan_name define _ word (stops _), Lexeme.scan_blank ' ' _ rfl, apart,
    Lexeme.scan_name name _ ident (stops _)]

theorem normalized_defineLine (name body : Text) (ident : isIdentifier name = true) :
    (Normalized.ofText (defineLine name body)).text =
      defineLine name (Normalized.ofText body).text := by
  have joined : ∀ word rest : Text, word ++ (name ++ ' ' :: rest) =
      word ++ (name ++ [' ']) ++ rest := by simp
  have split : ∀ rest, defineLine name rest = "#define ".toList ++ (name ++ [' ']) ++ rest :=
    joined _
  rw [split, Normalized.ofText_inert _ body (defineLine_inert name ident), split]

def nameText (session : Session) (name : Text) : Lexed :=
  .ofText (session.environment.numbering.serial session.state.lexings) predefinedFile name

def bodyText (session : Session) (body : Text) : Lexed :=
  .ofText (session.environment.numbering.serial (session.state.lexings + 1)) predefinedFile body

theorem define_refused (session : Session) (name body : Text) (other : isIdentifier name = false) :
    session.define name body = (session, some (.invalidMacroName name)) := by
  rw [define, if_neg (Bool.eq_false_iff.mp other)]

theorem define_token (session : Session) (name body : Text) (token : Token)
    (ident : isIdentifier name = true) (tokens : (session.nameText name).tokens = [token]) :
    session.define name body =
      (⟨session.environment, { session.state with
        macros := session.state.macros.define
          ⟨token, none, Token.trim (session.bodyText body).tokens⟩
        lexings := session.state.lexings + 2 }⟩, none) := by
  rw [define, if_pos ident]
  dsimp only [lexPredefined, State.lexNext]
  rw [show (session.state.nextText session.environment predefinedFile name).tokens = [token] from
    tokens]
  rfl

theorem define_object (session : Session) (name body : Text) (ident : isIdentifier name = true) :
    ∃ definition : Macro,
      (session.define name body).1.state.macros = session.state.macros.define definition ∧
      (session.define name body).2 = none ∧
      definition.reading =
        ⟨⟨.name, name⟩, none, Lexeme.trim (Lexeme.scan (Normalized.ofText body).text)⟩ := by
  obtain ⟨token, tokens, named⟩ := Lexed.ofText_identifier
    (session.environment.numbering.serial session.state.lexings) predefinedFile name ident
  have defined := define_token session name body token ident tokens
  refine ⟨_, by rw [defined], by rw [defined], ?_⟩
  rw [Macro.reading, named, Token.trim_lexemes]
  exact congrArg (Macro.Reading.mk _ none ∘ Lexeme.trim) (Token.place_lexemes _ 0 _)

theorem defineLine_written (serial : Nat) (file name body : Text) (ident : isIdentifier name = true)
    (unbroken : ∀ lexeme ∈ Lexeme.scan (Normalized.ofText body).text, lexeme.kind ≠ .newline) :
    ∃ (line : LineOf .define) (definition : Macro),
      (Lexed.ofText serial file (defineLine name body)).tokens = line.val.tokens ∧
      Operand.definition line.val.name line.val.operands = .ok definition ∧
      definition.reading =
        ⟨⟨.name, name⟩, none, Lexeme.trim (Lexeme.scan (Normalized.ofText body).text)⟩ := by
  let root := Lexed.ofText serial file (defineLine name body)
  have lexemes := Token.place_lexemes root.source 0 (Lexeme.scan root.source.normalized)
  have scanned : Lexeme.scan root.source.normalized = _ :=
    (congrArg Lexeme.scan (normalized_defineLine name body ident)).trans
      (scan_defineLine name _ ident)
  nth_rewrite 2 [scanned] at lexemes
  obtain ⟨hash, _, tokens, hashed, lexemes⟩ := List.map_eq_cons_iff.mp lexemes
  obtain ⟨directive, _, rfl, directed, lexemes⟩ := List.map_eq_cons_iff.mp lexemes
  obtain ⟨gap, _, rfl, spaced, lexemes⟩ := List.map_eq_cons_iff.mp lexemes
  obtain ⟨word, rest, rfl, named, lexemes⟩ := List.map_eq_cons_iff.mp lexemes
  have whole := lexemes
  rw [Lexeme.scan_blank ' ' _ rfl] at lexemes
  obtain ⟨blank, inner, rfl, apart, _⟩ := List.map_eq_cons_iff.mp lexemes
  have hashKind : hash.kind = .other := congrArg Lexeme.kind hashed
  have hashText : hash.text = ['#'] := congrArg Lexeme.text hashed
  have gapKind : gap.kind = .spaceTab := congrArg Lexeme.kind spaced
  have wordKind : word.kind = .name := congrArg Lexeme.kind named
  have blankKind : blank.kind = .spaceTab := congrArg Lexeme.kind apart
  have operandsUnbroken : ∀ token ∈ gap :: word :: blank :: inner, token.isNewline = false := by
    intro token member
    have other : token.kind ≠ .newline := by
      rcases List.mem_cons.mp member with rfl | member
      · rw [gapKind]
        exact Kind.noConfusion
      · rcases List.mem_cons.mp member with rfl | member
        · rw [wordKind]
          exact Kind.noConfusion
        · apply Lexeme.scan_blank_unbroken _ unbroken token.lexeme
          rw [← whole]
          exact List.mem_map_of_mem member
    simp [Token.isNewline, other]
  let line : HashLine := {
    indent := []
    hash := hash
    gap := []
    name := directive
    operands := gap :: word :: blank :: inner
    newline := none
    indentBlank := by simp
    hashed := by simp [Token.isOther, hashKind, hashText]
    gapBlank := by simp
    named := congrArg Lexeme.kind directed
    unbroken := operandsUnbroken
    ends := by simp }
  have defines : line.directive = .define := by
    rw [HashLine.directive,
      show line.name.text = "define".toList from congrArg Lexeme.text directed]
    rfl
  refine ⟨⟨line, defines⟩, ⟨word, none, Token.trim (blank :: inner)⟩, ?_, ?_, ?_⟩
  · have written : line.tokens = hash :: directive :: gap :: word :: blank :: inner := by
      simp [HashLine.tokens, line]
    exact tokens.trans written.symm
  · exact Operand.definition_object directive gap word blank inner
      (by simp [Token.isSpace, gapKind]) wordKind (by simp [Token.isSpace, blankKind])
  · rw [Macro.reading, named, Token.trim_lexemes, whole, Lexeme.trim_blank]
    rfl

theorem run_defineLine (session : Session) (serial : Nat) (file name body : Text)
    (ident : isIdentifier name = true) (closed : session.state.stack = .empty)
    (unbroken : ∀ lexeme ∈ Lexeme.scan (Normalized.ofText body).text, lexeme.kind ≠ .newline) :
    ∃ definition : Macro,
      (session.run (.ofText serial file (defineLine name body))).1.state.macros =
        session.state.macros.define definition ∧
      (session.run (.ofText serial file (defineLine name body))).2 = none ∧
      definition.reading =
        ⟨⟨.name, name⟩, none, Lexeme.trim (Lexeme.scan (Normalized.ofText body).text)⟩ := by
  obtain ⟨line, definition, tokens, described, reading⟩ :=
    defineLine_written serial file name body ident unbroken
  let root := Lexed.ofText serial file (defineLine name body)
  have processed := Engine.Context.processFile_define
    (Engine.within session.environment [⟨root.file⟩]) line definition described
    (session.state.reportAll root.diagnostics)
    (by rw [State.isActive, show (session.state.reportAll root.diagnostics).stack = .empty from
      closed]; rfl)
  rw [← tokens] at processed
  refine ⟨definition, ?_, ?_, reading⟩
  · rw [run, Engine.preprocess_within, processed]
    rfl
  · rw [run, Engine.preprocess_within, processed]
    rfl

theorem define_as_line (environment : Environment) (requests : List Request) (serial : Nat)
    (file name body : Text) (ident : isIdentifier name = true)
    (unbroken : ∀ token ∈ (lex predefinedFile body).tokens, token.kind ≠ .newline) :
    let session := requests.foldl perform (start environment)
    let defined := session.define name body
    let ran := session.run (.ofText serial file (defineLine name body))
    defined.2 = none ∧ ran.2 = none ∧
      (defined.1.lookup name).map Macro.reading =
        some ⟨⟨.name, name⟩, none, Lexeme.trim (Lexeme.scan (Normalized.ofText body).text)⟩ ∧
      ∀ key, (defined.1.lookup key).map Macro.reading = (ran.1.lookup key).map Macro.reading := by
  intro session defined ran
  have closed : session.state.stack = .empty :=
    (Machine.performAll_idle requests (start environment)
      (predefineAll_same environment.config.defines ⟨environment, .initial⟩).2).2
  have lexemes : ∀ lexeme ∈ Lexeme.scan (Normalized.ofText body).text, lexeme.kind ≠ .newline := by
    intro lexeme member
    rw [← Token.place_lexemes (lex predefinedFile body).source 0 (Lexeme.scan _)] at member
    obtain ⟨token, inside, rfl⟩ := List.mem_map.mp member
    exact unbroken token inside
  obtain ⟨left, table, added, leftReading⟩ := define_object session name body ident
  obtain ⟨right, macros, passed, rightReading⟩ :=
    run_defineLine session serial file name body ident closed lexemes
  refine ⟨added, passed, ?_, fun key => ?_⟩
  · have key : left.key = name := congrArg (Lexeme.text ∘ Macro.Reading.name) leftReading
    rw [lookup, show defined.1.state.macros = _ from table, MacroTable.lookup_define, if_pos key]
    exact congrArg some leftReading
  · rw [lookup, lookup, show defined.1.state.macros = _ from table, macros]
    exact MacroTable.define_readings session.state.macros left right
      (leftReading.trans rightReading.symm) key

-- After a definition of the same name and a run that fails: a body that begins with a comment and a
-- parenthesis, has a splice and an escaped quote, and ends in a comment that never closes.
theorem define_as_line_sample :
    let environment : Environment := ⟨.default, MemoryFiles.empty.loader, .fromOne⟩
    let requests : List Request :=
      [.define "F".toList "0".toList, .run (lex "a.c".toList "#ifdef F\n".toList)]
    let body := "/*c*/(x)\\\n \"\\\"\" \\/*".toList
    let session := requests.foldl perform (start environment)
    let defined := session.define "F".toList body
    let ran := session.run (.ofText 1 "b.c".toList (defineLine "F".toList body))
    isIdentifier "F".toList = true ∧
      (∀ token ∈ (lex predefinedFile body).tokens, token.kind ≠ .newline) ∧
      (lex predefinedFile body).openComment = some 17 ∧ defined.2 = none ∧ ran.2 = none ∧
      (defined.1.lookup "F".toList).map Macro.reading = some ⟨⟨.name, "F".toList⟩, none,
        Lexeme.trim (Lexeme.scan (Normalized.ofText body).text)⟩ ∧
      ∀ key, (defined.1.lookup key).map Macro.reading = (ran.1.lookup key).map Macro.reading := by
  intro environment requests body session defined ran
  have ident : isIdentifier "F".toList = true := by decide
  have unbroken : ∀ token ∈ (lex predefinedFile body).tokens, token.kind ≠ .newline := by
    decide +kernel
  have unclosed : (lex predefinedFile body).openComment = some 17 := by decide +kernel
  exact ⟨ident, unbroken, unclosed,
    define_as_line environment requests 1 "b.c".toList "F".toList body ident unbroken⟩

end Session

end CPreprocessor
