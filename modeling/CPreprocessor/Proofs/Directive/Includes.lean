import CPreprocessor.Directive.Line
import CPreprocessor.Directive.Operand
import CPreprocessor.Proofs.Engine.Lines
import CPreprocessor.Proofs.Literal.Endings

/-!
The file that an `#include` line names. Between angle brackets it is put together from tokens, which
always join because they stand next to each other in the text. Between quotes it is the text of a
literal, and whether that was closed is decided a second time, by its last character only: a literal
that breaks off after an escaped quote passes for a closed one.
-/

set_option autoImplicit false

namespace CPreprocessor

namespace DirectiveLine

theorem ofLine_part (tokens : List Token) (line : DirectiveLine)
    (found : ofLine? tokens = some line) : line.operands <:+: tokens := by
  rw [ofLine?] at found
  split at found
  · cases found
  · rename_i hash tail start
    obtain ⟨indent, rfl, _⟩ := Token.skipSpace_split tokens tail hash start
    split at found
    · rw [ofHash?] at found
      split at found
      · cases found
      · rename_i name more next
        obtain ⟨gap, rfl, _⟩ := Token.skipSpace_split tail more name next
        split at found
        · cases found
          refine ⟨indent ++ hash :: (gap ++ [name]), more.dropWhile (!·.isNewline), ?_⟩
          simp [List.append_assoc, List.takeWhile_append_dropWhile]
        · cases found
    · cases found

end DirectiveLine

def Lexed.HasLine (lexed : Lexed) (line : DirectiveLine) : Prop :=
  ∃ tokens, tokens <:+ lexed.tokens ∧ DirectiveLine.ofLine? tokens = some line

namespace Token

@[simp] theorem place_length (source : Source) (position : Nat) (lexemes : List Lexeme) :
    (place source position lexemes).length = lexemes.length := by
  have same := congrArg List.length (place_lexemes source position lexemes)
  rwa [List.length_map] at same

theorem place_part (source : Source) (position : Nat) (lexemes : List Lexeme)
    (before part after : List Token)
    (whole : place source position lexemes = before ++ (part ++ after)) :
    part = place source (position + Text.byteLength (before.flatMap Token.text))
      (part.map lexeme) := by
  have same := place_lexemes source position lexemes
  rw [whole, List.map_append, List.map_append] at same
  have texts : (before.map lexeme).flatMap Lexeme.text = before.flatMap Token.text :=
    List.flatMap_map lexeme Lexeme.text before
  rw [← same, place_append, texts, place_append] at whole
  have front := List.append_inj whole (by simp)
  exact (List.append_inj front.2 (by simp)).1.symm

end Token

namespace Operand

theorem join_adjacent (left right : Token) (same : left.source = right.source)
    (meets : left.span.stop = right.span.start) :
    left.join? right = some
      { left with
        text := left.text ++ right.text
        span := ⟨left.span.start, right.span.stop⟩
        origin := left.source.offsets.origin ⟨left.span.start, right.span.stop⟩ } := by
  simp [Token.join?, Token.sameSource, same, Span.join?, meets]

-- Each token that is joined ends where the next one begins.
theorem joinAll_place (source : Source) (joined : Token) (lexemes : List Lexeme)
    (own : joined.source = source) :
    ∃ whole, joinAll? joined (Token.place source joined.span.stop lexemes) = some whole ∧
      whole.text = joined.text ++ lexemes.flatMap Lexeme.text := by
  induction lexemes generalizing joined with
  | nil => exact ⟨joined, rfl, by simp⟩
  | cons lexeme lexemes ih =>
      obtain ⟨whole, joins, text⟩ := ih
        { joined with
          text := joined.text ++ lexeme.text
          span := ⟨joined.span.start, joined.span.stop + lexeme.text.byteLength⟩
          origin := joined.source.offsets.origin
            ⟨joined.span.start, joined.span.stop + lexeme.text.byteLength⟩ } own
      refine ⟨whole, ?_, by simpa using text⟩
      rw [joinAll?, Token.place, List.foldlM_cons, join_adjacent _ _ own rfl]
      exact joins

theorem includeTarget_angle (operands rest : List Token) (angle : Token)
    (first : Token.skipSpace operands = angle :: rest) (opens : angle.isOther '<' = true) :
    includeTarget operands = angleTarget rest := by
  have kind : angle.kind = .other := by
    simp only [Token.isOther, Bool.and_eq_true, beq_iff_eq] at opens
    exact opens.1
  rw [includeTarget, first]
  dsimp only
  rw [kind]
  exact if_pos opens

theorem includeTarget_quoted (operands rest : List Token) (literal : Token) (body : Text)
    (first : Token.skipSpace operands = literal :: rest) (string : literal.kind = .string)
    (text : literal.text = '"' :: body) : includeTarget operands = quotedTarget body := by
  rw [includeTarget, first]
  dsimp only
  rw [string, text]
  rfl

section

variable (inside after : List Token) (close : Token)
  (plain : ∀ token ∈ inside, token.isOther '>' = false) (closes : close.isOther '>' = true)
include plain closes

theorem takeWhile_angle :
    (inside ++ close :: after).takeWhile (!·.isOther '>') = inside := by
  rw [List.takeWhile_append_of_pos (fun token member => by simp [plain token member]),
    List.takeWhile_cons_of_neg (by simp [closes]), List.append_nil]

theorem angleTarget_joined (source : Source) (position : Nat) (filled : inside ≠ [])
    (placed : inside = Token.place source position (inside.map Token.lexeme)) :
    angleTarget (inside ++ close :: after) = .ok (.system (inside.flatMap Token.text)) := by
  have own := takeWhile_angle inside after close plain closes
  rw [angleTarget, own, if_neg (by simp)]
  cases inside with
  | nil => exact absurd rfl filled
  | cons first rest =>
      rw [List.map_cons, Token.place, List.cons.injEq] at placed
      have own := congrArg Token.source placed.1
      have stop : first.span.stop = position + first.text.byteLength :=
        congrArg (·.span.stop) placed.1
      obtain ⟨whole, joins, text⟩ := joinAll_place source first (rest.map Token.lexeme) own
      rw [stop] at joins
      have joined : joinAll? first rest = some whole := by
        rw [placed.2]
        exact joins
      rw [List.flatMap_map] at text
      dsimp only
      rw [joined]
      exact congrArg (Except.ok ∘ IncludeTarget.system) text

end

theorem angleTarget_empty (after : List Token) (close : Token) (closes : close.isOther '>' = true) :
    angleTarget (close :: after) = .error .emptyIncludeName := by
  have own := takeWhile_angle [] after close (by simp) closes
  rw [List.nil_append] at own
  simp [angleTarget, own]

theorem angleTarget_open (tokens : List Token)
    (plain : ∀ token ∈ tokens, token.isOther '>' = false) :
    angleTarget tokens = .error .unterminatedAngleName := by
  have all : tokens.takeWhile (!·.isOther '>') = tokens :=
    List.takeWhile_eq_self_iff.mpr fun token member => by simp [plain token member]
  rw [angleTarget, all]
  exact if_pos rfl

theorem angle_cases (tokens : List Token) :
    (∀ token ∈ tokens, token.isOther '>' = false) ∨
    ∃ inside close after, tokens = inside ++ close :: after ∧
      (∀ token ∈ inside, token.isOther '>' = false) ∧ close.isOther '>' = true := by
  have before : ∀ token ∈ tokens.takeWhile (!·.isOther '>'), token.isOther '>' = false :=
    fun token member => by simpa using List.mem_takeWhile_imp member
  have parts := List.takeWhile_append_dropWhile (p := (!·.isOther '>')) (l := tokens)
  cases left : tokens.dropWhile (!·.isOther '>') with
  | nil =>
      rw [left, List.append_nil] at parts
      exact .inl (parts ▸ before)
  | cons close after =>
      rw [left] at parts
      have stops := List.head?_dropWhile_not (!·.isOther '>') tokens
      rw [left] at stops
      exact .inr ⟨_, close, after, parts.symm, before, by simpa using stops⟩

theorem quotedTarget_ok (body path : Text) :
    quotedTarget body = .ok (.quoted path) ↔ body = path ++ ['"'] ∧ path ≠ [] := by
  rw [quotedTarget]
  constructor
  · intro found
    split at found
    · rename_i ends
      split at found
      · cases found
      · rename_i filled
        cases found
        exact ⟨(List.dropLast_append_getLast? _ ends).symm, filled⟩
    · cases found
  · rintro ⟨rfl, filled⟩
    simp [filled]

theorem quotedTarget_unterminated (body : Text) :
    quotedTarget body = .error .unterminatedQuotedName ↔ ¬ ∃ path, body = path ++ ['"'] := by
  rw [quotedTarget]
  constructor
  · rintro found ⟨path, rfl⟩
    rw [List.getLast?_concat, if_pos rfl] at found
    split at found
    · cases found
    · cases found
  · intro open_
    refine if_neg fun ends => open_ ⟨body.dropLast, ?_⟩
    exact (List.dropLast_append_getLast? _ ends).symm

end Operand

def Literal.EndsInEscapedQuote (body : Text) : Prop :=
  body.getLast? = some '"' ∧ endsInEscape body.dropLast = true

instance (body : Text) : Decidable (Literal.EndsInEscapedQuote body) :=
  inferInstanceAs (Decidable (_ ∧ _))

namespace Lexed

variable (serial : Nat) (name content : Text)

section

variable (front part back : List Token)
  (whole : (ofText serial name content).tokens = front ++ (part ++ back))
include whole

theorem part_texts : (ofText serial name content).source.normalized =
    front.flatMap Token.text ++ (part.flatMap Token.text ++ back.flatMap Token.text) := by
  have texts := (Token.place_texts (ofText serial name content).source 0 _).trans
    (Lexeme.scan_append (ofText serial name content).source.normalized)
  rw [← List.flatMap_append, ← List.flatMap_append, ← whole]
  exact texts.symm

theorem part_placed :
    part = Token.place (ofText serial name content).source
      (Text.byteLength (front.flatMap Token.text)) (part.map Token.lexeme) := by
  have placed := Token.place_part _ 0 _ front part back whole
  rwa [Nat.zero_add] at placed

end

theorem token_span (front back : List Token) (token : Token)
    (whole : (ofText serial name content).tokens = front ++ token :: back) :
    token.span = ⟨Text.byteLength (front.flatMap Token.text),
      Text.byteLength (front.flatMap Token.text) + token.text.byteLength⟩ := by
  have placed := part_placed serial name content front [token] back whole
  exact congrArg Token.span (List.cons.inj placed).1

theorem line_part (line : DirectiveLine) (written : (ofText serial name content).HasLine line) :
    line.operands <:+: (ofText serial name content).tokens := by
  obtain ⟨tokens, last, found⟩ := written
  exact (DirectiveLine.ofLine_part tokens line found).trans last.isInfix

theorem slice_between (front inside back : List Token) (left right : Token)
    (whole : (ofText serial name content).tokens = front ++ left :: (inside ++ right :: back)) :
    (ofText serial name content).source.normalized.slice? left.span.stop right.span.start =
      some (inside.flatMap Token.text) := by
  have start := token_span serial name content front _ left whole
  have stop := token_span serial name content (front ++ left :: inside) back right
    (by rw [whole]; simp)
  have texts := part_texts serial name content (front ++ [left]) inside (right :: back)
    (by rw [whole]; simp)
  have sliced := Text.slice_append ((front ++ [left]).flatMap Token.text)
    (inside.flatMap Token.text) ((right :: back).flatMap Token.text)
  rw [← texts] at sliced
  rw [start, stop]
  simpa [Nat.add_assoc] using sliced

theorem angle_joined (line : DirectiveLine) (angle close : Token) (rest inside after : List Token)
    (written : (ofText serial name content).HasLine line)
    (first : Token.skipSpace line.operands = angle :: rest) (opens : angle.isOther '<' = true)
    (split : rest = inside ++ close :: after) (filled : inside ≠ [])
    (plain : ∀ token ∈ inside, token.isOther '>' = false) (closes : close.isOther '>' = true) :
    Operand.includeTarget line.operands = .ok (.system (inside.flatMap Token.text)) ∧
      (ofText serial name content).source.normalized.slice? angle.span.stop close.span.start =
        some (inside.flatMap Token.text) := by
  obtain ⟨front, back, whole⟩ := line_part serial name content line written
  obtain ⟨blank, same, _⟩ := Token.skipSpace_split line.operands rest angle first
  have tokens : (ofText serial name content).tokens =
      front ++ blank ++ angle :: (inside ++ close :: (after ++ back)) := by
    rw [← whole, same, split]
    simp
  refine ⟨?_, slice_between serial name content _ inside _ angle close tokens⟩
  have placed := part_placed serial name content (front ++ blank ++ [angle]) inside
    (close :: (after ++ back)) (by rw [tokens]; simp)
  rw [Operand.includeTarget_angle line.operands rest angle first opens, split]
  exact Operand.angleTarget_joined inside after close plain closes _ _ filled placed

theorem angle_name_rebuilt (line : DirectiveLine) (angle : Token) (rest : List Token)
    (written : (ofText serial name content).HasLine line)
    (first : Token.skipSpace line.operands = angle :: rest) (opens : angle.isOther '<' = true) :
    let target := Operand.includeTarget line.operands
    target ≠ .error .malformedIncludeName ∧
    (∀ inside close after, rest = inside ++ close :: after → inside ≠ [] →
      (∀ token ∈ inside, token.isOther '>' = false) → close.isOther '>' = true →
        target = .ok (.system (inside.flatMap Token.text)) ∧
        (ofText serial name content).source.normalized.slice? angle.span.stop close.span.start =
          some (inside.flatMap Token.text)) ∧
    (target = .error .emptyIncludeName ↔ ∃ close ∈ rest.head?, close.isOther '>' = true) ∧
    (target = .error .unterminatedAngleName ↔ ∀ token ∈ rest, token.isOther '>' = false) := by
  intro target
  have read : target = Operand.angleTarget rest :=
    Operand.includeTarget_angle line.operands rest angle first opens
  have rebuilt := fun inside close after =>
    angle_joined serial name content line angle close rest inside after written first opens
  rcases Operand.angle_cases rest with plain | ⟨inside, close, after, split, plain, closes⟩
  · have open_ := read.trans (Operand.angleTarget_open rest plain)
    refine ⟨by simp [open_], rebuilt, ?_, by simpa [open_] using plain⟩
    simpa [open_] using fun close head => plain close (List.mem_of_mem_head? head)
  · have some_ : ∃ token ∈ rest, token.isOther '>' = true := ⟨close, by simp [split], closes⟩
    cases inside with
    | nil =>
        have empty := read.trans ((congrArg _ split).trans
          (Operand.angleTarget_empty after close closes))
        refine ⟨by simp [empty], rebuilt, ?_, by simpa [empty] using some_⟩
        simp [empty, split, closes]
    | cons head more =>
        have named : target = _ :=
          (rebuilt (head :: more) close after split (by simp) plain closes).1
        have other := plain head (by simp)
        refine ⟨by simp [named], rebuilt, ?_, by simpa [named] using some_⟩
        simp [named, split, other]

-- A comment and a literal lie between the brackets, and the literal has a bracket of its own.
theorem angle_name_rebuilt_sample :
    let lexed := ofText 0 "a.c".toList "\t# include <a/**/\">\"1.h>>\n".toList
    ∃ (line : DirectiveLine) (angle close : Token), lexed.HasLine line ∧
      angle.isOther '<' = true ∧ close.isOther '>' = true ∧
      Operand.includeTarget line.operands = .ok (.system "a \">\"1.h".toList) ∧
      lexed.source.normalized.slice? angle.span.stop close.span.start =
        some "a \">\"1.h".toList := by
  intro lexed
  have known : ∃ line ∈ DirectiveLine.ofLine? lexed.tokens,
      let operands := Token.skipSpace line.operands
      (∃ angle ∈ operands.head?, angle.isOther '<' = true) ∧
      (∃ close ∈ operands[5]?, close.isOther '>' = true) ∧
      (∀ token ∈ operands.tail.take 4, token.isOther '>' = false) ∧
      (operands.tail.take 4).flatMap Token.text = "a \">\"1.h".toList := by
    decide +kernel
  obtain ⟨line, found, ⟨angle, first, opens⟩, ⟨close, fifth, closes⟩, plain, text⟩ := known
  obtain ⟨rest, operands⟩ := List.head?_eq_some_iff.mp first
  rw [operands] at fifth plain text
  have split : rest = rest.take 4 ++ close :: rest.drop 5 := by
    have within : rest[4]? = some close := fifth
    obtain ⟨bound, here⟩ := List.getElem?_eq_some_iff.mp within
    rw [← here, ← List.drop_eq_getElem_cons bound, List.take_append_drop]
  have filled : rest.take 4 ≠ [] := fun none => by
    rw [List.tail_cons, none] at text
    cases text
  have written : lexed.HasLine line := ⟨lexed.tokens, List.suffix_refl _, found⟩
  obtain ⟨named, slice⟩ := (angle_name_rebuilt 0 _ _ line angle rest written operands opens).2.1
    (rest.take 4) close (rest.drop 5) split filled plain closes
  rw [List.tail_cons] at text
  rw [text] at named slice
  exact ⟨line, angle, close, written, opens, closes, named, slice⟩

theorem quoted_name_by_last_quote (line : DirectiveLine) (literal : Token) (rest : List Token)
    (body : Text) (written : (ofText serial name content).HasLine line)
    (first : Token.skipSpace line.operands = literal :: rest) (string : literal.kind = .string)
    (text : literal.text = '"' :: body) :
    let cursor : Cursor := ⟨(ofText serial name content).source.normalized, literal.span.start⟩
    let target := Operand.includeTarget line.operands
    ∃ ending stop, InPlace.ending? '"'.toUInt8 cursor.advance = some (ending, stop) ∧
      stop.position = literal.span.stop ∧
      (¬ Literal.EndsInEscapedQuote body →
        (∀ path, target = .ok (.quoted path) ↔
          ending = .quote ∧ body = path ++ ['"'] ∧ path ≠ []) ∧
        (ending ≠ .quote → target = .error .unterminatedQuotedName)) ∧
      (Literal.EndsInEscapedQuote body →
        ending ≠ .quote ∧ ∃ path, body = path ++ ['"'] ∧ target = .ok (.quoted path)) := by
  intro cursor target
  have read : target = Operand.quotedTarget body :=
    Operand.includeTarget_quoted line.operands rest literal body first string text
  have member : literal ∈ (ofText serial name content).tokens := by
    obtain ⟨blank, same, _⟩ := Token.skipSpace_split line.operands rest literal first
    exact (line_part serial name content line written).subset (by simp [same])
  obtain ⟨before, more, splits, end_, own⟩ :=
    literal_scanned serial name content literal '"' body member (.inl rfl) text
  obtain ⟨ending, stop, found, _, reached, _, strips⟩ :=
    InPlace.ending_scanned '"' rfl cursor before more splits
  rw [own] at reached strips
  have closed := ending.quote_iff '"' body strips
  refine ⟨ending, stop, found, reached.position.trans end_.symm,
    fun settled => ⟨fun path => ?_, fun runsOn => ?_⟩, ?_⟩
  · rw [read, Operand.quotedTarget_ok]
    refine ⟨fun ⟨same, filled⟩ => ⟨closed.mpr ⟨path, same, ?_⟩, same, filled⟩, And.right⟩
    exact Bool.eq_false_iff.mpr fun odd => settled (by simp [same, Literal.EndsInEscapedQuote, odd])
  · rw [read, Operand.quotedTarget_unterminated]
    rintro ⟨path, same⟩
    cases parity : Literal.endsInEscape path with
    | true => exact settled (by simp [same, Literal.EndsInEscapedQuote, parity])
    | false => exact runsOn (closed.mpr ⟨path, same, parity⟩)
  · rintro ⟨ends, odd⟩
    have same := (List.dropLast_append_getLast? _ ends).symm
    refine ⟨fun quote => ?_, body.dropLast, same, ?_⟩
    · obtain ⟨inner, again, even⟩ := closed.mp quote
      rw [again, List.dropLast_concat, even] at odd
      cases odd
    · refine read.trans ((Operand.quotedTarget_ok body _).mpr ⟨same, fun none => ?_⟩)
      rw [none] at odd
      cases odd

theorem quoted_name_by_last_quote_sample :
    let closed := ofText 0 [] "#include \"a\\\"b\\\\\" x\n".toList
    let unclosed := ofText 0 [] "#include \"a.h".toList
    (∃ line, closed.HasLine line ∧
      Operand.includeTarget line.operands = .ok (.quoted "a\\\"b\\\\".toList)) ∧
    ∃ line, unclosed.HasLine line ∧
      Operand.includeTarget line.operands = .error .unterminatedQuotedName := by
  intro closed unclosed
  have first : ∃ line ∈ DirectiveLine.ofLine? closed.tokens,
      ∃ literal ∈ (Token.skipSpace line.operands).head?, literal.kind = .string ∧
        literal.text = '"' :: "a\\\"b\\\\\"".toList ∧
        (InPlace.ending? '"'.toUInt8
          (Cursor.mk closed.source.normalized literal.span.start).advance).map Prod.fst =
            some .quote := by
    decide +kernel
  have second : ∃ line ∈ DirectiveLine.ofLine? unclosed.tokens,
      ∃ literal ∈ (Token.skipSpace line.operands).head?, literal.kind = .string ∧
        literal.text = '"' :: "a.h".toList ∧
        (InPlace.ending? '"'.toUInt8
          (Cursor.mk unclosed.source.normalized literal.span.start).advance).map Prod.fst =
            some .text := by
    decide +kernel
  refine ⟨?_, ?_⟩
  · obtain ⟨line, written, literal, head, string, text, ends⟩ := first
    obtain ⟨rest, operands⟩ := List.head?_eq_some_iff.mp head
    have known : closed.HasLine line := ⟨closed.tokens, List.suffix_refl _, written⟩
    obtain ⟨ending, stop, found, _, settled, _⟩ :=
      quoted_name_by_last_quote 0 _ _ line literal rest _ known operands string text
    rw [found] at ends
    exact ⟨line, known, ((settled (by decide)).1 _).mpr ⟨Option.some.inj ends, by decide, by decide⟩⟩
  · obtain ⟨line, written, literal, head, string, text, ends⟩ := second
    obtain ⟨rest, operands⟩ := List.head?_eq_some_iff.mp head
    have known : unclosed.HasLine line := ⟨unclosed.tokens, List.suffix_refl _, written⟩
    obtain ⟨ending, stop, found, _, settled, _⟩ :=
      quoted_name_by_last_quote 0 _ _ line literal rest _ known operands string text
    rw [found] at ends
    refine ⟨line, known, (settled (by decide)).2 fun quote => ?_⟩
    cases quote.symm.trans (Option.some.inj ends)

theorem unclosed_name_taken :
    let lexed := ofText 0 "main.c".toList "#include \"a\\\"\n".toList
    ∃ line ∈ DirectiveLine.ofLine? lexed.tokens,
      ∃ literal ∈ (Token.skipSpace line.operands).head?, literal.kind = .string ∧
        literal.text = "\"a\\\"".toList ∧
        (InPlace.ending? '"'.toUInt8
          (Cursor.mk lexed.source.normalized literal.span.start).advance).map Prod.fst = some .line ∧
        Operand.includeTarget line.operands = .ok (.quoted "a\\".toList) := by
  decide +kernel

end Lexed

end CPreprocessor
