import CPreprocessor.Engine.Run
import CPreprocessor.Proofs.Macro.Locality

/-!
The engine line by line. A directive line takes effect and leaves the tokens after it; a text line
is expanded as a whole where the innermost block is active, and passed over where it is not.
-/

set_option autoImplicit false

namespace CPreprocessor

-- A directive line as it is written. Only at the end of a file can its line end be missing.
structure HashLine where
  indent : List Token
  hash : Token
  gap : List Token
  name : Token
  operands : List Token
  newline : Option Token
  indentBlank : ∀ token ∈ indent, token.isSpace = true
  hashed : hash.isOther '#' = true
  gapBlank : ∀ token ∈ gap, token.isSpace = true
  named : name.kind = .name
  unbroken : ∀ token ∈ operands, token.isNewline = false
  ends : ∀ token ∈ newline, token.isNewline = true

namespace HashLine

def tokens (line : HashLine) : List Token :=
  line.indent ++ line.hash :: (line.gap ++ line.name :: (line.operands ++ line.newline.toList))

def directive (line : HashLine) : Directive := .ofName line.name.text

def Before (line : HashLine) (rest : List Token) : Prop := line.newline = none → rest = []

end HashLine

structure TextLine where
  body : List Token
  newline : Token
  unbroken : ∀ token ∈ body, token.isNewline = false
  ends : newline.isNewline = true
  plain : DirectiveLine.ofLine? (body ++ [newline]) = none
  balanced : Call.Balanced body

def TextLine.tokens (line : TextLine) : List Token := line.body ++ [line.newline]

theorem Token.skipSpace_blank (blank : List Token) (token : Token) (rest : List Token)
    (spaces : ∀ token ∈ blank, token.isSpace = true) (visible : token.isSpace = false) :
    skipSpace (blank ++ token :: rest) = token :: rest := by
  unfold skipSpace
  rw [List.dropWhile_append_of_pos spaces, List.dropWhile_cons_of_neg (by simp [visible])]

theorem Token.isSpace_of_other (token : Token) (c : Char) (other : token.isOther c = true) :
    token.isSpace = false := by
  unfold isOther at other
  simp only [Bool.and_eq_true, beq_iff_eq] at other
  simp [isSpace, other.1]

theorem Token.isSpace_of_name (token : Token) (named : token.kind = .name) :
    token.isSpace = false := by
  rw [isSpace, named]
  rfl

theorem Token.skipSpace_split (tokens tail : List Token) (token : Token)
    (start : skipSpace tokens = token :: tail) :
    ∃ blank, tokens = blank ++ token :: tail ∧ ∀ other ∈ blank, other.isSpace = true := by
  refine ⟨tokens.takeWhile isSpace, ?_, List.all_eq_true.mp List.all_takeWhile⟩
  rw [← start]
  exact List.takeWhile_append_dropWhile.symm

namespace DirectiveLine

theorem operands_written (line : HashLine) (rest : List Token) (fits : line.Before rest) :
    let tail := line.operands ++ (line.newline.toList ++ rest)
    tail.takeWhile (!·.isNewline) = line.operands ∧
      (tail.dropWhile (!·.isNewline)).drop 1 = rest := by
  have passed : ∀ token ∈ line.operands, (!token.isNewline) = true := by
    intro token member
    rw [line.unbroken token member]
    rfl
  dsimp only
  rw [List.takeWhile_append_of_pos passed, List.dropWhile_append_of_pos passed]
  cases ending : line.newline with
  | none =>
      rw [fits ending]
      simp
  | some newline =>
      have ends := line.ends newline (by rw [ending]; rfl)
      simp [ends]

theorem ofLine_written (line : HashLine) (rest : List Token) (fits : line.Before rest) :
    ofLine? (line.tokens ++ rest) = some ⟨line.name, line.operands, rest⟩ := by
  have hashVisible := Token.isSpace_of_other line.hash '#' line.hashed
  have nameVisible : line.name.isSpace = false := by simp [Token.isSpace, line.named]
  have written : line.tokens ++ rest = line.indent ++ line.hash :: (line.gap ++ line.name ::
      (line.operands ++ (line.newline.toList ++ rest))) := by
    simp [HashLine.tokens, List.append_assoc]
  obtain ⟨operands, after⟩ := operands_written line rest fits
  unfold ofLine? ofHash?
  rw [written, Token.skipSpace_blank line.indent line.hash _ line.indentBlank hashVisible]
  simp only [if_pos line.hashed]
  rw [Token.skipSpace_blank line.gap line.name _ line.gapBlank nameVisible]
  simp only [if_pos line.named, operands, after]

theorem ofHash_newline (tokens rest : List Token) (newline : Token)
    (ends : newline.isNewline = true) (plain : ofHash? (tokens ++ [newline]) = none) :
    ofHash? (tokens ++ newline :: rest) = none := by
  have kind : newline.kind = .newline := by simpa [Token.isNewline] using ends
  have visible : newline.isSpace = false := by simp [Token.isSpace, kind]
  unfold ofHash? at plain ⊢
  rw [Token.skipSpace_append] at plain ⊢
  cases start : Token.skipSpace tokens with
  | nil => simp [Token.skipSpace, visible, kind]
  | cons name tail =>
      simp only [start, if_neg (List.cons_ne_nil name tail), List.cons_append] at plain ⊢
      by_cases named : name.kind = .name
      · simp [named] at plain
      · rw [if_neg named]

-- What makes a line a directive stands before its end, so it does not depend on later lines.
theorem ofLine_newline (tokens rest : List Token) (newline : Token)
    (ends : newline.isNewline = true) (plain : ofLine? (tokens ++ [newline]) = none) :
    ofLine? (tokens ++ newline :: rest) = none := by
  have kind : newline.kind = .newline := by simpa [Token.isNewline] using ends
  have visible : newline.isSpace = false := by simp [Token.isSpace, kind]
  have unhashed : newline.isOther '#' = false := by simp [Token.isOther, kind]
  unfold ofLine? at plain ⊢
  rw [Token.skipSpace_append] at plain ⊢
  cases start : Token.skipSpace tokens with
  | nil => simp [Token.skipSpace, visible, unhashed]
  | cons hash tail =>
      simp only [start, if_neg (List.cons_ne_nil hash tail), List.cons_append] at plain ⊢
      by_cases hashed : hash.isOther '#' = true
      · rw [if_pos hashed] at plain ⊢
        exact ofHash_newline tail rest newline ends plain
      · rw [if_neg hashed]

end DirectiveLine

namespace State

@[simp] theorem emit_append (state : State) (first second : Expansion) :
    (state.emit first).emit second = state.emit (first.append second) := by
  have output : state.output ++ first.tokens ++ second.tokens =
      state.output ++ (first.tokens ++ second.tokens) := by
    apply Array.ext'
    simp [List.append_assoc]
  simp only [emit, Expansion.append, Log.reportAll_append, output]

@[simp] theorem emit_macros (state : State) (expansion : Expansion) :
    (state.emit expansion).macros = state.macros := rfl

end State

namespace Engine.Context

variable (context : Context) (floor : Nat)

theorem lines_directive (tokens : List Token) (line : DirectiveLine) (state : State)
    (found : DirectiveLine.ofLine? tokens = some line) :
    context.lines floor true tokens state =
      match context.directive floor line.name line.operands state with
      | (after, some failure) => (after, some failure)
      | (after, none) => context.lines floor true line.rest after := by
  cases tokens with
  | nil => cases found
  | cons token tail =>
      rw [lines]
      split
      · rename_i other same
        rw [if_pos rfl, found] at same
        cases same
        rfl
      · rename_i none
        rw [if_pos rfl, found] at none
        cases none

theorem lines_plain (tokens : List Token) (state : State)
    (plain : DirectiveLine.ofLine? tokens = none) :
    context.lines floor true tokens state = context.lines floor false tokens state := by
  cases tokens with
  | nil => simp only [lines]
  | cons token tail =>
      rw [lines, lines]
      split
      · rename_i found
        rw [if_pos rfl, plain] at found
        cases found
      · simp

theorem lines_stopped (lineStart : Bool) (tokens : List Token) (line : DirectiveLine) (state : State)
    (failure : Failure)
    (found : (if lineStart then DirectiveLine.ofLine? tokens else none) = some line)
    (failed : (context.directive floor line.name line.operands state).2 = some failure) :
    context.lines floor lineStart tokens state =
      context.directive floor line.name line.operands state := by
  cases lineStart with
  | false => cases found
  | true =>
      rw [lines_directive context floor tokens line state found]
      generalize context.directive floor line.name line.operands state = outcome at failed ⊢
      obtain ⟨after, result⟩ := outcome
      subst failed
      rfl

theorem lines_passed (lineStart : Bool) (tokens : List Token) (line : DirectiveLine) (state : State)
    (found : (if lineStart then DirectiveLine.ofLine? tokens else none) = some line)
    (passed : (context.directive floor line.name line.operands state).2 = none) :
    context.lines floor lineStart tokens state =
      context.lines floor true line.rest
        (context.directive floor line.name line.operands state).1 := by
  cases lineStart with
  | false => cases found
  | true =>
      rw [lines_directive context floor tokens line state found]
      generalize context.directive floor line.name line.operands state = outcome at passed ⊢
      obtain ⟨after, result⟩ := outcome
      subst passed
      rfl

theorem lines_notDirective (lineStart : Bool) (tokens : List Token) (state : State)
    (plain : (if lineStart then DirectiveLine.ofLine? tokens else none) = none) :
    context.lines floor lineStart tokens state = context.lines floor false tokens state := by
  cases lineStart with
  | false => rfl
  | true => exact lines_plain context floor tokens state plain

theorem lines_active (token : Token) (tail : List Token) (state : State)
    (active : state.isActive = true) :
    context.lines floor false (token :: tail) state =
      context.lines floor token.isNewline (state.macros.expandHead [] token tail).2
        (state.emit (state.macros.expandHead [] token tail).1) := by
  rw [lines]
  simp [active]

theorem lines_inactive (token : Token) (tail : List Token) (state : State)
    (inactive : state.isActive = false) :
    context.lines floor false (token :: tail) state =
      context.lines floor token.isNewline tail state := by
  rw [lines]
  simp [inactive]

theorem lines_hash (line : HashLine) (rest : List Token) (state after : State)
    (fits : line.Before rest)
    (effect : context.directive floor line.name line.operands state = (after, none)) :
    context.lines floor true (line.tokens ++ rest) state =
      context.lines floor true rest after := by
  rw [lines_directive context floor _ _ state (DirectiveLine.ofLine_written line rest fits)]
  simp only [effect]

-- The induction is on the number of tokens left in the line: a call takes several at once, and
-- what it leaves still closes every parenthesis that it opens.
theorem lines_restOfLine (tokens : List Token) (newline : Token) (rest : List Token)
    (state : State) (unbroken : ∀ token ∈ tokens, token.isNewline = false)
    (ends : newline.isNewline = true) (closing : Call.Closing tokens)
    (active : state.isActive = true) :
    context.lines floor false (tokens ++ newline :: rest) state =
      context.lines floor true rest
        (state.emit (state.macros.expandAll [] (tokens ++ [newline]))) := by
  induction measured : tokens.length using Nat.strongRecOn generalizing tokens state with
  | ind size ih =>
      cases tokens with
      | nil =>
          rw [List.nil_append, List.nil_append, lines_active context floor newline rest state active,
            MacroTable.expandAll_cons, MacroTable.expandHead_newline _ _ newline rest ends,
            MacroTable.expandHead_newline _ _ newline [] ends, ends]
          simp [MacroTable.expandAll, Expansion.append, Expansion.empty]
      | cons token tokens =>
          have inside := Call.closing_tail token tokens closing
          have here := MacroTable.expandHead_append state.macros [] token tokens [newline]
            (Use.bare_newline newline [] ends) inside
          have beyond := MacroTable.expandHead_append state.macros [] token tokens (newline :: rest)
            (Use.bare_newline newline rest ends) inside
          have suffix := state.macros.expandHead_suffix [] token tokens
          have shorter : (state.macros.expandHead [] token tokens).2.length < size := by
            have bound := suffix.length_le
            rw [List.length_cons] at measured
            omega
          have later := ih _ shorter _ (state.emit (state.macros.expandHead [] token tokens).1)
            (fun later member => unbroken later (List.mem_cons_of_mem _ (suffix.subset member)))
            (MacroTable.expandHead_closing state.macros [] token tokens inside) active rfl
          rw [List.cons_append, lines_active context floor token _ state active, beyond,
            unbroken token List.mem_cons_self]
          dsimp only
          rw [later, State.emit_macros, State.emit_append, List.cons_append,
            MacroTable.expandAll_cons, here]

theorem lines_text (line : TextLine) (rest : List Token) (state : State)
    (active : state.isActive = true) :
    context.lines floor true (line.tokens ++ rest) state =
      context.lines floor true rest (state.emit (state.macros.expandAll [] line.tokens)) := by
  have written : line.tokens ++ rest = line.body ++ line.newline :: rest := by
    simp [TextLine.tokens]
  rw [written, lines_plain context floor _ state
    (DirectiveLine.ofLine_newline line.body rest line.newline line.ends line.plain)]
  exact lines_restOfLine context floor line.body line.newline rest state line.unbroken line.ends
    ⟨0, line.balanced⟩ active

theorem lines_skipRest (tokens : List Token) (newline : Token) (rest : List Token) (state : State)
    (unbroken : ∀ token ∈ tokens, token.isNewline = false) (ends : newline.isNewline = true)
    (inactive : state.isActive = false) :
    context.lines floor false (tokens ++ newline :: rest) state =
      context.lines floor true rest state := by
  induction tokens with
  | nil => rw [List.nil_append, lines_inactive context floor newline rest state inactive, ends]
  | cons token tokens ih =>
      rw [List.cons_append, lines_inactive context floor token _ state inactive,
        unbroken token List.mem_cons_self]
      exact ih (fun later member => unbroken later (List.mem_cons_of_mem _ member))

theorem lines_skipText (line : TextLine) (rest : List Token) (state : State)
    (inactive : state.isActive = false) :
    context.lines floor true (line.tokens ++ rest) state =
      context.lines floor true rest state := by
  have written : line.tokens ++ rest = line.body ++ line.newline :: rest := by
    simp [TextLine.tokens]
  rw [written, lines_plain context floor _ state
    (DirectiveLine.ofLine_newline line.body rest line.newline line.ends line.plain)]
  exact lines_skipRest context floor line.body line.newline rest state line.unbroken line.ends
    inactive

end Engine.Context

end CPreprocessor
