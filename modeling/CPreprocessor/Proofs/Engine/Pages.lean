import CPreprocessor.Proofs.Engine.Lines

/-!
The engine as a run over lines. Where every text line closes the parentheses that it opens, no line
takes tokens of another: a file is processed line by line, each directive line as a directive and
each text line as text.
-/

set_option autoImplicit false

namespace CPreprocessor

namespace Token

def splitLines : List Token → List (List Token)
  | [] => []
  | token :: rest =>
      if token.isNewline then [token] :: splitLines rest
      else
        match splitLines rest with
        | [] => [[token]]
        | line :: lines => (token :: line) :: lines

def Unbroken (tokens : List Token) : Prop := ∀ token ∈ tokens, token.isNewline = false

def Ended (tokens : List Token) : Prop := ∀ token ∈ tokens.getLast?, token.isNewline = true

theorem splitLines_line (body : List Token) (newline : Token) (rest : List Token)
    (unbroken : Unbroken body) (ends : newline.isNewline = true) :
    splitLines (body ++ newline :: rest) = (body ++ [newline]) :: splitLines rest := by
  induction body with
  | nil => rw [List.nil_append, splitLines, if_pos ends, List.nil_append]
  | cons token body ih =>
      have inside : token.isNewline ≠ true := by simp [unbroken token List.mem_cons_self]
      have later := ih fun other member => unbroken other (List.mem_cons_of_mem token member)
      rw [List.cons_append, splitLines, if_neg inside, later, List.cons_append]

theorem splitLines_last (body : List Token) (unbroken : Unbroken body) (filled : body ≠ []) :
    splitLines body = [body] := by
  induction body with
  | nil => exact absurd rfl filled
  | cons token body ih =>
      have inside : token.isNewline ≠ true := by simp [unbroken token List.mem_cons_self]
      rw [splitLines, if_neg inside]
      cases body with
      | nil => rfl
      | cons next body =>
          rw [ih (fun other member => unbroken other (List.mem_cons_of_mem token member))
            (List.cons_ne_nil next body)]

@[simp] theorem splitLines_flatten (tokens : List Token) : (splitLines tokens).flatten = tokens := by
  induction tokens with
  | nil => rfl
  | cons token rest ih =>
      rw [splitLines]
      by_cases ends : token.isNewline = true
      · rw [if_pos ends, List.flatten_cons, ih]
        rfl
      · rw [if_neg ends]
        cases later : splitLines rest with
        | nil =>
            rw [later, List.flatten_nil] at ih
            rw [← ih]
            rfl
        | cons line lines =>
            rw [later, List.flatten_cons] at ih
            rw [← ih]
            rfl

theorem splitLines_unbroken (front rest line : List Token) (lines : List (List Token))
    (unbroken : Unbroken front) (split : splitLines rest = line :: lines) :
    splitLines (front ++ rest) = (front ++ line) :: lines := by
  induction front with
  | nil => exact split
  | cons token front ih =>
      have inside : token.isNewline ≠ true := by simp [unbroken token List.mem_cons_self]
      have later := ih fun other member => unbroken other (List.mem_cons_of_mem token member)
      rw [List.cons_append, splitLines, if_neg inside, later]
      rfl

@[elab_as_elim]
theorem lines_induction {motive : List Token → Prop} (nil : motive [])
    (last : ∀ body, Unbroken body → body ≠ [] → motive body)
    (line : ∀ body newline rest, Unbroken body → newline.isNewline = true → motive rest →
      motive (body ++ newline :: rest))
    (tokens : List Token) : motive tokens := by
  have general : ∀ body, Unbroken body → motive (body ++ tokens) := by
    induction tokens with
    | nil =>
        intro body unbroken
        rw [List.append_nil]
        cases body with
        | nil => exact nil
        | cons token body => exact last _ unbroken (List.cons_ne_nil token body)
    | cons token tokens ih =>
        intro body unbroken
        cases ends : token.isNewline with
        | true => exact line body token tokens unbroken ends (ih [] (by simp [Unbroken]))
        | false =>
            have longer : Unbroken (body ++ [token]) := by
              intro other member
              rcases List.mem_append.mp member with inside | here
              · exact unbroken other inside
              · rw [List.mem_singleton.mp here]
                exact ends
            have whole := ih (body ++ [token]) longer
            rwa [List.append_assoc] at whole
  exact general [] (by simp [Unbroken])

theorem ended_rest (body : List Token) (newline : Token) (rest : List Token)
    (ended : Ended (body ++ newline :: rest)) : Ended rest := by
  intro token found
  apply ended
  rw [List.getLast?_append, List.getLast?_cons, Option.mem_def.mp found]
  rfl

theorem splitLines_append (tokens rest : List Token) (ended : Ended tokens) :
    splitLines (tokens ++ rest) = splitLines tokens ++ splitLines rest := by
  induction tokens using lines_induction with
  | nil => rfl
  | last body unbroken filled =>
      have ends := ended (body.getLast filled) (List.getLast?_eq_some_getLast filled)
      rw [unbroken _ (List.getLast_mem filled)] at ends
      cases ends
  | line body newline later unbroken ends ih =>
      rw [List.append_assoc, List.cons_append,
        splitLines_line body newline (later ++ rest) unbroken ends,
        splitLines_line body newline later unbroken ends,
        ih (ended_rest body newline later ended)]
      rfl

theorem ended_unbroken (tokens : List Token) :
    ∃ lines part, tokens = lines ++ part ∧ Ended lines ∧ Unbroken part := by
  induction tokens using lines_induction with
  | nil => exact ⟨[], [], rfl, by simp [Ended], by simp [Unbroken]⟩
  | last body unbroken filled => exact ⟨[], body, rfl, by simp [Ended], unbroken⟩
  | line body newline rest _ ends ih =>
      obtain ⟨lines, part, rfl, ended, unbroken⟩ := ih
      refine ⟨body ++ newline :: lines, part, by simp, ?_, unbroken⟩
      intro token found
      rw [List.getLast?_append, List.getLast?_cons] at found
      cases last : lines.getLast? with
      | none =>
          rw [last] at found
          cases found
          exact ends
      | some final =>
          rw [last] at found
          cases found
          exact ended final last

theorem rest_of_unended (body rest : List Token) (unbroken : Unbroken body) (filled : body ≠ [])
    (fits : Ended body ∨ rest = []) : rest = [] := by
  rcases fits with ended | atEnd
  · have ends := ended (body.getLast filled) (List.getLast?_eq_some_getLast filled)
    rw [unbroken _ (List.getLast_mem filled)] at ends
    cases ends
  · exact atEnd

end Token

theorem Call.closesAll_newline (depth : Nat) (body : List Token) (newline : Token)
    (ends : newline.isNewline = true) :
    closesAll depth (body ++ [newline]) = closesAll depth body := by
  have kind : newline.kind = .newline := by simpa [Token.isNewline] using ends
  induction body generalizing depth with
  | nil => simp [closesAll, Token.isOther, kind]
  | cons token body ih =>
      rw [List.cons_append]
      cases depth with
      | zero => simp only [closesAll, ih]
      | succ depth => simp only [closesAll, ih]

namespace DirectiveLine

theorem ofHash_onto (tokens : List Token) (newline : Token) (rest : List Token)
    (unbroken : Token.Unbroken tokens) (ends : newline.isNewline = true) :
    ofHash? (tokens ++ newline :: rest) =
      (ofHash? (tokens ++ [newline])).map fun line => { line with rest := rest } := by
  have kind : newline.kind = .newline := by simpa [Token.isNewline] using ends
  have visible : newline.isSpace = false := by simp [Token.isSpace, kind]
  rw [ofHash?, ofHash?, Token.skipSpace_append, Token.skipSpace_append]
  cases start : Token.skipSpace tokens with
  | nil => simp [Token.skipSpace, visible, kind]
  | cons name tail =>
      have suffix : name :: tail <:+ tokens := start ▸ List.dropWhile_suffix Token.isSpace
      have passed : ∀ token ∈ tail, (!token.isNewline) = true := by
        intro token member
        rw [unbroken token (suffix.subset (List.mem_cons_of_mem name member))]
        rfl
      simp only [if_neg (List.cons_ne_nil name tail), List.cons_append]
      by_cases named : name.kind = .name
      · rw [if_pos named, if_pos named, List.takeWhile_append_of_pos passed,
          List.takeWhile_append_of_pos passed, List.dropWhile_append_of_pos passed]
        simp [ends]
      · rw [if_neg named, if_neg named]
        rfl

theorem ofLine_onto (body : List Token) (newline : Token) (rest : List Token)
    (unbroken : Token.Unbroken body) (ends : newline.isNewline = true) :
    ofLine? (body ++ newline :: rest) =
      (ofLine? (body ++ [newline])).map fun line => { line with rest := rest } := by
  have kind : newline.kind = .newline := by simpa [Token.isNewline] using ends
  have visible : newline.isSpace = false := by simp [Token.isSpace, kind]
  have unhashed : newline.isOther '#' = false := by simp [Token.isOther, kind]
  rw [ofLine?, ofLine?, Token.skipSpace_append, Token.skipSpace_append]
  cases start : Token.skipSpace body with
  | nil => simp [Token.skipSpace, visible, unhashed]
  | cons hash tail =>
      have suffix : hash :: tail <:+ body := start ▸ List.dropWhile_suffix Token.isSpace
      simp only [if_neg (List.cons_ne_nil hash tail), List.cons_append]
      by_cases hashed : hash.isOther '#' = true
      · rw [if_pos hashed, if_pos hashed]
        exact ofHash_onto tail newline rest
          (fun token member => unbroken token (suffix.subset (List.mem_cons_of_mem hash member))) ends
      · rw [if_neg hashed, if_neg hashed]
        rfl

theorem ofLine_unbroken (body : List Token) (line : DirectiveLine) (unbroken : Token.Unbroken body)
    (found : ofLine? body = some line) : line.rest = [] := by
  rw [ofLine?] at found
  cases start : Token.skipSpace body with
  | nil =>
      rw [start] at found
      cases found
  | cons hash tail =>
      rw [start] at found
      dsimp only at found
      by_cases hashed : hash.isOther '#' = true
      · rw [if_pos hashed, ofHash?] at found
        cases next : Token.skipSpace tail with
        | nil =>
            rw [next] at found
            cases found
        | cons name operands =>
            rw [next] at found
            dsimp only at found
            by_cases named : name.kind = .name
            · rw [if_pos named] at found
              cases found
              have inner : name :: operands <:+ tail := next ▸ List.dropWhile_suffix Token.isSpace
              have outer : hash :: tail <:+ body := start ▸ List.dropWhile_suffix Token.isSpace
              have passed : ∀ token ∈ operands, (!token.isNewline) = true := by
                intro token member
                rw [unbroken token (outer.subset (List.mem_cons_of_mem hash
                  (inner.subset (List.mem_cons_of_mem name member))))]
                rfl
              rw [← List.append_nil operands, List.dropWhile_append_of_pos passed]
              rfl
            · rw [if_neg named] at found
              cases found
      · rw [if_neg hashed] at found
        cases found

theorem ofLine_first (tokens line : List Token) (lines : List (List Token))
    (split : Token.splitLines tokens = line :: lines) :
    ∃ rest, Token.splitLines rest = lines ∧
      ofLine? tokens = (ofLine? line).map fun found => { found with rest := rest } := by
  induction tokens using Token.lines_induction with
  | nil => cases split
  | last body unbroken filled =>
      rw [Token.splitLines_last body unbroken filled] at split
      cases split
      refine ⟨[], rfl, ?_⟩
      cases found : ofLine? line with
      | none => rfl
      | some written =>
          have nothing := ofLine_unbroken line written unbroken found
          rw [Option.map_some, ← nothing]
  | line body newline rest unbroken ends =>
      rw [Token.splitLines_line body newline rest unbroken ends] at split
      cases split
      exact ⟨rest, rfl, ofLine_onto body newline rest unbroken ends⟩

end DirectiveLine

namespace Engine

def andThen (outcome : State × Option Failure) (next : State → State × Option Failure) :
    State × Option Failure :=
  match outcome with
  | (after, some failure) => (after, some failure)
  | (after, none) => next after

@[simp] theorem andThen_assoc (outcome : State × Option Failure)
    (second third : State → State × Option Failure) :
    andThen (andThen outcome second) third =
      andThen outcome (fun state => andThen (second state) third) := by
  obtain ⟨after, result⟩ := outcome
  cases result <;> rfl

@[simp] theorem andThen_pure (outcome : State × Option Failure) :
    andThen outcome (fun state => (state, none)) = outcome := by
  obtain ⟨after, result⟩ := outcome
  cases result <;> rfl

end Engine

namespace Engine.Context

variable (context : Context) (floor : Nat)

def line (line : List Token) (state : State) : State × Option Failure :=
  match DirectiveLine.ofLine? line with
  | some found => context.directive floor found.name found.operands state
  | none =>
      (if state.isActive then state.emit (state.macros.expandAll [] line) else state, none)

def page : List (List Token) → State → State × Option Failure
  | [], state => (state, none)
  | line :: lines, state => andThen (context.line floor line state) (page lines)

@[simp] theorem lines_nil (lineStart : Bool) : context.lines floor lineStart [] = fun state => (state, none) := by
  funext state
  rw [lines]

theorem lines_found (tokens : List Token) (line : DirectiveLine) (state : State)
    (found : DirectiveLine.ofLine? tokens = some line) :
    context.lines floor true tokens state =
      andThen (context.directive floor line.name line.operands state)
        (context.lines floor true line.rest) := by
  rw [lines_directive context floor tokens line state found]
  rfl

theorem lines_line (body : List Token) (newline : Token) (rest : List Token) (state : State)
    (unbroken : Token.Unbroken body) (ends : newline.isNewline = true)
    (closing : state.isActive = true → DirectiveLine.ofLine? (body ++ [newline]) = none →
      Call.Closing body) :
    context.lines floor true (body ++ newline :: rest) state =
      andThen (context.line floor (body ++ [newline]) state) (context.lines floor true rest) := by
  have onto := DirectiveLine.ofLine_onto body newline rest unbroken ends
  rw [line]
  cases found : DirectiveLine.ofLine? (body ++ [newline]) with
  | some line =>
      rw [found] at onto
      exact lines_found context floor _ _ state onto
  | none =>
      rw [found] at onto
      rw [lines_plain context floor _ state onto]
      by_cases active : state.isActive = true
      · rw [lines_restOfLine context floor body newline rest state unbroken ends
          (closing active found) active]
        simp only [if_pos active]
        rfl
      · rw [lines_skipRest context floor body newline rest state unbroken ends (by simpa using active)]
        simp only [if_neg active]
        rfl

-- At the end of a file nothing follows that a call could take, so no parenthesis need be closed.
theorem lines_rest (tokens : List Token) (state : State) (unbroken : Token.Unbroken tokens) :
    context.lines floor false tokens state =
      (if state.isActive then state.emit (state.macros.expandAll [] tokens) else state, none) := by
  by_cases active : state.isActive = true
  · rw [if_pos active]
    induction measured : tokens.length using Nat.strongRecOn generalizing tokens state with
    | ind size ih =>
        cases tokens with
        | nil => simp [MacroTable.expandAll, Expansion.empty, State.emit, Log.reportAll]
        | cons token tokens =>
            have suffix := state.macros.expandHead_suffix [] token tokens
            have shorter : (state.macros.expandHead [] token tokens).2.length < size := by
              have bound := suffix.length_le
              rw [List.length_cons] at measured
              omega
            rw [lines_active context floor token tokens state active,
              unbroken token List.mem_cons_self, MacroTable.expandAll_cons]
            rw [ih _ shorter _ (state.emit (state.macros.expandHead [] token tokens).1)
              (fun later member => unbroken later (List.mem_cons_of_mem _ (suffix.subset member)))
              active rfl, State.emit_macros, State.emit_append]
  · rw [if_neg active]
    induction tokens with
    | nil => rw [lines]
    | cons token tokens ih =>
        rw [lines_inactive context floor token tokens state (by simpa using active),
          unbroken token List.mem_cons_self]
        exact ih fun later member => unbroken later (List.mem_cons_of_mem token member)

theorem lines_last (body : List Token) (state : State) (unbroken : Token.Unbroken body) :
    context.lines floor true body state = context.line floor body state := by
  rw [line]
  cases found : DirectiveLine.ofLine? body with
  | some line =>
      have nothing := DirectiveLine.ofLine_unbroken body line unbroken found
      rw [lines_found context floor body line state found, nothing, lines_nil]
      exact andThen_pure _
  | none => rw [lines_plain context floor body state found, lines_rest context floor body state unbroken]

-- The tokens after the lines may be cut anywhere, but nothing may follow a line without an end.
theorem lines_page (tokens rest : List Token) (state : State) (fits : Token.Ended tokens ∨ rest = [])
    (closing : ∀ line ∈ Token.splitLines tokens,
      DirectiveLine.ofLine? line = none → Call.Closing line) :
    context.lines floor true (tokens ++ rest) state =
      andThen (context.page floor (Token.splitLines tokens) state)
        (context.lines floor true rest) := by
  induction tokens using Token.lines_induction generalizing state with
  | nil => rfl
  | last body unbroken filled =>
      have atEnd := Token.rest_of_unended body rest unbroken filled fits
      rw [Token.splitLines_last body unbroken filled, atEnd, List.append_nil,
        lines_last context floor body state unbroken, page, lines_nil, andThen_assoc]
      exact (andThen_pure _).symm
  | line body newline later unbroken ends ih =>
      rw [Token.splitLines_line body newline later unbroken ends] at closing ⊢
      have here : DirectiveLine.ofLine? (body ++ [newline]) = none → Call.Closing body := by
        intro plain
        obtain ⟨depth, closed⟩ := closing _ List.mem_cons_self plain
        exact ⟨depth, (Call.closesAll_newline depth body newline ends) ▸ closed⟩
      rw [List.append_assoc, List.cons_append,
        lines_line context floor body newline (later ++ rest) state unbroken ends (fun _ => here),
        page, andThen_assoc]
      congr 1
      funext reached
      exact ih reached (fits.imp_left (Token.ended_rest body newline later))
        fun line member => closing line (List.mem_cons_of_mem _ member)

end Engine.Context

end CPreprocessor
