import CPreprocessor.Macro.Table

/-!
Calls: what a token stands for in front of the tokens after it. A function-like macro takes the
argument list that follows its name across blanks; without one its name is plain text.
-/

set_option autoImplicit false

namespace CPreprocessor

namespace Call

def consFirst (token : Token) : List (List Token) → List (List Token)
  | [] => [[token]]
  | argument :: arguments => (token :: argument) :: arguments

/-- Splits the tokens after an opening parenthesis: the arguments up to the parenthesis that closes
it, untrimmed, and the tokens after that. Commas inside further parentheses do not split. -/
def split? (depth : Nat) : List Token → Option (List (List Token) × List Token)
  | [] => none
  | token :: rest =>
      if token.isOther '(' then
        (split? (depth + 1) rest).map fun (arguments, after) => (consFirst token arguments, after)
      else if token.isOther ')' then
        match depth with
        | 0 => some ([[]], rest)
        | depth + 1 =>
            (split? depth rest).map fun (arguments, after) => (consFirst token arguments, after)
      else if token.isOther ',' && depth == 0 then
        (split? depth rest).map fun (arguments, after) => ([] :: arguments, after)
      else
        (split? depth rest).map fun (arguments, after) => (consFirst token arguments, after)

theorem split_rest_lt {depth : Nat} {tokens after : List Token} {arguments : List (List Token)}
    (found : split? depth tokens = some (arguments, after)) : after.length < tokens.length := by
  induction tokens generalizing depth arguments with
  | nil => simp [split?] at found
  | cons token rest ih =>
      unfold split? at found
      split at found
      · obtain ⟨⟨_, _⟩, split, same⟩ := Option.map_eq_some_iff.mp found
        cases same
        exact Nat.lt_succ_of_lt (ih split)
      · split at found
        · cases depth with
          | zero => cases found; exact Nat.lt_succ_self _
          | succ depth =>
              obtain ⟨⟨_, _⟩, split, same⟩ := Option.map_eq_some_iff.mp found
              cases same
              exact Nat.lt_succ_of_lt (ih split)
        · split at found
          · obtain ⟨⟨_, _⟩, split, same⟩ := Option.map_eq_some_iff.mp found
            cases same
            exact Nat.lt_succ_of_lt (ih split)
          · obtain ⟨⟨_, _⟩, split, same⟩ := Option.map_eq_some_iff.mp found
            cases same
            exact Nat.lt_succ_of_lt (ih split)

-- The arguments that a macro with parameters receives. `F()` passes none to a macro that has no
-- parameter.
def arguments (definition : Macro) (raw : List (List Token)) : List (List Token) :=
  match definition.params, raw.map Token.trim with
  | [], [[]] => []
  | _, trimmed => trimmed

end Call

inductive Use where
  | plain
  | unterminated (definition : Macro)
  | misfit (definition : Macro) (given : Nat) (rest : List Token)
  | expands (definition : Macro) (replacement rest : List Token)

namespace Use

def ofCall (definition : Macro) (tokens : List Token) : Use :=
  match Token.skipSpace tokens with
  | [] => .plain
  | token :: inner =>
      if token.isOther '(' then
        match Call.split? 0 inner with
        | none => .unterminated definition
        | some (raw, rest) =>
            let arguments := Call.arguments definition raw
            if arguments.length = definition.params.length then
              .expands definition (definition.substitute arguments) rest
            else .misfit definition arguments.length rest
      else .plain

def ofToken (table : MacroTable) (guard : List Text) (token : Token) (tokens : List Token) : Use :=
  if token.kind = .name ∧ token.text ∉ guard then
    match table.lookup token.text with
    | none => .plain
    | some definition =>
        if definition.isFunctionLike then ofCall definition tokens
        else .expands definition definition.body tokens
  else .plain

theorem ofCall_rest {definition found : Macro} {tokens replacement rest : List Token}
    (use : ofCall definition tokens = .expands found replacement rest) :
    found = definition ∧ rest.length ≤ tokens.length := by
  unfold ofCall at use
  have skipped := Token.skipSpace_length_le tokens
  split at use
  · cases use
  · rename_i token inner same
    rw [same, List.length_cons] at skipped
    split at use
    · split at use
      · cases use
      · rename_i split
        have less := Call.split_rest_lt split
        dsimp only at use
        split at use
        · cases use
          exact ⟨rfl, by omega⟩
        · cases use
    · cases use

theorem ofCall_misfit {definition found : Macro} {given : Nat} {tokens rest : List Token}
    (use : ofCall definition tokens = .misfit found given rest) : rest.length ≤ tokens.length := by
  unfold ofCall at use
  have skipped := Token.skipSpace_length_le tokens
  split at use
  · cases use
  · rename_i token inner same
    rw [same, List.length_cons] at skipped
    split at use
    · split at use
      · cases use
      · rename_i split
        have less := Call.split_rest_lt split
        dsimp only at use
        split at use
        · cases use
        · cases use
          omega
    · cases use

theorem ofToken_expands {table : MacroTable} {guard : List Text} {token : Token}
    {tokens replacement rest : List Token} {definition : Macro}
    (use : ofToken table guard token tokens = .expands definition replacement rest) :
    definition ∈ table.definitions ∧ definition.key ∉ guard ∧ rest.length ≤ tokens.length := by
  unfold ofToken at use
  split at use
  · rename_i open_
    split at use
    · cases use
    · rename_i found lookup
      have member := List.mem_of_find?_eq_some lookup
      have same := List.find?_some lookup
      simp only [beq_iff_eq] at same
      split at use
      · obtain ⟨rfl, less⟩ := ofCall_rest use
        exact ⟨member, same ▸ open_.2, less⟩
      · cases use
        exact ⟨member, same ▸ open_.2, Nat.le_refl _⟩
  · cases use

theorem ofToken_misfit {table : MacroTable} {guard : List Text} {token : Token}
    {tokens rest : List Token} {definition : Macro} {given : Nat}
    (use : ofToken table guard token tokens = .misfit definition given rest) :
    rest.length ≤ tokens.length := by
  unfold ofToken at use
  split at use
  · split at use
    · cases use
    · split at use
      · exact ofCall_misfit use
      · cases use
  · cases use

end Use

end CPreprocessor
