import CPreprocessor.Macro.Call

/-!
Macro expansion. A macro's name, with its argument list if it takes one, is replaced by its body;
the replacement is scanned again with the name on the guard, where it is not expanded. Each such
scan has one name less to expand, so expansion ends.
-/

set_option autoImplicit false

namespace CPreprocessor

structure Expansion where
  tokens : List Token
  diagnostics : List Diagnostic
deriving DecidableEq, Repr

namespace Expansion

def empty : Expansion := ⟨[], []⟩

def append (first second : Expansion) : Expansion :=
  ⟨first.tokens ++ second.tokens, first.diagnostics ++ second.diagnostics⟩

def verbatim (tokens : List Token) : Expansion := ⟨tokens, []⟩

def faulty (tokens : List Token) (name : Token) (problem : Problem) : Expansion :=
  ⟨tokens, [problem.located name.location]⟩

def unterminated (name : Token) (definition : Macro) : Expansion :=
  faulty [name] name (.unterminatedCall definition.key)

def misfit (name : Token) (definition : Macro) (given : Nat) (tokens rest : List Token) :
    Expansion :=
  faulty (name :: tokens.take (tokens.length - rest.length)) name
    (.wrongArity definition.key given definition.params.length)

end Expansion

namespace MacroTable

def unguarded (table : MacroTable) (guard : List Text) : Nat :=
  (table.definitions.filter fun definition => definition.key ∉ guard).length

theorem unguarded_cons_lt {table : MacroTable} {guard : List Text} {definition : Macro}
    (member : definition ∈ table.definitions) (fresh : definition.key ∉ guard) :
    table.unguarded (definition.key :: guard) < table.unguarded guard := by
  have split : (table.definitions.filter fun other => decide (other.key ∉ definition.key :: guard)) =
      (table.definitions.filter fun other => decide (other.key ∉ guard)).filter
        fun other => decide (other.key ≠ definition.key) := by
    rw [List.filter_filter]
    apply List.filter_congr
    intro other _
    simp [List.mem_cons, not_or]
  unfold unguarded
  rw [split]
  apply List.length_filter_lt_length_iff_exists.mpr
  exact ⟨definition, by simp [member, fresh], by simp⟩

def expandAll (table : MacroTable) (guard : List Text) (tokens : List Token) : Expansion :=
  match tokens with
  | [] => .empty
  | token :: tail =>
      match _use : Use.ofToken table guard token tail with
      | .plain => (Expansion.verbatim [token]).append (table.expandAll guard tail)
      | .unterminated definition =>
          (Expansion.unterminated token definition).append (table.expandAll guard tail)
      | .misfit definition given rest =>
          (Expansion.misfit token definition given tail rest).append (table.expandAll guard rest)
      | .expands definition replacement rest =>
          (table.expandAll (definition.key :: guard) replacement).append
            (table.expandAll guard rest)
termination_by (table.unguarded guard, tokens.length)
decreasing_by
  · exact Prod.Lex.right _ (Nat.lt_succ_self _)
  · exact Prod.Lex.right _ (Nat.lt_succ_self _)
  · exact Prod.Lex.right _ (Nat.lt_succ_of_le (Use.ofToken_misfit _use))
  · obtain ⟨member, fresh, _⟩ := Use.ofToken_expands _use
    exact Prod.Lex.left _ _ (unguarded_cons_lt member fresh)
  · obtain ⟨_, _, less⟩ := Use.ofToken_expands _use
    exact Prod.Lex.right _ (Nat.lt_succ_of_le less)

def expandHead (table : MacroTable) (guard : List Text) (token : Token) (tail : List Token) :
    Expansion × List Token :=
  match Use.ofToken table guard token tail with
  | .plain => (.verbatim [token], tail)
  | .unterminated definition => (.unterminated token definition, tail)
  | .misfit definition given rest => (.misfit token definition given tail rest, rest)
  | .expands definition replacement rest =>
      (table.expandAll (definition.key :: guard) replacement, rest)

theorem expandHead_rest_le (table : MacroTable) (guard : List Text) (token : Token)
    (tail : List Token) : (table.expandHead guard token tail).2.length ≤ tail.length := by
  unfold expandHead
  split
  · exact Nat.le_refl _
  · exact Nat.le_refl _
  · exact Use.ofToken_misfit ‹_›
  · exact (Use.ofToken_expands ‹_›).2.2

end MacroTable

end CPreprocessor
