import CPreprocessor.Proofs.Macro.Origins

/-!
Tables that differ in one name. Text that does not hold this name is expanded alike with both, as
long as no body of another macro brings it in.
-/

set_option autoImplicit false

namespace CPreprocessor

namespace Token

def Avoid (name : Text) (tokens : List Token) : Prop := ∀ token ∈ tokens, token.isName name = false

theorem text_ne (token : Token) (name : Text) (named : token.kind = .name)
    (avoids : token.isName name = false) : token.text ≠ name := by
  intro same
  rw [isName, named, same, beq_self_eq_true, beq_self_eq_true] at avoids
  cases avoids

end Token

theorem Use.ofToken_lookup (table : MacroTable) (guard : List Text) (token : Token)
    (definition : Macro) (tokens replacement rest : List Token)
    (use : ofToken table guard token tokens = .expands definition replacement rest) :
    token.kind = .name ∧ table.lookup token.text = some definition := by
  rw [ofToken] at use
  by_cases named : token.kind = .name ∧ token.text ∉ guard
  · rw [if_pos named] at use
    cases found : table.lookup token.text with
    | none =>
        rw [found] at use
        cases use
    | some written =>
        rw [found] at use
        dsimp only at use
        split at use
        · exact ⟨named.1, congrArg some (ofCall_rest use).1.symm⟩
        · cases use
          exact ⟨named.1, rfl⟩
  · rw [if_neg named] at use
    cases use

namespace MacroTable

@[simp] theorem lookup_erase (table : MacroTable) (name key : Text) :
    (table.erase name).lookup key = if name = key then none else table.lookup key := by
  rw [erase, lookup, lookup, List.find?_filter]
  by_cases same : name = key
  · rw [if_pos same, same, List.find?_eq_none]
    simp
  · rw [if_neg same]
    congr 1
    funext definition
    by_cases here : definition.key = key
    · simp [here, Ne.symm same]
    · simp [here]

@[simp] theorem lookup_define (table : MacroTable) (definition : Macro) (key : Text) :
    (table.define definition).lookup key =
      if definition.key = key then some definition else table.lookup key := by
  rw [define, lookup, List.find?_cons]
  by_cases same : definition.key = key
  · rw [if_pos same, same, beq_self_eq_true]
  · rw [if_neg same, beq_false_of_ne same]
    exact (lookup_erase table definition.key key).trans (if_neg same)

-- All other names are defined alike and without this one, which each table defines in its own way
-- or not at all.
structure Alike (name : Text) (first second : Option Macro) (left right : MacroTable) : Prop where
  agree : ∀ key, key ≠ name → right.lookup key = left.lookup key
  bodies : ∀ key definition, key ≠ name → left.lookup key = some definition →
    Token.Avoid name definition.body
  own : left.lookup name = first
  other : right.lookup name = second

theorem alike_erase_define (table : MacroTable) (definition : Macro)
    (bodies : ∀ other ∈ table.definitions, other.key ≠ definition.key →
      Token.Avoid definition.key other.body) :
    Alike definition.key none (some definition) (table.erase definition.key)
      (table.define definition) := by
  refine ⟨?_, ?_, ?_, ?_⟩
  · intro key differs
    rw [lookup_define, lookup_erase, if_neg differs.symm, if_neg differs.symm]
  · intro key other differs found
    rw [lookup_erase, if_neg differs.symm] at found
    have keyed : other.key = key := by simpa using List.find?_some found
    exact bodies other (List.mem_of_find?_eq_some found) (keyed ▸ differs)
  · rw [lookup_erase, if_pos rfl]
  · rw [lookup_define, if_pos rfl]

namespace Alike

variable {name : Text} {first second : Option Macro} {left right : MacroTable}
  (alike : Alike name first second left right)
include alike

theorem define (definition : Macro) (differs : definition.key ≠ name)
    (body : Token.Avoid name definition.body) :
    Alike name first second (left.define definition) (right.define definition) := by
  refine ⟨?_, ?_, ?_, ?_⟩
  · intro key apart
    rw [lookup_define, lookup_define, alike.agree key apart]
  · intro key found apart defined
    rw [lookup_define] at defined
    split at defined
    · cases defined
      exact body
    · exact alike.bodies key found apart defined
  · rw [lookup_define, if_neg differs, alike.own]
  · rw [lookup_define, if_neg differs, alike.other]

theorem erase (removed : Text) (differs : removed ≠ name) :
    Alike name first second (left.erase removed) (right.erase removed) := by
  refine ⟨?_, ?_, ?_, ?_⟩
  · intro key apart
    rw [lookup_erase, lookup_erase, alike.agree key apart]
  · intro key found apart defined
    rw [lookup_erase] at defined
    split at defined
    · cases defined
    · exact alike.bodies key found apart defined
  · rw [lookup_erase, if_neg differs, alike.own]
  · rw [lookup_erase, if_neg differs, alike.other]

theorem ofToken (guard : List Text) (token : Token) (tail : List Token)
    (avoids : token.isName name = false) :
    Use.ofToken right guard token tail = Use.ofToken left guard token tail := by
  rw [Use.ofToken, Use.ofToken]
  by_cases named : token.kind = .name ∧ token.text ∉ guard
  · rw [if_pos named, if_pos named, alike.agree token.text (token.text_ne name named.1 avoids)]
  · rw [if_neg named, if_neg named]

theorem replacement (guard : List Text) (token : Token) (definition : Macro)
    (tail replacement rest : List Token) (avoid : Token.Avoid name (token :: tail))
    (use : Use.ofToken left guard token tail = .expands definition replacement rest) :
    Token.Avoid name replacement := by
  obtain ⟨head, others⟩ := List.forall_mem_cons.mp avoid
  obtain ⟨named, found⟩ := Use.ofToken_lookup left guard token definition tail replacement rest use
  have origin := Use.ofToken_replacement left guard token definition tail replacement rest use
  intro token' member
  rcases List.mem_append.mp (origin member) with body | argument
  · exact alike.bodies token.text definition (token.text_ne name named head) found token' body
  · exact others token' argument

theorem expandHead_of_inner (guard : List Text) (token : Token) (tail : List Token)
    (avoid : Token.Avoid name (token :: tail))
    (inner : ∀ definition replacement rest,
      Use.ofToken left guard token tail = .expands definition replacement rest →
        Token.Avoid name replacement → right.expandAll (definition.key :: guard) replacement =
          left.expandAll (definition.key :: guard) replacement) :
    right.expandHead guard token tail = left.expandHead guard token tail := by
  have head := avoid token List.mem_cons_self
  rw [MacroTable.expandHead, MacroTable.expandHead, alike.ofToken guard token tail head]
  cases use : Use.ofToken left guard token tail with
  | plain => rfl
  | unterminated definition => rfl
  | misfit definition given rest => rfl
  | expands definition replacement rest =>
      dsimp only
      rw [inner definition replacement rest use
        (alike.replacement guard token definition tail replacement rest avoid use)]

theorem expandAll (guard : List Text) (tokens : List Token) (avoid : Token.Avoid name tokens) :
    right.expandAll guard tokens = left.expandAll guard tokens := by
  induction guard, tokens using left.expandAll_induction with
  | nil guard => rw [MacroTable.expandAll, MacroTable.expandAll]
  | cons guard token tail inner later =>
      have unread : Token.Avoid name (left.expandHead guard token tail).2 := fun other member =>
        avoid other (List.mem_cons_of_mem token
          ((left.expandHead_suffix guard token tail).subset member))
      rw [expandAll_cons, expandAll_cons, alike.expandHead_of_inner guard token tail avoid inner,
        later unread]

theorem expandHead (guard : List Text) (token : Token) (tail : List Token)
    (avoid : Token.Avoid name (token :: tail)) :
    right.expandHead guard token tail = left.expandHead guard token tail :=
  alike.expandHead_of_inner guard token tail avoid fun _ replacement _ _ avoids =>
    alike.expandAll _ replacement avoids

end Alike

end MacroTable

end CPreprocessor
