import Mathlib.Data.List.Chain
import CPreprocessor.Proofs.Macro.Agreement

/-!
Where the expansion of object-like macros stops. A name stays unexpanded only while it is itself
being expanded, so it was mentioned along the way that led from it: it lies on a cycle of the
relation that a macro's body mentions a name. Without cycles every defined name is expanded.
-/

set_option autoImplicit false

namespace CPreprocessor

namespace MacroTable

def ObjectLike (table : MacroTable) : Prop :=
  ∀ definition ∈ table.definitions, definition.isFunctionLike = false

instance (table : MacroTable) : Decidable table.ObjectLike :=
  inferInstanceAs (Decidable (∀ definition ∈ table.definitions, definition.isFunctionLike = false))

def Mentions (table : MacroTable) (outer inner : Text) : Prop :=
  ∃ definition, table.lookup outer = some definition ∧
    ∃ token ∈ definition.body, token.kind = .name ∧ token.text = inner

def Settled (table : MacroTable) (token : Token) : Prop :=
  token.kind = .name → table.contains token.text = false

end MacroTable

theorem Use.ofToken_settled (table : MacroTable) (guard : List Text) (token : Token)
    (tokens : List Token) (settled : table.Settled token) :
    ofToken table guard token tokens = .plain := by
  rw [ofToken]
  by_cases open_ : token.kind = .name ∧ token.text ∉ guard
  · have undefined : table.lookup token.text = none := by
      simpa [MacroTable.contains] using settled open_.1
    rw [if_pos open_, undefined]
  · rw [if_neg open_]

theorem Use.ofToken_object (table : MacroTable) (objects : table.ObjectLike) (guard : List Text)
    (token : Token) (tokens : List Token) :
    (ofToken table guard token tokens = .plain ∧ (table.Settled token ∨ token.text ∈ guard)) ∨
      ∃ definition, token.kind = .name ∧ table.lookup token.text = some definition ∧
        ofToken table guard token tokens = .expands definition definition.body tokens := by
  by_cases guarded : token.text ∈ guard
  · refine .inl ⟨?_, .inr guarded⟩
    rw [ofToken, if_neg (fun open_ => open_.2 guarded)]
  · by_cases settled : table.Settled token
    · exact .inl ⟨ofToken_settled table guard token tokens settled, .inl settled⟩
    · obtain ⟨named, defined⟩ := Classical.not_imp.mp settled
      obtain ⟨definition, found⟩ := Option.isSome_iff_exists.mp (Bool.of_not_eq_false defined)
      have plain := objects definition (List.mem_of_find?_eq_some found)
      refine .inr ⟨definition, named, found, ?_⟩
      rw [ofToken, if_pos ⟨named, guarded⟩, found]
      simp only [plain]
      rfl

namespace MacroTable

-- The names being expanded, innermost first: each was mentioned by the one around it, and the
-- innermost one mentions every name that is still to be read.
structure Leads (table : MacroTable) (guard : List Text) (tokens : List Token) : Prop where
  chain : guard.IsChain fun inner outer => table.Mentions outer inner
  mentioned : ∀ outer ∈ guard.head?, ∀ token ∈ tokens, token.kind = .name →
    table.Mentions outer token.text

theorem Leads.tail {table : MacroTable} {guard : List Text} {token : Token} {tokens : List Token}
    (leads : table.Leads guard (token :: tokens)) : table.Leads guard tokens :=
  ⟨leads.chain, fun outer first other member =>
    leads.mentioned outer first other (List.mem_cons_of_mem token member)⟩

theorem Leads.enter {table : MacroTable} {guard : List Text} {token : Token} {tokens : List Token}
    (leads : table.Leads guard (token :: tokens)) (definition : Macro) (named : token.kind = .name)
    (found : table.lookup token.text = some definition) :
    table.Leads (definition.key :: guard) definition.body := by
  have same : definition.key = token.text := by simpa using List.find?_some found
  rw [same]
  refine ⟨List.isChain_cons.mpr ⟨?_, leads.chain⟩, ?_⟩
  · intro outer first
    exact leads.mentioned outer first token List.mem_cons_self named
  · intro outer first other member spelled
    cases first
    exact ⟨definition, found, other, member, spelled, rfl⟩

theorem mentions_innermost (table : MacroTable) (innermost : Text) (outer : List Text)
    (chain : (innermost :: outer).IsChain fun inner outer => table.Mentions outer inner) :
    ∀ name ∈ innermost :: outer, Relation.ReflTransGen table.Mentions name innermost := by
  induction outer generalizing innermost with
  | nil =>
      intro name member
      rw [List.mem_singleton.mp member]
  | cons next outer ih =>
      obtain ⟨step, rest⟩ := List.isChain_cons_cons.mp chain
      intro name member
      rcases List.mem_cons.mp member with rfl | inside
      · exact .refl
      · exact (ih next rest name inside).tail step

-- From a name on the guard to the innermost one, and back to it by what that one mentions.
theorem Leads.cycle {table : MacroTable} {guard : List Text} {token : Token} {tokens : List Token}
    (leads : table.Leads guard (token :: tokens)) (named : token.kind = .name)
    (guarded : token.text ∈ guard) : Relation.TransGen table.Mentions token.text token.text := by
  cases guard with
  | nil => cases guarded
  | cons innermost outer =>
      exact .tail' (table.mentions_innermost innermost outer leads.chain token.text guarded)
        (leads.mentioned innermost rfl token List.mem_cons_self named)

-- The induction is that of expansion; the guard and what is read stay linked by mentions.
theorem expandAll_left (table : MacroTable) (objects : table.ObjectLike) (guard : List Text)
    (tokens : List Token) (leads : table.Leads guard tokens) :
    ∀ token ∈ (table.expandAll guard tokens).tokens, table.Settled token ∨
      Relation.TransGen table.Mentions token.text token.text := by
  induction guard, tokens using table.expandAll_induction with
  | nil guard => simp [expandAll, Expansion.empty]
  | cons guard token tail inner later =>
      rw [expandAll_cons]
      rcases Use.ofToken_object table objects guard token tail with
        ⟨plain, kept⟩ | ⟨definition, named, lookup, expands⟩
      · have head : table.expandHead guard token tail = (.verbatim [token], tail) := by
          rw [expandHead, plain]
        rw [head] at later ⊢
        refine List.forall_mem_append.mpr ⟨List.forall_mem_singleton.mpr ?_, later leads.tail⟩
        by_cases named : token.kind = .name
        · exact kept.imp_right (leads.cycle named)
        · exact .inl fun same => absurd same named
      · have head : table.expandHead guard token tail =
            (table.expandAll (definition.key :: guard) definition.body, tail) := by
          rw [expandHead, expands]
        rw [head] at later ⊢
        exact List.forall_mem_append.mpr
          ⟨inner _ _ _ expands (leads.enter definition named lookup), later leads.tail⟩

theorem expandHead_left (table : MacroTable) (objects : table.ObjectLike) (token : Token)
    (tail : List Token) :
    ∀ other ∈ (table.expandHead [] token tail).1.tokens, table.Settled other ∨
      Relation.TransGen table.Mentions other.text other.text := by
  have leads : table.Leads [] (token :: tail) := ⟨.nil, fun outer first => nomatch first⟩
  have whole := table.expandAll_left objects [] (token :: tail) leads
  rw [expandAll_cons] at whole
  exact (List.forall_mem_append.mp whole).1

theorem expandAll_settled (table : MacroTable) (guard : List Text) (tokens : List Token)
    (settled : ∀ token ∈ tokens, table.Settled token) :
    table.expandAll guard tokens = .verbatim tokens := by
  induction tokens with
  | nil => rw [expandAll]; rfl
  | cons token tail ih =>
      obtain ⟨first, others⟩ := List.forall_mem_cons.mp settled
      rw [expandAll_cons, expandHead, Use.ofToken_settled table guard token tail first]
      dsimp only
      rw [ih others]
      rfl

theorem object_expansion_complete (table : MacroTable) (objects : table.ObjectLike)
    (tokens : List Token) (position : Fin tokens.length) :
    let result := (table.expandHead [] (tokens.get position) (tokens.drop (position + 1))).1.tokens
    (∀ token ∈ result, token.kind = .name → table.contains token.text = true →
      Relation.TransGen table.Mentions token.text token.text) ∧
    ((∀ name, ¬ Relation.TransGen table.Mentions name name) →
      (∀ token ∈ result, token.kind = .name → table.contains token.text = false) ∧
        table.expandAll [] result = .verbatim result) := by
  intro result
  have left := table.expandHead_left objects (tokens.get position) (tokens.drop (position + 1))
  refine ⟨?_, ?_⟩
  · intro token member named defined
    refine (left token member).resolve_left fun settled => ?_
    rw [settled named] at defined
    cases defined
  · intro acyclic
    have settled : ∀ token ∈ result, table.Settled token := fun token member =>
      (left token member).resolve_right (acyclic token.text)
    exact ⟨settled, table.expandAll_settled [] result settled⟩

theorem acyclic_of_rank (table : MacroTable) (rank : Text → Nat)
    (falls : ∀ definition ∈ table.definitions, ∀ token ∈ definition.body, token.kind = .name →
      rank token.text < rank definition.key) (name : Text) :
    ¬ Relation.TransGen table.Mentions name name := by
  intro cycle
  have lower : ∀ outer inner, table.Mentions outer inner → rank inner < rank outer := by
    rintro outer inner ⟨definition, found, token, member, named, rfl⟩
    have same : definition.key = outer := by simpa using List.find?_some found
    exact same ▸ falls definition (List.mem_of_find?_eq_some found) token member named
  have descends : Relation.TransGen (fun outer inner : Nat => inner < outer) (rank name) (rank name) :=
    cycle.lift rank lower
  rw [Relation.transGen_eq_self] at descends
  exact Nat.lt_irrefl _ descends

namespace Sample

-- Both ways from the first name lead into the same cycle, which does not lead back to it.
def cyclic : MacroTable :=
  ⟨[⟨.spelled .name "A", none, [.spelled .name "B", .spelled .name "C"]⟩,
    ⟨.spelled .name "B", none, [.spelled .name "C", .spelled .number "1"]⟩,
    ⟨.spelled .name "C", none, [.spelled .name "B"]⟩]⟩

-- Both ways from the first name lead to the same name, which is expanded twice.
def diamond : MacroTable :=
  ⟨[⟨.spelled .name "ABCD", none, [.spelled .name "ABC", .spelled .name "BCD"]⟩,
    ⟨.spelled .name "ABC", none, [.spelled .name "BC"]⟩,
    ⟨.spelled .name "BCD", none, [.spelled .name "BC"]⟩,
    ⟨.spelled .name "BC", none, [.spelled .number "1"]⟩]⟩

end Sample

open Sample in
theorem object_expansion_complete_sample :
    (cyclic.ObjectLike ∧
      (cyclic.expandHead [] (.spelled .name "A") []).1.tokens =
        [.spelled .name "B", .spelled .number "1", .spelled .name "C", .spelled .number "1"] ∧
      Relation.TransGen cyclic.Mentions "B".toList "B".toList) ∧
    diamond.ObjectLike ∧ (∀ name, ¬ Relation.TransGen diamond.Mentions name name) ∧
      (diamond.expandHead [] (.spelled .name "ABCD") []).1.tokens =
        [.spelled .number "1", .spelled .number "1"] ∧
      diamond.expandAll [] [.spelled .number "1", .spelled .number "1"] =
        .verbatim [.spelled .number "1", .spelled .number "1"] := by
  have objects : cyclic.ObjectLike := by decide
  have looped : (cyclic.expandHead [] (.spelled .name "A") []).1.tokens =
      [.spelled .name "B", .spelled .number "1", .spelled .name "C", .spelled .number "1"] := by cbv
  have cycles := (object_expansion_complete cyclic objects [.spelled .name "A"] ⟨0, by decide⟩).1
  have plain : diamond.ObjectLike := by decide
  have expanded : (diamond.expandHead [] (.spelled .name "ABCD") []).1.tokens =
      [.spelled .number "1", .spelled .number "1"] := by cbv
  have acyclic := diamond.acyclic_of_rank List.length (by decide)
  have again := ((object_expansion_complete diamond plain [.spelled .name "ABCD"]
    ⟨0, by decide⟩).2 acyclic).2
  refine ⟨⟨objects, looped, cycles (.spelled .name "B") ?_ rfl (by decide)⟩, plain, acyclic,
    expanded, expanded ▸ again⟩
  exact looped ▸ List.mem_cons_self

end MacroTable

end CPreprocessor
