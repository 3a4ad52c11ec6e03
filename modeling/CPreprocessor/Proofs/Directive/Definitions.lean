import Mathlib.Data.List.Nodup
import CPreprocessor.Proofs.Engine.Lines
import CPreprocessor.Proofs.Engine.Steps
import CPreprocessor.Proofs.Macro.Agreement
import CPreprocessor.Proofs.Macro.Calls

/-!
The grammar of `#define`. The operands describe a macro if they are a name, a parameter list right
behind it or none, and a body; whatever is not of this form is refused. A line that is taken changes
the entry of its name and nothing else, and one that is refused leaves one error behind.
-/

set_option autoImplicit false

namespace CPreprocessor

namespace Token

theorem dropWhile_blank (blank inner : List Token)
    (all : ∀ token ∈ blank, token.isWhitespace = true)
    (dark : ∀ token ∈ inner.head?, token.isWhitespace = false) :
    (blank ++ inner).dropWhile isWhitespace = inner := by
  rw [List.dropWhile_append_of_pos all]
  cases inner with
  | nil => rfl
  | cons first more => exact List.dropWhile_cons_of_neg (by simp [dark first rfl])

theorem Trims.unique {run inner : List Token} (trims : Trims run inner) : inner = trim run := by
  obtain ⟨lead, trail, whole, blank⟩ := trims.ends
  obtain ⟨leads, trails⟩ := List.forall_mem_append.mp blank
  cases inner with
  | nil => exact ((trim_eq_nil run).mpr (by rw [whole]; exact blank)).symm
  | cons first more =>
      have front : run.dropWhile isWhitespace = first :: more ++ trail := by
        rw [whole]
        exact dropWhile_blank lead _ leads fun token head => trims.head token head
      have back : (first :: more ++ trail).reverse.dropWhile isWhitespace =
          (first :: more).reverse := by
        rw [List.reverse_append]
        refine dropWhile_blank _ _ (fun token member => trails token (List.mem_reverse.mp member)) ?_
        rw [List.head?_reverse]
        exact trims.last
      rw [trim, trimEnd, front, back, List.reverse_reverse]

end Token

namespace Operand

inductive Listed : List Token → List Token → Prop where
  | last (before after : List Token) (name close : Token)
      (lead : ∀ token ∈ before, token.isSpace = true) (named : name.kind = .name)
      (trail : ∀ token ∈ after, token.isSpace = true) (closes : close.isOther ')' = true) :
      Listed [name] (before ++ name :: (after ++ [close]))
  | more (before after names rest : List Token) (name comma : Token)
      (lead : ∀ token ∈ before, token.isSpace = true) (named : name.kind = .name)
      (trail : ∀ token ∈ after, token.isSpace = true) (separates : comma.isOther ',' = true)
      (later : Listed names rest) :
      Listed (name :: names) (before ++ name :: (after ++ comma :: rest))

inductive ParameterList : List Token → List Token → Prop where
  | none (blank : List Token) (close : Token) (spaces : ∀ token ∈ blank, token.isSpace = true)
      (closes : close.isOther ')' = true) : ParameterList [] (blank ++ [close])
  | some (names listed : List Token) (list : Listed names listed)
      (distinct : (names.map Token.text).Nodup) : ParameterList names listed

inductive Describes : List Token → Macro → Prop where
  | object (blank rest body : List Token) (name : Token)
      (spaces : ∀ token ∈ blank, token.isSpace = true) (named : name.kind = .name)
      (bare : ∀ token ∈ rest.head?, token.isOther '(' = false) (trims : Token.Trims rest body) :
      Describes (blank ++ name :: rest) ⟨name, none, body⟩
  | function (blank params listed rest body : List Token) (name paren : Token)
      (spaces : ∀ token ∈ blank, token.isSpace = true) (named : name.kind = .name)
      (opens : paren.isOther '(' = true) (list : ParameterList params listed)
      (trims : Token.Trims rest body) :
      Describes (blank ++ name :: paren :: (listed ++ rest)) ⟨name, some params, body⟩

section

variable (paren : Token)

theorem texts_concat (seen : List Token) (parameter : Token)
    (distinct : (seen.map Token.text).Nodup)
    (fresh : ¬ seen.any (·.text == parameter.text) = true) :
    ((seen ++ [parameter]).map Token.text).Nodup := by
  rw [List.map_append, List.map_singleton, List.nodup_append_comm, List.singleton_append,
    List.nodup_cons]
  refine ⟨fun member => fresh ?_, distinct⟩
  obtain ⟨other, among, same⟩ := List.mem_map.mp member
  exact List.any_eq_true.mpr ⟨other, among, beq_iff_eq.mpr same⟩

theorem texts_unseen (seen later : List Token) (name : Token)
    (distinct : ((seen ++ name :: later).map Token.text).Nodup) :
    ¬ seen.any (·.text == name.text) = true := by
  intro again
  obtain ⟨other, among, same⟩ := List.any_eq_true.mp again
  rw [List.map_append, List.nodup_append] at distinct
  exact distinct.2.2 other.text (List.mem_map_of_mem among) name.text (by simp) (beq_iff_eq.mp same)

-- The loop keeps the names that it has seen apart.
theorem moreParameters_listed (seen tokens params rest : List Token)
    (distinct : (seen.map Token.text).Nodup)
    (found : moreParameters paren seen tokens = .ok (params, rest)) :
    ∃ names listed, params = seen ++ names ∧ tokens = listed ++ rest ∧ Listed names listed ∧
      (params.map Token.text).Nodup := by
  fun_induction moreParameters paren seen tokens with
  | case1 seen tokens start => cases found
  | case2 seen tokens parameter tail start unnamed => cases found
  | case3 seen tokens parameter tail start named again => cases found
  | case4 seen tokens parameter tail start named fresh next => cases found
  | case5 seen tokens parameter tail start named fresh comma after next separates ih =>
      obtain ⟨lead, rfl, leads⟩ := Token.skipSpace_split tokens tail parameter start
      obtain ⟨trail, rfl, trails⟩ := Token.skipSpace_split tail after comma next
      obtain ⟨names, listed, params, rfl, list, apart⟩ :=
        ih (texts_concat seen parameter distinct fresh) found
      refine ⟨parameter :: names, _, ?_, ?_, .more lead trail names listed parameter comma leads
        (not_not.mp named) trails separates list, apart⟩
      · rw [params, List.append_assoc]
        rfl
      · simp [List.append_assoc]
  | case6 seen tokens parameter tail start named fresh close after next comma closes =>
      obtain ⟨lead, rfl, leads⟩ := Token.skipSpace_split tokens tail parameter start
      obtain ⟨trail, rfl, trails⟩ := Token.skipSpace_split tail after close next
      cases found
      refine ⟨[parameter], _, rfl, ?_, .last lead trail parameter close leads (not_not.mp named)
        trails closes, texts_concat seen parameter distinct fresh⟩
      simp [List.append_assoc]
  | case7 seen tokens parameter tail start named fresh separator after next comma closes => cases found

theorem moreParameters_turn (seen before trail after : List Token) (name separator : Token)
    (lead : ∀ token ∈ before, token.isSpace = true) (named : name.kind = .name)
    (fresh : ¬ seen.any (·.text == name.text) = true)
    (blank : ∀ token ∈ trail, token.isSpace = true) (visible : separator.isSpace = false) :
    moreParameters paren seen (before ++ name :: (trail ++ separator :: after)) =
      if separator.isOther ',' then moreParameters paren (seen ++ [name]) after
      else if separator.isOther ')' then .ok (seen ++ [name], after)
      else .error (separator, .malformedParameterList) := by
  have start := Token.skipSpace_blank before name (trail ++ separator :: after) lead
    (name.isSpace_of_name named)
  have next := Token.skipSpace_blank trail separator after blank visible
  rw [moreParameters]
  split
  · rename_i none
    cases start.symm.trans none
  · rename_i found tail first
    cases start.symm.trans first
    rw [if_neg (not_not_intro named), if_neg fresh]
    split
    · rename_i none
      cases next.symm.trans none
    · rename_i other rest second
      cases next.symm.trans second
      rfl

theorem moreParameters_of_listed (seen names listed rest : List Token) (list : Listed names listed)
    (distinct : ((seen ++ names).map Token.text).Nodup) :
    moreParameters paren seen (listed ++ rest) = .ok (seen ++ names, rest) := by
  induction list generalizing seen with
  | last before after name close lead named trail closes =>
      have turn := moreParameters_turn paren seen before after rest name close lead named
        (texts_unseen seen [] name distinct) trail (close.isSpace_of_other ')' closes)
      rw [Call.isOther_unique close ')' ',' closes (by decide), if_neg Bool.false_ne_true,
        if_pos closes] at turn
      simpa only [List.append_assoc, List.cons_append, List.nil_append] using turn
  | more before after names listed name comma lead named trail separates later ih =>
      have turn := moreParameters_turn paren seen before after (listed ++ rest) name comma lead named
        (texts_unseen seen names name distinct) trail (comma.isSpace_of_other ',' separates)
      have joined : seen ++ name :: names = seen ++ [name] ++ names := by simp
      rw [joined] at distinct ⊢
      rw [if_pos separates, ih (seen ++ [name]) distinct] at turn
      simpa only [List.append_assoc, List.cons_append, List.nil_append] using turn

theorem Listed.starts {names listed : List Token} (list : Listed names listed) :
    ∃ before name tail, listed = before ++ name :: tail ∧
      (∀ token ∈ before, token.isSpace = true) ∧ name.kind = .name := by
  cases list with
  | last before after name close lead named => exact ⟨before, name, _, rfl, lead, named⟩
  | more before after names rest name comma lead named => exact ⟨before, name, _, rfl, lead, named⟩

theorem parameters_iff (tokens params rest : List Token) :
    parameters paren tokens = .ok (params, rest) ↔
      ∃ listed, tokens = listed ++ rest ∧ ParameterList params listed := by
  constructor
  · intro found
    have loop : moreParameters paren [] tokens = .ok (params, rest) →
        ∃ listed, tokens = listed ++ rest ∧ ParameterList params listed := by
      intro more
      obtain ⟨names, listed, same, whole, list, distinct⟩ :=
        moreParameters_listed paren [] tokens params rest List.nodup_nil more
      rw [List.nil_append] at same
      exact ⟨listed, whole, .some params listed (same ▸ list) distinct⟩
    rw [parameters] at found
    split at found
    · exact loop found
    · rename_i close after start
      split at found
      · rename_i closes
        cases found
        obtain ⟨blank, rfl, spaces⟩ := Token.skipSpace_split tokens rest close start
        exact ⟨blank ++ [close], by simp, .none blank close spaces closes⟩
      · exact loop found
  · rintro ⟨listed, rfl, list⟩
    cases list with
    | none blank close spaces closes =>
        have start := Token.skipSpace_blank blank close rest spaces (close.isSpace_of_other ')' closes)
        rw [parameters, List.append_assoc, List.singleton_append, start]
        exact if_pos closes
    | some names listed list distinct =>
        have more := moreParameters_of_listed paren [] params listed rest list distinct
        obtain ⟨before, name, tail, rfl, lead, named⟩ := list.starts
        have start := Token.skipSpace_blank before name (tail ++ rest) lead
          (name.isSpace_of_name named)
        have open_ : ¬ name.isOther ')' = true := by simp [Token.isOther, named]
        rw [List.append_assoc, List.cons_append] at more ⊢
        rw [parameters, start]
        exact (if_neg open_).trans more

end

theorem definition_iff (directive : Token) (operands : List Token) (written : Macro) :
    definition directive operands = .ok written ↔ Describes operands written := by
  constructor
  · intro found
    rw [definition] at found
    split at found
    · cases found
    · rename_i name rest start
      obtain ⟨blank, rfl, spaces⟩ := Token.skipSpace_split operands rest name start
      split at found
      · cases found
      · rename_i named
        have named := not_not.mp named
        split at found
        · cases found
          exact .object blank [] [] name spaces named (by simp) (Token.trims_trim [])
        · rename_i paren inner
          split at found
          · rename_i opens
            cases outcome : parameters paren inner with
            | error fault =>
                rw [outcome] at found
                cases found
            | ok given =>
                rw [outcome] at found
                cases found
                obtain ⟨listed, rfl, list⟩ := (parameters_iff paren inner given.1 given.2).mp outcome
                exact .function blank given.1 listed given.2 _ name paren spaces named opens list
                  (Token.trims_trim given.2)
          · rename_i other
            cases found
            exact .object blank (paren :: inner) _ name spaces named (by simpa using other)
              (Token.trims_trim _)
  · intro described
    cases described with
    | object blank rest body name spaces named bare trims =>
        have start := Token.skipSpace_blank blank name rest spaces (name.isSpace_of_name named)
        rw [definition, start]
        dsimp only
        rw [if_neg (not_not_intro named), trims.unique]
        cases rest with
        | nil => rfl
        | cons paren inner =>
            have other : ¬ paren.isOther '(' = true := by simp [bare paren rfl]
            exact if_neg other
    | function blank params listed rest body name paren spaces named opens list trims =>
        have start := Token.skipSpace_blank blank name (paren :: (listed ++ rest)) spaces
          (name.isSpace_of_name named)
        have given := (parameters_iff paren (listed ++ rest) params rest).mpr ⟨listed, rfl, list⟩
        rw [definition, start]
        dsimp only
        rw [if_neg (not_not_intro named), trims.unique, if_pos opens, given]

end Operand

theorem Problem.level_of_directiveSyntax (problem : Problem)
    (malformed : problem.code = .directiveSyntax) : problem.level = .error := by
  cases problem with
  | unknownDirective name =>
      exact absurd malformed (show Code.unknownDirective ≠ .directiveSyntax by decide)
  | systemIncludeNotFound path fatal =>
      exact absurd malformed (show Code.includeNotFound ≠ .directiveSyntax by decide)
  | _ => rfl

namespace State

structure Defines (state : State) (definition : Macro) (after : State) : Prop where
  own : after.macros.lookup definition.key = some definition
  others : ∀ name, name ≠ definition.key → after.macros.lookup name = state.macros.lookup name
  rest : after = { state with macros := after.macros }

def Refuses (state after : State) : Prop :=
  ∃ report : Diagnostic, report.level = .error ∧ report.code = some .directiveSyntax ∧
    after = { state with log := state.log.report report }

theorem Defines.not_refuses {state after : State} {definition : Macro}
    (defines : state.Defines definition after) : ¬ state.Refuses after := by
  rintro ⟨report, _, _, told⟩
  have silent := congrArg State.log defines.rest
  have longer := congrArg State.log told
  have sizes := congrArg (Array.size ∘ Log.entries) (silent.symm.trans longer)
  simp [Log.report] at sizes

section

variable (state : State) (directive : Token) (operands : List Token)

theorem defineMacro_described (definition : Macro)
    (described : Operand.Describes operands definition) :
    state.Defines definition (state.defineMacro directive operands) := by
  have taken : state.defineMacro directive operands =
      { state with macros := state.macros.define definition } := by
    rw [defineMacro, (Operand.definition_iff directive operands definition).mpr described]
  rw [taken]
  refine ⟨?_, ?_, rfl⟩
  · exact (MacroTable.lookup_define _ _ _).trans (if_pos rfl)
  · intro name differs
    exact (MacroTable.lookup_define _ _ _).trans (if_neg differs.symm)

theorem defineMacro_undescribed (none : ¬ ∃ definition, Operand.Describes operands definition) :
    state.Refuses (state.defineMacro directive operands) := by
  cases outcome : Operand.definition directive operands with
  | ok definition =>
      exact absurd ⟨definition, (Operand.definition_iff directive operands definition).mp outcome⟩ none
  | error fault =>
      have malformed := Operand.definition_fault directive operands fault outcome
      refine ⟨fault.2.located fault.1.location, fault.2.level_of_directiveSyntax malformed,
        congrArg some malformed, ?_⟩
      rw [defineMacro, outcome]
      rfl

end

theorem define_line_exact (state : State) (directive : Token) (operands : List Token) :
    let after := state.defineMacro directive operands
    (∀ definition, Operand.Describes operands definition → state.Defines definition after) ∧
    ((∃ definition, state.Defines definition after) ↔
      ∃ definition, Operand.Describes operands definition) ∧
    (state.Refuses after ↔ ¬ ∃ definition, Operand.Describes operands definition) ∧
    ∀ first second, Operand.Describes operands first → Operand.Describes operands second →
      first = second := by
  intro after
  refine ⟨state.defineMacro_described directive operands, ⟨?_, ?_⟩, ⟨?_, ?_⟩, ?_⟩
  · rintro ⟨definition, defines⟩
    by_contra none
    exact defines.not_refuses (state.defineMacro_undescribed directive operands none)
  · rintro ⟨definition, described⟩
    exact ⟨definition, state.defineMacro_described directive operands definition described⟩
  · rintro refused ⟨definition, described⟩
    exact (state.defineMacro_described directive operands definition described).not_refuses refused
  · exact state.defineMacro_undescribed directive operands
  · intro first second one other
    have same := ((Operand.definition_iff directive operands first).mpr one).symm.trans
      ((Operand.definition_iff directive operands second).mpr other)
    exact Except.ok.inj same

theorem define_line_exact_sample :
    let directive : Token := ⟨(lex [] []).source, .name, "define".toList, ⟨0, 0⟩, ⟨0, 0⟩⟩
    let taken := (lex [] " F( a\t,b )  a+b ".toList).tokens
    let refused := (lex [] "F(a,b,a) a".toList).tokens
    (∃ definition, initial.Defines definition (initial.defineMacro directive taken) ∧
      definition.key = "F".toList ∧ definition.params.map Token.text = [['a'], ['b']] ∧
      definition.body.map Token.text = [['a'], ['+'], ['b']]) ∧
    initial.Refuses (initial.defineMacro directive refused) := by
  intro directive taken refused
  have written : ∃ definition ∈ (Operand.definition directive taken).toOption,
      definition.key = "F".toList ∧ definition.params.map Token.text = [['a'], ['b']] ∧
      definition.body.map Token.text = [['a'], ['+'], ['b']] := by decide +kernel
  obtain ⟨definition, read, parts⟩ := written
  have described : Operand.Describes taken definition := by
    rw [← Operand.definition_iff directive]
    cases outcome : Operand.definition directive taken with
    | error fault =>
        rw [outcome] at read
        cases read
    | ok other =>
        rw [outcome] at read
        exact congrArg Except.ok (Option.some.inj read)
  have malformed : ¬ ∃ definition, Operand.Describes refused definition := by
    rintro ⟨other, grammatical⟩
    have accepted := (Operand.definition_iff directive refused other).mpr grammatical
    have failed : (Operand.definition directive refused).isOk = false := by decide +kernel
    rw [accepted] at failed
    cases failed
  exact ⟨⟨definition, (define_line_exact initial directive taken).1 definition described, parts⟩,
    (define_line_exact initial directive refused).2.2.1.mpr malformed⟩

end State

end CPreprocessor
