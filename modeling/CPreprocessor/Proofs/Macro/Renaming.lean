import CPreprocessor.Proofs.Lexing.Joining
import CPreprocessor.Proofs.Macro.Calls
import CPreprocessor.Proofs.Macro.Guard

/-!
Parameters are bound names. A definition whose parameters have other names, in its list and in its
body, says the same, whatever names stand in the arguments: all arguments are put in at once, and
only for names of the body.
-/

set_option autoImplicit false

namespace CPreprocessor

namespace Token

def ReadAlike (first second : List Token) : Prop := first.map lexeme = second.map lexeme

section

variable {first second : List Token}

theorem ReadAlike.cons {token : Token} {tail : List Token}
    (alike : ReadAlike (token :: tail) second) :
    ∃ other rest, second = other :: rest ∧ token.lexeme = other.lexeme ∧ ReadAlike tail rest := by
  obtain ⟨other, rest, rfl, head, later⟩ := List.map_eq_cons_iff.mp alike.symm
  exact ⟨other, rest, rfl, head.symm, later.symm⟩

theorem ReadAlike.length (alike : ReadAlike first second) : first.length = second.length := by
  have lengths := congrArg List.length alike
  rwa [List.length_map, List.length_map] at lengths

theorem ReadAlike.take (alike : ReadAlike first second) (count : Nat) :
    ReadAlike (first.take count) (second.take count) := by
  rw [ReadAlike, List.map_take, List.map_take, alike]

theorem ReadAlike.reverse (alike : ReadAlike first second) :
    ReadAlike first.reverse second.reverse := by
  rw [ReadAlike, List.map_reverse, List.map_reverse, alike]

theorem ReadAlike.dropWhile (alike : ReadAlike first second) (holds : Kind → Bool) :
    ReadAlike (first.dropWhile (holds ∘ kind)) (second.dropWhile (holds ∘ kind)) := by
  have kinds : ∀ tokens : List Token, (tokens.dropWhile (holds ∘ kind)).map lexeme =
      (tokens.map lexeme).dropWhile (holds ∘ Lexeme.kind) := fun tokens => by
    rw [List.dropWhile_map]
    rfl
  rw [ReadAlike, kinds, kinds, alike]

theorem ReadAlike.skipSpace (alike : ReadAlike first second) :
    ReadAlike (skipSpace first) (skipSpace second) :=
  alike.dropWhile (· == .spaceTab)

theorem ReadAlike.trim (alike : ReadAlike first second) : ReadAlike (trim first) (trim second) :=
  ((alike.dropWhile Kind.isWhitespace).reverse.dropWhile Kind.isWhitespace).reverse

end

def spellings (arguments : List (List Token)) : List (List Lexeme) := arguments.map (·.map lexeme)

theorem spellings_trim (raw other : List (List Token)) (alike : spellings raw = spellings other) :
    spellings (raw.map trim) = spellings (other.map trim) := by
  induction raw generalizing other with
  | nil =>
      rw [List.map_eq_nil_iff.mp alike.symm]
  | cons run raw ih =>
      obtain ⟨next, rest, rfl, head, later⟩ := List.map_eq_cons_iff.mp alike.symm
      have first : ReadAlike run next := head.symm
      exact congrArg₂ List.cons first.trim (ih rest later.symm)

end Token

open Token (ReadAlike spellings)

namespace Call

theorem level_lexeme (depth : Nat) (token other : Token) (same : token.lexeme = other.lexeme) :
    level? depth token = level? depth other := by
  have others : ∀ c, token.isOther c = other.isOther c := fun c =>
    congrArg (fun lexeme : Lexeme => lexeme.kind == .other && lexeme.text == [c]) same
  rw [level?, level?, others, others]

theorem addToken_lexeme (depth : Nat) (token other : Token) (raw more : List (List Token))
    (same : token.lexeme = other.lexeme) (alike : spellings raw = spellings more) :
    spellings (addToken depth token raw) = spellings (addToken depth other more) := by
  have divided : divides depth token = divides depth other :=
    congrArg (fun lexeme : Lexeme => (lexeme.kind == .other && lexeme.text == [',']) && depth == 0)
      same
  rw [addToken, addToken, divided]
  split
  · exact congrArg (List.cons []) alike
  · cases raw with
    | nil =>
        rw [List.map_eq_nil_iff.mp alike.symm]
        exact congrArg (fun lexeme => [[lexeme]]) same
    | cons run raw =>
        obtain ⟨next, rest, rfl, head, later⟩ := List.map_eq_cons_iff.mp alike.symm
        exact congrArg₂ List.cons (congrArg₂ List.cons same head.symm) later.symm

theorem split_alike (depth : Nat) (first second : List Token) (alike : ReadAlike first second) :
    (split? depth first).map (fun found => (spellings found.1, found.2.map Token.lexeme)) =
      (split? depth second).map (fun found => (spellings found.1, found.2.map Token.lexeme)) := by
  induction first generalizing depth second with
  | nil => rw [List.map_eq_nil_iff.mp alike.symm]
  | cons token first ih =>
      obtain ⟨other, second, rfl, head, later⟩ := alike.cons
      rw [split_cons, split_cons, level_lexeme depth token other head]
      cases step : level? depth other with
      | none => exact congrArg (fun after => some ([[]], after)) later
      | some next =>
          have inner := ih next second later
          dsimp only
          cases left : split? next first with
          | none =>
              rw [left] at inner
              rw [Option.map_eq_none_iff.mp inner.symm]
              rfl
          | some found =>
              rw [left] at inner
              obtain ⟨more, right, same⟩ := Option.map_eq_some_iff.mp inner.symm
              obtain ⟨raws, afters⟩ := Prod.mk.inj same
              rw [right]
              exact congrArg some (congrArg₂ Prod.mk
                (addToken_lexeme depth token other _ _ head raws.symm) afters.symm)

theorem arguments_alike (left right : Macro) (raw other : List (List Token))
    (count : left.params.length = right.params.length) (alike : spellings raw = spellings other) :
    spellings (arguments left raw) = spellings (arguments right other) := by
  have trimmed := Token.spellings_trim raw other alike
  have blanks : Blank raw ↔ Blank other := by
    have read : ∀ runs : List (List Token), Blank runs ↔ spellings (runs.map Token.trim) = [[]] := by
      intro runs
      rw [blank_iff]
      generalize runs.map Token.trim = lists
      constructor
      · rintro rfl
        rfl
      · intro empty
        obtain ⟨run, rfl, none⟩ := List.map_eq_singleton_iff.mp empty
        rw [List.map_eq_nil_iff.mp none]
    rw [read, read, trimmed]
  have params : left.params = [] ↔ right.params = [] := by
    rw [← List.length_eq_zero_iff, count, List.length_eq_zero_iff]
  by_cases passesNone : left.params = [] ∧ Blank raw
  · rw [arguments_of_blank left raw passesNone.2 passesNone.1,
      arguments_of_blank right other (blanks.mp passesNone.2) (params.mp passesNone.1)]
  · rw [arguments_of_passed left raw passesNone,
      arguments_of_passed right other (by rwa [← params, ← blanks]), trimmed]

end Call

namespace Macro

def parameterNames (definition : Macro) : List Text := definition.params.map Token.text

theorem paramIndex_names (definition : Macro) (name : Text) :
    definition.paramIndex? name = definition.parameterNames.idxOf? name := by
  rw [paramIndex?, parameterNames, List.idxOf?, List.findIdx?_map]
  rfl

def fill (definition : Macro) (arguments : List (List Lexeme)) (lexeme : Lexeme) : List Lexeme :=
  if lexeme.kind = .name then
    ((definition.paramIndex? lexeme.text).bind (arguments[·]?)).getD [lexeme]
  else [lexeme]

theorem substituteToken_fill (definition : Macro) (arguments : List (List Token)) (token : Token) :
    (definition.substituteToken arguments token).map Token.lexeme =
      definition.fill (spellings arguments) token.lexeme := by
  have text : token.lexeme.text = token.text := rfl
  rw [substituteToken, fill, text]
  by_cases named : token.kind = .name
  · rw [if_pos named, if_pos (show token.lexeme.kind = .name from named)]
    cases definition.paramIndex? token.text with
    | none => rfl
    | some index =>
        rw [Option.bind_some, Option.bind_some, spellings, List.getElem?_map]
        cases arguments[index]? with
        | none => rfl
        | some argument => rfl
  · rw [if_neg named, if_neg (show ¬ token.lexeme.kind = .name from named)]
    rfl

theorem substitute_fill (definition : Macro) (arguments : List (List Token)) :
    (definition.substitute arguments).map Token.lexeme =
      (definition.body.map Token.lexeme).flatMap (definition.fill (spellings arguments)) := by
  rw [substitute, List.map_flatMap, List.flatMap_map]
  exact List.flatMap_congr fun token _ => definition.substituteToken_fill arguments token

theorem fill_bound (definition : Macro) (arguments : List (List Lexeme)) (name : Text) (index : Nat)
    (found : definition.paramIndex? name = some index) (inside : index < arguments.length) :
    definition.fill arguments ⟨.name, name⟩ = arguments[index] := by
  rw [fill, if_pos rfl, found, Option.bind_some, List.getElem?_eq_getElem inside]
  rfl

theorem fill_free (definition : Macro) (arguments : List (List Lexeme)) (lexeme : Lexeme)
    (free : lexeme.kind = .name → lexeme.text ∉ definition.parameterNames) :
    definition.fill arguments lexeme = [lexeme] := by
  rw [fill]
  split
  · rename_i named
    rw [paramIndex_names, List.idxOf?_eq_none_iff.mpr (free named)]
    rfl
  · rfl

def renamed (definition : Macro) (rename : Text → Text) (lexeme : Lexeme) : Lexeme :=
  if lexeme.kind = .name ∧ lexeme.text ∈ definition.parameterNames then
    { lexeme with text := rename lexeme.text }
  else lexeme

/-- The second definition is the first with other names for its parameters. No two of them get the
same name, and none gets a name that the body has besides the parameters. -/
structure Renames (rename : Text → Text) (left right : Macro) : Prop where
  key : left.key = right.key
  functionLike : left.isFunctionLike = right.isFunctionLike
  parameters : right.parameterNames = left.parameterNames.map rename
  body : right.body.map Token.lexeme = left.body.map (left.renamed rename ∘ Token.lexeme)
  oneToOne : ∀ first ∈ left.parameterNames, ∀ second ∈ left.parameterNames,
    rename first = rename second → first = second
  free : ∀ token ∈ left.body, token.kind = .name → token.text ∉ left.parameterNames →
    token.text ∉ right.parameterNames

theorem idxOf_rename (rename : Text → Text) (names : List Text) (name : Text)
    (apart : ∀ other ∈ names, rename other = rename name → other = name) :
    (names.map rename).idxOf? (rename name) = names.idxOf? name := by
  induction names with
  | nil => rfl
  | cons other names ih =>
      obtain ⟨here, later⟩ := List.forall_mem_cons.mp apart
      rw [List.map_cons, List.idxOf?_cons, List.idxOf?_cons, ih later]
      by_cases same : other = name
      · rw [same, beq_self_eq_true, beq_self_eq_true]
      · rw [beq_false_of_ne same, beq_false_of_ne (mt here same)]

namespace Renames

variable {rename : Text → Text} {left right : Macro} (renames : Renames rename left right)
include renames

theorem count : left.params.length = right.params.length := by
  have lengths := congrArg List.length renames.parameters
  rw [parameterNames, parameterNames, List.length_map, List.length_map, List.length_map] at lengths
  exact lengths.symm

-- A renamed parameter stands for the same argument, and other names stand for none.
theorem fill_renamed (arguments : List (List Lexeme)) (enough : arguments.length = left.params.length)
    (token : Token) (member : token ∈ left.body) :
    right.fill arguments (left.renamed rename token.lexeme) = left.fill arguments token.lexeme := by
  by_cases bound : token.lexeme.kind = .name ∧ token.lexeme.text ∈ left.parameterNames
  · have old : token.lexeme = ⟨.name, token.text⟩ := congrArg (Lexeme.mk · token.text) bound.1
    have new : left.renamed rename token.lexeme = ⟨.name, rename token.text⟩ := by
      rw [renamed, if_pos bound, old]
    obtain ⟨index, found⟩ := Option.isSome_iff_exists.mp (List.isSome_idxOf?.mpr bound.2)
    have inside : index < arguments.length := by
      have within := (List.idxOf?_eq_some_iff.mp found).1
      rwa [parameterNames, List.length_map, ← enough] at within
    have moved := idxOf_rename rename left.parameterNames token.text fun other within =>
      renames.oneToOne other within token.text bound.2
    rw [new, old, left.fill_bound arguments token.text index _ inside,
      right.fill_bound arguments (rename token.text) index _ inside]
    · rw [paramIndex_names, renames.parameters, moved]
      exact found
    · rw [paramIndex_names]
      exact found
  · have same : left.renamed rename token.lexeme = token.lexeme := if_neg bound
    have unbound : token.lexeme.kind = .name → token.text ∉ left.parameterNames :=
      fun named within => bound ⟨named, within⟩
    rw [same, left.fill_free arguments token.lexeme unbound,
      right.fill_free arguments token.lexeme fun named =>
        renames.free token member named (unbound named)]

theorem substitute_alike (arguments others : List (List Token))
    (enough : arguments.length = left.params.length)
    (alike : spellings arguments = spellings others) :
    ReadAlike (left.substitute arguments) (right.substitute others) := by
  have filled : (spellings others).length = left.params.length := by
    rw [← alike, spellings, List.length_map, enough]
  rw [ReadAlike, substitute_fill, substitute_fill, renames.body, alike, List.flatMap_map,
    List.flatMap_map]
  exact List.flatMap_congr fun token member =>
    (renames.fill_renamed (spellings others) filled token member).symm

end Renames

end Macro

namespace Use

inductive ReadAlike : Use → Use → Prop where
  | plain : ReadAlike .plain .plain
  | unterminated (left right : Macro) (key : left.key = right.key) :
      ReadAlike (.unterminated left) (.unterminated right)
  | misfit (left right : Macro) (given : Nat) (first second : List Token)
      (key : left.key = right.key) (count : left.params.length = right.params.length)
      (rest : Token.ReadAlike first second) :
      ReadAlike (.misfit left given first) (.misfit right given second)
  | expands (left right : Macro) (replacement other first second : List Token)
      (key : left.key = right.key) (replaced : Token.ReadAlike replacement other)
      (rest : Token.ReadAlike first second) :
      ReadAlike (.expands left replacement first) (.expands right other second)

end Use

namespace Macro.Renames

variable {rename : Text → Text} {left right : Macro} (renames : Renames rename left right)
include renames

theorem body_alike (object : ¬ left.isFunctionLike = true) : ReadAlike left.body right.body := by
  have none : left.parameterNames = [] := by
    rw [isFunctionLike, Bool.not_eq_true, Option.isSome_eq_false_iff, Option.isNone_iff_eq_none]
      at object
    rw [parameterNames, params, object]
    rfl
  rw [ReadAlike, renames.body]
  refine List.map_congr_left fun token _ => ?_
  have free : ¬ (token.lexeme.kind = .name ∧ token.lexeme.text ∈ left.parameterNames) := by
    simp [none]
  exact (if_neg free).symm

theorem ofCall_alike (first second : List Token) (alike : ReadAlike first second) :
    (Use.ofCall left first).ReadAlike (Use.ofCall right second) := by
  have skipped := alike.skipSpace
  rw [Use.ofCall, Use.ofCall]
  cases start : Token.skipSpace first with
  | nil =>
      rw [start] at skipped
      rw [List.map_eq_nil_iff.mp skipped.symm]
      exact .plain
  | cons paren inner =>
      rw [start] at skipped
      obtain ⟨other, more, same, head, later⟩ := skipped.cons
      have opens : paren.isOther '(' = other.isOther '(' :=
        congrArg (fun lexeme : Lexeme => lexeme.kind == .other && lexeme.text == ['(']) head
      rw [same]
      dsimp only
      rw [opens]
      split
      · have found := Call.split_alike 0 inner more later
        cases split : Call.split? 0 inner with
        | none =>
            rw [split] at found
            rw [Option.map_eq_none_iff.mp found.symm]
            exact .unterminated left right renames.key
        | some call =>
            rw [split] at found
            obtain ⟨⟨raw, after⟩, again, both⟩ := Option.map_eq_some_iff.mp found.symm
            obtain ⟨raws, afters⟩ := Prod.mk.inj both
            have passed := Call.arguments_alike left right call.1 raw renames.count raws.symm
            have number : (Call.arguments left call.1).length = (Call.arguments right raw).length := by
              have lengths := congrArg List.length passed
              rwa [Token.spellings, Token.spellings, List.length_map, List.length_map] at lengths
            rw [again]
            dsimp only
            rw [← number, ← renames.count]
            split
            · exact .expands left right _ _ call.2 after renames.key
                (renames.substitute_alike _ _ ‹_› passed) afters.symm
            · exact .misfit left right _ call.2 after renames.key renames.count afters.symm
      · exact .plain

end Macro.Renames

def MacroTable.Renamed (left right : MacroTable) : Prop :=
  ∀ key, Option.Rel (fun first second => ∃ rename, Macro.Renames rename first second)
    (left.lookup key) (right.lookup key)

theorem MacroTable.renamed_of_forall₂ {left right : List Macro}
    (renames : List.Forall₂ (fun first second => ∃ rename, Macro.Renames rename first second)
      left right) : (MacroTable.mk left).Renamed ⟨right⟩ := by
  intro key
  induction renames with
  | nil => exact .none
  | @cons first second left right found _ ih =>
      obtain ⟨rename, here⟩ := found
      rw [lookup, lookup, List.find?_cons, List.find?_cons, ← here.key]
      cases first.key == key with
      | true => exact .some ⟨rename, here⟩
      | false => exact ih

def Diagnostic.unplaced (diagnostic : Diagnostic) : Diagnostic := { diagnostic with location := none }

namespace Expansion

structure ReadAlike (left right : Expansion) : Prop where
  tokens : Token.ReadAlike left.tokens right.tokens
  diagnostics : left.diagnostics.map Diagnostic.unplaced = right.diagnostics.map Diagnostic.unplaced

theorem ReadAlike.append {left right more other : Expansion} (first : left.ReadAlike right)
    (second : more.ReadAlike other) : (left.append more).ReadAlike (right.append other) := by
  refine ⟨?_, ?_⟩
  · rw [Token.ReadAlike, Expansion.append, Expansion.append, List.map_append, List.map_append,
      first.tokens, second.tokens]
  · rw [Expansion.append, Expansion.append, List.map_append, List.map_append, first.diagnostics,
      second.diagnostics]

end Expansion

namespace MacroTable.Renamed

variable {left right : MacroTable} (renamed : left.Renamed right)
include renamed

theorem ofToken_alike (guard : List Text) (token other : Token) (first second : List Token)
    (same : token.lexeme = other.lexeme) (alike : ReadAlike first second) :
    (Use.ofToken left guard token first).ReadAlike (Use.ofToken right guard other second) := by
  have kind : token.kind = other.kind := congrArg Lexeme.kind same
  have text : token.text = other.text := congrArg Lexeme.text same
  have defined := renamed other.text
  rw [Use.ofToken, Use.ofToken, kind, text]
  split
  · generalize left.lookup other.text = before at defined ⊢
    generalize right.lookup other.text = after at defined ⊢
    cases defined with
    | none => exact .plain
    | some found =>
        obtain ⟨rename, renames⟩ := found
        dsimp only
        rw [← renames.functionLike]
        split
        · exact renames.ofCall_alike first second alike
        · exact .expands _ _ _ _ first second renames.key (renames.body_alike ‹_›) alike
  · exact .plain

theorem expandHead_alike (guard : List Text) (token other : Token) (tail rest : List Token)
    (same : token.lexeme = other.lexeme) (alike : ReadAlike tail rest)
    (inner : ∀ definition replacement after,
      Use.ofToken left guard token tail = .expands definition replacement after →
        ∀ second, ReadAlike replacement second →
          (left.expandAll (definition.key :: guard) replacement).ReadAlike
            (right.expandAll (definition.key :: guard) second)) :
    (left.expandHead guard token tail).1.ReadAlike (right.expandHead guard other rest).1 ∧
      ReadAlike (left.expandHead guard token tail).2 (right.expandHead guard other rest).2 := by
  have uses := renamed.ofToken_alike guard token other tail rest same alike
  rw [MacroTable.expandHead, MacroTable.expandHead]
  generalize Use.ofToken left guard token tail = first at inner uses
  generalize Use.ofToken right guard other rest = second at uses
  cases uses with
  | plain => exact ⟨⟨congrArg ([·]) same, rfl⟩, alike⟩
  | unterminated definition found key =>
      refine ⟨⟨congrArg ([·]) same, ?_⟩, alike⟩
      exact congrArg (fun name => [(Problem.unterminatedCall name).unlocated]) key
  | misfit definition found given after last key count unread =>
      have consumed : ReadAlike (tail.take (tail.length - after.length))
          (rest.take (rest.length - last.length)) := by
        rw [← alike.length, ← unread.length]
        exact alike.take _
      refine ⟨⟨congrArg₂ List.cons same consumed, ?_⟩, unread⟩
      exact congrArg₂ (fun name expected => [(Problem.wrongArity name given expected).unlocated])
        key count
  | expands definition found replacement second after last key replaced unread =>
      refine ⟨?_, unread⟩
      dsimp only
      rw [← key]
      exact inner definition replacement after rfl second replaced

theorem expandAll_alike (guard : List Text) (first second : List Token)
    (alike : ReadAlike first second) :
    (left.expandAll guard first).ReadAlike (right.expandAll guard second) := by
  induction guard, first using left.expandAll_induction generalizing second with
  | nil guard =>
      rw [List.map_eq_nil_iff.mp alike.symm, MacroTable.expandAll, MacroTable.expandAll]
      exact ⟨rfl, rfl⟩
  | cons guard token tail inner ih =>
      obtain ⟨other, rest, rfl, head, later⟩ := alike.cons
      obtain ⟨given, unread⟩ := renamed.expandHead_alike guard token other tail rest head later inner
      rw [expandAll_cons, expandAll_cons]
      exact given.append (ih _ unread)

end MacroTable.Renamed

namespace Expander

theorem Agrees.log {expander after : Expander} {tokens : List Token} {expansion : Expansion}
    (agrees : Agrees expander tokens after expansion) :
    after.state.log.entries.toList =
      expander.state.log.entries.toList ++ expansion.diagnostics := by
  rw [agrees.state]
  exact (restored_reportAll expander expansion.diagnostics).log

theorem expandAt_agrees (expander : Expander) (tokens : List Token) (position : Fin tokens.length) :
    let head := expander.table.expandHead expander.guard (tokens.get position)
      (tokens.drop (position + 1))
    Agrees expander (expander.expandAt tokens position).tokens
        (expander.expandAt tokens position).expander head.1 ∧
      (expander.expandAt tokens position).next = tokens.length - head.2.length := by
  obtain ⟨agrees, rest⟩ := expandName_agrees expander (tokens.get position)
    (tokens.drop (position + 1))
    (fun definition replacement _ _ => rescan_agrees (expander.enter definition.key) replacement)
  exact ⟨agrees, congrArg (fun unread : List Token => tokens.length - unread.length) rest⟩

theorem expandAt_renamed (left right : Expander) (tokens : List Token) (position : Fin tokens.length)
    (guard : left.guard = right.guard) (renamed : left.table.Renamed right.table) :
    let answer := left.expandAt tokens position
    let other := right.expandAt tokens position
    answer.tokens.map Token.lexeme = other.tokens.map Token.lexeme ∧ answer.next = other.next ∧
      ∃ reported others,
        answer.expander.state.log.entries.toList = left.state.log.entries.toList ++ reported ∧
        other.expander.state.log.entries.toList = right.state.log.entries.toList ++ others ∧
        reported.map Diagnostic.unplaced = others.map Diagnostic.unplaced := by
  intro answer other
  obtain ⟨first, firstNext⟩ := expandAt_agrees left tokens position
  obtain ⟨second, secondNext⟩ := expandAt_agrees right tokens position
  obtain ⟨given, unread⟩ := renamed.expandHead_alike left.guard (tokens.get position)
    (tokens.get position) (tokens.drop (position + 1)) (tokens.drop (position + 1)) rfl rfl
    (fun definition replacement _ _ =>
      renamed.expandAll_alike (definition.key :: left.guard) replacement)
  rw [← guard] at second secondNext
  refine ⟨?_, ?_, _, _, first.log, second.log, given.diagnostics⟩
  · have same := given.tokens
    rwa [ReadAlike, ← first.tokens, ← second.tokens] at same
  · rw [firstNext, secondNext, unread.length]

namespace RenamingSample

def name (text : String) : Token := .spelled .name text

def mark (text : String) : Token := .spelled .other text

def pair (first second : String) : Macro :=
  ⟨name "F", some [name first, name second],
    [name first, mark "(", name second, mark ",", name "F", mark ")"]⟩

def same (parameter : String) : Macro := ⟨name "G", some [name parameter], [name parameter]⟩

def before : MacroTable := ⟨[pair "x" "y", same "x"]⟩

-- One parameter has the name of its own macro.
def after : MacroTable := ⟨[pair "p" "q", same "G"]⟩

-- The arguments hold names that the parameters have in either table.
def call : List Token :=
  [name "F", mark "(", name "G", mark ",", name "y", name "p", mark ")", name "z"]

def replaced : List Token :=
  [name "G", mark "(", name "y", name "p", mark ",", name "F", mark ")"]

def starting (table : MacroTable) : Expander := ⟨{ State.initial with macros := table }, [], []⟩

theorem renamed_after : before.Renamed after := by
  refine MacroTable.renamed_of_forall₂ (.cons ⟨fun name => if name = ['x'] then ['p'] else ['q'], ?_⟩
    (.cons ⟨fun _ => ['G'], ?_⟩ .nil))
  · exact ⟨rfl, rfl, by decide, by decide, by decide, by decide⟩
  · exact ⟨rfl, rfl, by decide, by decide, by decide, by decide⟩

theorem expandHead_before :
    before.expandHead [] (name "F") call.tail =
      (⟨replaced, [(Problem.wrongArity ['G'] 2 1).located (name "G").location]⟩, [name "z"]) := by
  have outer : Use.ofToken before [] (name "F") call.tail =
      .expands (pair "x" "y") replaced [name "z"] := rfl
  have misfit : Use.ofToken before [['F']] (name "G") replaced.tail = .misfit (same "x") 2 [] := rfl
  have inner := before.expandAll_cons [['F']] (name "G") replaced.tail
  rw [MacroTable.expandHead, misfit, MacroTable.expandAll] at inner
  rw [MacroTable.expandHead, outer]
  exact congrArg (·, [name "z"]) inner

end RenamingSample

open RenamingSample in
theorem expandAt_renamed_sample :
    before.Renamed after ∧
      ((starting after).expandAt call ⟨0, by decide⟩).tokens.map Token.lexeme =
        replaced.map Token.lexeme ∧
      ((starting after).expandAt call ⟨0, by decide⟩).next = 7 ∧
      ((starting after).expandAt call ⟨0, by decide⟩).expander.state.log.entries.toList.map
        Diagnostic.unplaced = [(Problem.wrongArity ['G'] 2 1).unlocated] := by
  obtain ⟨tokens, next, reported, others, first, second, same⟩ :=
    expandAt_renamed (starting before) (starting after) call ⟨0, by decide⟩ rfl renamed_after
  obtain ⟨agrees, reached⟩ := expandAt_agrees (starting before) call ⟨0, by decide⟩
  have head : (starting before).table.expandHead (starting before).guard (call.get ⟨0, by decide⟩)
      (call.drop (0 + 1)) = _ := expandHead_before
  rw [head] at agrees reached
  obtain rfl : _ = reported := List.append_cancel_left (agrees.log.symm.trans first)
  refine ⟨renamed_after, ?_, next.symm.trans reached, ?_⟩
  · rw [← tokens, agrees.tokens]
  · rw [second, List.map_append, ← same]
    rfl

end Expander

end CPreprocessor
