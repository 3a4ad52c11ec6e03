import CPreprocessor.Proofs.Engine.Nesting
import CPreprocessor.Proofs.Macro.Agreement

/-!
Names that nothing mentions. Two runs whose macros differ in one name go in step as long as no token
that they read is this name: neither run can look it up, define it or take it back.
-/

set_option autoImplicit false

namespace CPreprocessor

theorem Token.avoid_place (name : Text) (left right : Source) (position : Nat)
    (lexemes : List Lexeme) (avoid : Avoid name (place left position lexemes)) :
    Avoid name (place right position lexemes) := by
  induction lexemes generalizing position with
  | nil => exact avoid
  | cons lexeme lexemes ih =>
      obtain ⟨here, later⟩ := List.forall_mem_cons.mp avoid
      exact List.forall_mem_cons.mpr ⟨here, ih _ later⟩

namespace State

inductive Alike (name : Text) (first second : Option Macro) (left : State) : State → Prop
  | differ (table : MacroTable) (macros : MacroTable.Alike name first second left.macros table) :
      Alike name first second left { left with macros := table }

section

variable {name : Text} {first second : Option Macro} {left right : State}
  (alike : Alike name first second left right)
include alike

theorem Alike.same :
    right.stack = left.stack ∧ right.output = left.output ∧
      right.dependencies = left.dependencies ∧ right.log = left.log := by
  obtain ⟨table, macros⟩ := alike
  exact ⟨rfl, rfl, rfl, rfl⟩

theorem Alike.tables : MacroTable.Alike name first second left.macros right.macros := by
  obtain ⟨table, macros⟩ := alike
  exact macros

end

theorem macros_aside (table : MacroTable) : Aside fun state => { state with macros := table } :=
  ⟨fun _ => rfl, fun _ => rfl, fun _ _ _ => rfl⟩

section

variable {name : Text} {first second : Option Macro}

theorem alike_apart (left : State) (table : MacroTable) (change : State → State)
    (macros : MacroTable.Alike name first second left.macros table)
    (kept : (change left).macros = left.macros)
    (moved : change { left with macros := table } = { change left with macros := table }) :
    Alike name first second (change left) (change { left with macros := table }) := by
  rw [moved]
  exact .differ table (kept ▸ macros)

section

variable (left : State) (table : MacroTable) (directive : Token) (operands : List Token)
  (macros : MacroTable.Alike name first second left.macros table)
  (avoid : Token.Avoid name operands)
include macros avoid

theorem alike_openTest (defined : Bool) :
    Alike name first second (left.openTest defined directive operands)
      ({ left with macros := table }.openTest defined directive operands) := by
  apply alike_apart left table (·.openTest defined directive operands) macros
  · exact (congrArg State.macros ((macros_aside left.macros).openTest left directive operands defined
      fun _ _ => rfl) :)
  · refine (macros_aside table).openTest left directive operands defined fun operand found => ?_
    obtain ⟨member, named⟩ := Operand.macroName_mem operands operand found
    have differs := operand.text_ne name named (avoid operand member)
    exact congrArg Option.isSome (macros.agree operand.text differs)

theorem alike_defineMacro :
    Alike name first second (left.defineMacro directive operands)
      ({ left with macros := table }.defineMacro directive operands) := by
  rw [defineMacro, defineMacro]
  cases written : Operand.definition directive operands with
  | error fault => exact .differ table macros
  | ok definition =>
      obtain ⟨inside, named⟩ := Operand.definition_tokens directive operands definition written
      have differs := definition.name.text_ne name named (avoid _ (inside List.mem_cons_self))
      have body := Operand.definition_body directive operands definition written
      exact .differ (table.define definition)
        (macros.define definition differs fun token member => avoid token (body member))

theorem alike_undefineMacro :
    Alike name first second (left.undefineMacro directive operands)
      ({ left with macros := table }.undefineMacro directive operands) := by
  rw [undefineMacro, undefineMacro]
  cases found : Operand.macroName? operands with
  | none => exact .differ table macros
  | some operand =>
      obtain ⟨member, named⟩ := Operand.macroName_mem operands operand found
      have differs := operand.text_ne name named (avoid operand member)
      exact .differ (table.erase operand.text) (macros.erase operand.text differs)

end

theorem Alike.obey {left right : State} (alike : Alike name first second left right) (floor : Nat)
    (directive : Token) (operands : List Token) (avoid : Token.Avoid name operands) :
    Alike name first second (left.obey floor directive operands)
      (right.obey floor directive operands) := by
  obtain ⟨table, macros⟩ := alike
  have apart (change : State → State)
      (aside : ∀ table, change { left with macros := table } =
        { change left with macros := table }) :=
    alike_apart left table change macros (congrArg State.macros (aside left.macros) :) (aside table)
  rw [State.obey, State.obey]
  cases Directive.ofName directive.text with
  | ifdef => exact alike_openTest left table directive operands macros avoid true
  | ifndef => exact alike_openTest left table directive operands macros avoid false
  | ifExpression =>
      exact apart (·.openUnsupported directive) fun table =>
        (macros_aside table).openUnsupported left directive
  | elifExpression =>
      exact apart (·.suppressBlock floor directive) fun table =>
        (macros_aside table).suppressBlock left floor directive
  | elseBranch =>
      exact apart (·.flipBlock floor directive) fun table =>
        (macros_aside table).flipBlock left floor directive
  | endif =>
      exact apart (·.closeBlock floor directive) fun table =>
        (macros_aside table).closeBlock left floor directive
  | define =>
      dsimp only
      rw [(macros_aside table).isActive left]
      cases left.isActive with
      | true => exact alike_defineMacro left table directive operands macros avoid
      | false => exact .differ table macros
  | undef =>
      dsimp only
      rw [(macros_aside table).isActive left]
      cases left.isActive with
      | true => exact alike_undefineMacro left table directive operands macros avoid
      | false => exact .differ table macros
  | inclusion => exact .differ table macros
  | unknown =>
      dsimp only
      rw [(macros_aside table).isActive left]
      cases left.isActive with
      | true => exact .differ table macros
      | false => exact .differ table macros

end

end State

namespace Running

-- Two runs in step, and nothing that they have still to read is the name.
structure Alike (name : Text) (first second : Option Macro) (left right : Running) : Prop where
  activations : right.activations = left.activations
  failure : right.failure = left.failure
  state : left.state.Alike name first second right.state
  avoid : ∀ activation ∈ left.activations, Token.Avoid name activation.tokens

section

variable {name : Text} {first second : Option Macro} {left right : State}
  (alike : left.Alike name first second right) (activation : Activation) (outer : List Activation)
  (avoid : ∀ activation ∈ outer, Token.Avoid name activation.tokens)
include alike avoid

theorem leave_alike (failure : Option Failure) :
    Alike name first second (leave activation outer (left, failure))
      (leave activation outer (right, failure)) := by
  obtain ⟨table, macros⟩ := alike
  cases failure with
  | none => exact ⟨rfl, rfl, .differ table macros, avoid⟩
  | some failure => exact ⟨rfl, rfl, .differ table macros, avoid⟩

variable (here : Token.Avoid name activation.tokens)
include here

theorem obeyLine_alike (environment : Environment) (line : DirectiveLine)
    (unloaded : ∀ path text, environment.loader path = .ok text →
      Token.Avoid name (lex path.text text).tokens)
    (found : DirectiveLine.ofLine? activation.tokens = some line) :
    Alike name first second (obeyLine environment activation outer line left)
      (obeyLine environment activation outer line right) := by
  have operands := DirectiveLine.ofLine_operands activation.tokens line found
  have rest := DirectiveLine.ofLine_rest activation.tokens line found
  have later : ∀ other ∈ { activation with lineStart := true, tokens := line.rest } :: outer,
      Token.Avoid name other.tokens :=
    List.forall_mem_cons.mpr ⟨fun token member => here token (rest member), avoid⟩
  have obeyed := alike.obey activation.floor line.name line.operands
    fun token member => here token (operands member)
  obtain ⟨table, macros⟩ := alike
  have same : State.includes { left with macros := table } line.name = left.includes line.name := rfl
  rw [obeyLine, obeyLine, same]
  by_cases includes : left.includes line.name = true
  · rw [if_pos includes, if_pos includes]
    cases target : Inclusion.ofOperands environment ((activation :: outer).map Activation.path)
        line.name line.operands with
    | refused problem failure => exact ⟨rfl, rfl, .differ table macros, later⟩
    | entered path text =>
        have loaded := Inclusion.entered_loaded environment _ line.name line.operands path text target
        exact ⟨rfl, rfl, .differ table macros,
          List.forall_mem_cons.mpr ⟨Token.avoid_place name _ _ 0 _ (unloaded path text loaded),
            later⟩⟩
  · rw [if_neg includes, if_neg includes]
    exact ⟨rfl, rfl, obeyed, later⟩

theorem readToken_alike (token : Token) (tail : List Token)
    (next : activation.tokens = token :: tail) :
    Alike name first second (readToken activation outer token tail left)
      (readToken activation outer token tail right) := by
  rw [next] at here
  obtain ⟨table, macros⟩ := alike
  have same : State.isActive { left with macros := table } = left.isActive := rfl
  rw [readToken, readToken, same]
  by_cases active : left.isActive = true
  · rw [if_pos active, if_pos active]
    dsimp only
    rw [macros.expandHead [] token tail here]
    have suffix := left.macros.expandHead_suffix [] token tail
    exact ⟨rfl, rfl, .differ table macros, List.forall_mem_cons.mpr
      ⟨fun other member => here other (List.mem_cons_of_mem token (suffix.subset member)), avoid⟩⟩
  · rw [if_neg active, if_neg active]
    exact ⟨rfl, rfl, .differ table macros, List.forall_mem_cons.mpr
      ⟨fun other member => here other (List.mem_cons_of_mem token member), avoid⟩⟩

end

theorem step_alike (name : Text) (first second : Option Macro) (environment : Environment)
    (unloaded : ∀ path text, environment.loader path = .ok text →
      Token.Avoid name (lex path.text text).tokens)
    (left right : Running) (alike : Alike name first second left right) :
    Alike name first second (left.step environment) (right.step environment) := by
  obtain ⟨activations, state, failure⟩ := left
  obtain ⟨others, other, alsoFailed⟩ := right
  obtain ⟨same, ends, states, avoid⟩ := alike
  dsimp only at same ends states avoid
  subst same ends
  obtain ⟨next, turn, stepped⟩ := step_turn environment others alsoFailed
  rw [stepped, stepped]
  cases turn with
  | ended => exact ⟨rfl, rfl, states, avoid⟩
  | left activation outer =>
      exact leave_alike states activation outer (List.forall_mem_cons.mp avoid).2 alsoFailed
  | obeyed activation outer line found =>
      obtain ⟨here, others⟩ := List.forall_mem_cons.mp avoid
      exact obeyLine_alike states activation outer others here environment line unloaded found
  | read activation outer token tail left =>
      obtain ⟨here, others⟩ := List.forall_mem_cons.mp avoid
      exact readToken_alike states activation outer others here token tail left

end Running

namespace Engine

theorem preprocess_alike (name : Text) (first second : Option Macro) (environment : Environment)
    (root : Lexed) (left right : State) (alike : left.Alike name first second right)
    (unread : Token.Avoid name root.tokens)
    (unloaded : ∀ path text, environment.loader path = .ok text →
      Token.Avoid name (lex path.text text).tokens) :
    (preprocess environment root right).2 = (preprocess environment root left).2 ∧
      (preprocess environment root left).1.Alike name first second
        (preprocess environment root right).1 := by
  have atEnd := Running.runs_related environment root left right
    (Running.Alike name first second)
    (Running.step_alike name first second environment unloaded) (by
      obtain ⟨table, macros⟩ := alike
      exact ⟨rfl, rfl, .differ table macros, by simpa [Running.start, Running.opening] using unread⟩)
  exact ⟨atEnd.failure, atEnd.state⟩

theorem unmentioned_irrelevant (environment : Environment) (root : Lexed) (state : State)
    (definition : Macro) (unread : Token.Avoid definition.key root.tokens)
    (unloaded : ∀ path text, environment.loader path = .ok text →
      Token.Avoid definition.key (lex path.text text).tokens)
    (unused : ∀ other ∈ state.macros.definitions, other.key ≠ definition.key →
      Token.Avoid definition.key other.body) :
    let without := preprocess environment root
      { state with macros := state.macros.erase definition.key }
    let defined := preprocess environment root { state with macros := state.macros.define definition }
    defined.2 = without.2 ∧ defined.1.output = without.1.output ∧
      defined.1.dependencies = without.1.dependencies ∧ defined.1.log = without.1.log ∧
      defined.1.stack = without.1.stack ∧
      (∀ key, key ≠ definition.key →
        defined.1.macros.lookup key = without.1.macros.lookup key) ∧
      without.1.macros.lookup definition.key = none ∧
      defined.1.macros.lookup definition.key = some definition := by
  intro without defined
  obtain ⟨result, alike⟩ := preprocess_alike definition.key none (some definition) environment root
    { state with macros := state.macros.erase definition.key }
    { state with macros := state.macros.define definition }
    (.differ _ (state.macros.alike_erase_define definition unused)) unread unloaded
  obtain ⟨stack, output, dependencies, log⟩ := alike.same
  have tables := alike.tables
  exact ⟨result, output, dependencies, log, stack, tables.agree, tables.own, tables.other⟩

namespace UnmentionedSample

def header : Path := ⟨"h.h".toList⟩

def text : Text := "#define B A\n#undef C\nB\n".toList

def environment : Environment :=
  ⟨.default, fun path => if path = header then .ok text else MemoryFiles.empty.loader path, .fromOne⟩

def root : Lexed :=
  lex "u.c".toList "#ifdef A\n#include \"h.h\"\n#endif\nB(\"Z\")\n#endif\n".toList

def state : State :=
  { State.initial with macros := MacroTable.empty.define ⟨.spelled .name "A", none, []⟩ }

def definition : Macro :=
  ⟨.spelled .name "Z", some [.spelled .name "x"], [.spelled .name "Z", .spelled .name "x"]⟩

end UnmentionedSample

theorem unmentioned_irrelevant_sample :
    let without := preprocess UnmentionedSample.environment UnmentionedSample.root
      { UnmentionedSample.state with macros := UnmentionedSample.state.macros.erase "Z".toList }
    let defined := preprocess UnmentionedSample.environment UnmentionedSample.root
      { UnmentionedSample.state with
        macros := UnmentionedSample.state.macros.define UnmentionedSample.definition }
    defined.2 = without.2 ∧ defined.1.output = without.1.output ∧
      defined.1.dependencies = without.1.dependencies ∧ defined.1.log = without.1.log ∧
      defined.1.macros.lookup "Z".toList = some UnmentionedSample.definition := by
  have unloaded : ∀ path text, UnmentionedSample.environment.loader path = .ok text →
      Token.Avoid "Z".toList (lex path.text text).tokens := by
    intro path text loaded
    rw [UnmentionedSample.environment] at loaded
    dsimp only at loaded
    split at loaded
    · rename_i same
      cases loaded
      rw [same, Token.Avoid]
      decide +kernel
    · cases loaded
  obtain ⟨result, output, dependencies, log, _, _, _, lookup⟩ :=
    unmentioned_irrelevant UnmentionedSample.environment UnmentionedSample.root
      UnmentionedSample.state UnmentionedSample.definition (by rw [Token.Avoid]; decide +kernel)
      unloaded (by simp only [Token.Avoid]; decide +kernel)
  exact ⟨result, output, dependencies, log, lookup⟩

end Engine

end CPreprocessor
