import CPreprocessor.Proofs.Engine.Defining
import CPreprocessor.Proofs.Engine.Nesting
import CPreprocessor.Proofs.Macro.Origins

/-!
Where the tokens of a session come from. It makes none of its own: every token in its output and in
its macros was given to it, or stands in a text that it lexed for a definition, or in a file that it
read. It keeps every file that it read, and every text that it lexes has a number of its own, so a
token tells which text it is from even if two texts are alike.
-/

set_option autoImplicit false

namespace CPreprocessor

theorem MacroTable.bodies_moves (allowed : Token → Prop) (name : Token) (operands : List Token)
    (before after : MacroTable) (given : ∀ token ∈ operands, allowed token)
    (bodies : before.BodiesAre allowed) (moves : Moves name operands before after) :
    after.BodiesAre allowed := by
  cases moves with
  | same => exact bodies
  | erased removed => exact bodies_erase before allowed removed bodies
  | defined definition written =>
      have body := Operand.definition_body name operands definition written
      exact bodies_define before allowed definition bodies
        fun token member => given token (body member)

theorem Numbering.perm_next (numbering : Numbering) (texts : List Lexed) (lexings : Nat) (lexed : Lexed)
    (numbered : (texts.map (·.source.serial)).Perm
      ((List.range lexings).map numbering.serial))
    (next : lexed.source.serial = numbering.serial lexings) :
    ((texts ++ [lexed]).map (·.source.serial)).Perm
      ((List.range (lexings + 1)).map numbering.serial) := by
  rw [List.map_append, List.range_succ, List.map_append, List.map_singleton, List.map_singleton,
    next]
  exact numbered.append_right _

namespace State

def Knows (known : Token → Prop) (state : State) (token : Token) : Prop :=
  known token ∨ ∃ lexed ∈ state.dependencies, token ∈ lexed.tokens

-- Nothing is in the output or in the macros that is not known. Each number that was given to a text
-- belongs to one of the texts of definitions, which are `own`, or to one of the files, and of the
-- files that were read earlier none is lost.
structure Traced (environment : Environment) (known : Token → Prop) (own earlier : List Lexed)
    (state : State) : Prop where
  output : ∀ token ∈ state.output, state.Knows known token
  macros : ∀ definition ∈ state.macros.definitions, ∀ token ∈ definition.tokens,
    state.Knows known token
  loaded : ∀ lexed ∈ state.dependencies, ∃ number path text, environment.loader path = .ok text ∧
    lexed = .ofText (environment.numbering.serial number) path.text text
  numbered : ((own ++ state.dependencies.toList).map (·.source.serial)).Perm
    ((List.range state.lexings).map environment.numbering.serial)
  kept : earlier <+: state.dependencies.toList

theorem traced_initial (environment : Environment) (known : Token → Prop) :
    State.initial.Traced environment known [] [] := by
  refine ⟨?_, ?_, ?_, ?_, List.nil_prefix⟩ <;> simp [State.initial, MacroTable.empty]

section

variable {environment : Environment} {known : Token → Prop} {own earlier : List Lexed}
  {state : State} (traced : state.Traced environment known own earlier)

theorem knows_same (after : State) (same : after.dependencies = state.dependencies) (token : Token)
    (knows : state.Knows known token) : after.Knows known token := by
  rw [Knows, same]
  exact knows

theorem knows_entered (path : Path) (text : Text) (token : Token)
    (knows : state.Knows known token) :
    (state.entered environment path text).Knows known token := by
  rcases knows with given | ⟨file, member, inside⟩
  · exact .inl given
  · exact .inr ⟨file, Array.mem_push_of_mem _ member, inside⟩

theorem knows_own (path : Path) (text : Text) (token : Token)
    (inside : token ∈ (state.nextText environment path.text text).tokens) :
    (state.entered environment path text).Knows known token :=
  .inr ⟨_, Array.mem_push_self, inside⟩

include traced

theorem Traced.tell (log : Log) (stack : Conditional.Stack) (reads : Array Path) :
    { state with log := log, stack := stack, reads := reads }.Traced environment known own
      earlier :=
  ⟨traced.output, traced.macros, traced.loaded, traced.numbered, traced.kept⟩

theorem Traced.define (definition : Macro)
    (tokens : ∀ token ∈ definition.tokens, state.Knows known token) :
    { state with macros := state.macros.define definition }.Traced environment known own
      earlier := by
  refine ⟨traced.output, ?_, traced.loaded, traced.numbered, traced.kept⟩
  intro other member
  rcases List.mem_cons.mp member with rfl | inside
  · exact tokens
  · exact traced.macros other (List.mem_filter.mp inside).1

theorem Traced.erase (name : Text) :
    { state with macros := state.macros.erase name }.Traced environment known own earlier :=
  ⟨traced.output, fun definition member => traced.macros definition (List.mem_filter.mp member).1,
    traced.loaded, traced.numbered, traced.kept⟩

theorem Traced.emit (expansion : Expansion)
    (tokens : ∀ token ∈ expansion.tokens, state.Knows known token) :
    (state.emit expansion).Traced environment known own earlier := by
  refine ⟨?_, traced.macros, traced.loaded, traced.numbered, traced.kept⟩
  intro token member
  have inside : token ∈ state.output ∨ token ∈ expansion.tokens := by
    simpa [State.emit, ← Array.mem_toList_iff] using member
  exact inside.elim (traced.output token) (tokens token)

theorem Traced.enter (path : Path) (text : Text) (loads : environment.loader path = .ok text) :
    (state.entered environment path text).Traced environment known own earlier := by
  refine ⟨?_, ?_, ?_, ?_, ?_⟩
  · exact fun token member => knows_entered path text token (traced.output token member)
  · exact fun definition member token inside =>
      knows_entered path text token (traced.macros definition member token inside)
  · intro lexed member
    rcases Array.mem_push.mp member with before | same
    · exact traced.loaded lexed before
    · exact ⟨state.lexings, path, text, loads, same⟩
  · rw [entered_dependencies, Array.toList_push, ← List.append_assoc]
    exact environment.numbering.perm_next _ state.lexings _ traced.numbered rfl
  · refine traced.kept.trans ?_
    simp

-- The texts of a definition do not become dependencies; they are counted apart.
theorem Traced.lex (lexed : Lexed)
    (next : lexed.source.serial = environment.numbering.serial state.lexings) :
    { state with lexings := state.lexings + 1 }.Traced environment known (own ++ [lexed])
      earlier := by
  refine ⟨traced.output, traced.macros, traced.loaded, ?_, traced.kept⟩
  have counted := environment.numbering.perm_next _ state.lexings lexed traced.numbered next
  refine List.Perm.trans (List.Perm.map _ ?_) counted
  rw [List.append_assoc, List.append_assoc]
  exact (List.perm_append_comm).append_left own

theorem Traced.obey (floor : Nat) (name : Token) (operands : List Token)
    (given : ∀ token ∈ operands, state.Knows known token) :
    (state.obey floor name operands).Traced environment known own earlier := by
  have obeys := state.obey_obeys floor name operands
  generalize state.obey floor name operands = after at obeys
  obtain ⟨macros, stack, output, dependencies, log, reads, lexings⟩ := after
  have sameOutput : output = state.output := obeys.output
  have sameDependencies : dependencies = state.dependencies := obeys.dependencies
  have sameLexings : lexings = state.lexings := obeys.lexings
  have moves : MacroTable.Moves name operands state.macros macros := obeys.macros
  subst sameOutput sameDependencies sameLexings
  cases moves with
  | same => exact traced.tell log stack reads
  | erased removed => exact (traced.erase removed).tell log stack reads
  | defined definition written =>
      have inside := (Operand.definition_tokens name operands definition written).1
      exact (traced.define definition fun token member => given token (inside member)).tell log stack
        reads

end

end State

namespace Running

def Reads (known : Token → Prop) (running : Running) : Prop :=
  ∀ activation ∈ running.activations, ∀ token ∈ activation.tokens, running.state.Knows known token

section

variable {known : Token → Prop} {state : State} (activation : Activation) (outer : List Activation)
  (others : ∀ activation ∈ outer, ∀ token ∈ activation.tokens, state.Knows known token)
include others

theorem leave_reads (failure : Option Failure) :
    (leave activation outer (state, failure)).Reads known := by
  have same := (Engine.finish_same activation.floor (state, failure)).2.2
  exact fun other member token inside =>
    State.knows_same _ same token (others other member token inside)

variable (here : ∀ token ∈ activation.tokens, state.Knows known token)
include here

theorem obeyLine_reads (environment : Environment) (line : DirectiveLine)
    (found : DirectiveLine.ofLine? activation.tokens = some line) :
    (obeyLine environment activation outer line state).Reads known := by
  have rest := DirectiveLine.ofLine_rest activation.tokens line found
  have later : ∀ other ∈ { activation with lineStart := true, tokens := line.rest } :: outer,
      ∀ token ∈ other.tokens, state.Knows known token :=
    List.forall_mem_cons.mpr ⟨fun token member => here token (rest member), others⟩
  obtain ⟨next, outcome, same⟩ := obeyLine_outcome environment activation outer line state
  rw [same]
  cases outcome with
  | refused problem failure => exact later
  | entered path text target =>
      refine List.forall_mem_cons.mpr ⟨fun token inside => State.knows_own path text token inside, ?_⟩
      exact fun other member token inside =>
        State.knows_entered path text token (later other member token inside)
  | obeyed =>
      have kept := (state.obey_obeys activation.floor line.name line.operands).dependencies
      exact fun other member token inside =>
        State.knows_same _ kept token (later other member token inside)

theorem readToken_reads (token : Token) (tail : List Token)
    (next : activation.tokens = token :: tail) :
    (readToken activation outer token tail state).Reads known := by
  rw [next] at here
  have suffix := state.macros.expandHead_suffix [] token tail
  rw [readToken]
  by_cases active : state.isActive = true
  · rw [if_pos active]
    exact List.forall_mem_cons.mpr
      ⟨fun other member => here other (List.mem_cons_of_mem token (suffix.subset member)), others⟩
  · rw [if_neg active]
    exact List.forall_mem_cons.mpr
      ⟨fun other member => here other (List.mem_cons_of_mem token member), others⟩

end

theorem step_reads (environment : Environment) (known : Token → Prop) (running : Running)
    (reads : running.Reads known) : (running.step environment).Reads known := by
  obtain ⟨activations, state, failure⟩ := running
  obtain ⟨next, turn, stepped⟩ := step_turn environment activations failure
  rw [stepped]
  cases turn with
  | ended => exact reads
  | left activation outer =>
      exact leave_reads activation outer (List.forall_mem_cons.mp reads).2 failure
  | obeyed activation outer line found =>
      obtain ⟨here, others⟩ := List.forall_mem_cons.mp reads
      exact obeyLine_reads activation outer others here environment line found
  | read activation outer token tail left =>
      obtain ⟨here, others⟩ := List.forall_mem_cons.mp reads
      exact readToken_reads activation outer others here token tail left

structure Traced (environment : Environment) (known : Token → Prop) (own earlier : List Lexed)
    (running : Running) : Prop where
  state : running.state.Traced environment known own earlier
  tokens : ∀ activation ∈ running.activations, ∀ token ∈ activation.tokens,
    running.state.Knows known token

section

variable {environment : Environment} {known : Token → Prop} {own earlier : List Lexed} {state : State}
  (traced : state.Traced environment known own earlier) (activation : Activation)
  (outer : List Activation)
include traced

theorem leave_traced (failure : Option Failure) :
    (leave activation outer (state, failure)).state.Traced environment known own earlier := by
  cases failure with
  | none => exact traced.tell _ _ _
  | some failure => exact traced.tell _ _ _

variable (here : ∀ token ∈ activation.tokens, state.Knows known token)
include here

theorem obeyLine_traced (line : DirectiveLine)
    (found : DirectiveLine.ofLine? activation.tokens = some line) :
    (obeyLine environment activation outer line state).state.Traced environment known own earlier := by
  have operands := DirectiveLine.ofLine_operands activation.tokens line found
  obtain ⟨next, outcome, same⟩ := obeyLine_outcome environment activation outer line state
  rw [same]
  cases outcome with
  | refused problem failure => exact traced.tell _ _ _
  | entered path text target =>
      exact (traced.tell _ _ _).enter path text
        (Inclusion.entered_loaded environment _ line.name line.operands path text target)
  | obeyed =>
      exact traced.obey activation.floor line.name line.operands
        fun token member => here token (operands member)

theorem readToken_traced (token : Token) (tail : List Token)
    (next : activation.tokens = token :: tail) :
    (readToken activation outer token tail state).state.Traced environment known own earlier := by
  rw [next] at here
  have bodies : state.macros.BodiesAre (state.Knows known) := fun definition member body inside =>
    traced.macros definition member body
      (List.mem_cons_of_mem _ (List.mem_append_right _ inside))
  have taken := state.macros.collected_subset [] token tail
  have expanded := state.macros.expandHead_allowed (state.Knows known) bodies [] token tail
    fun other member => here other (List.cons_subset_cons token taken member)
  rw [readToken]
  by_cases active : state.isActive = true
  · rw [if_pos active]
    exact traced.emit _ expanded
  · rw [if_neg active]
    exact traced

end

theorem step_traced (environment : Environment) (known : Token → Prop) (own earlier : List Lexed)
    (running : Running) (traced : running.Traced environment known own earlier) :
    (running.step environment).Traced environment known own earlier := by
  refine ⟨?_, step_reads environment known running traced.tokens⟩
  obtain ⟨activations, state, failure⟩ := running
  obtain ⟨known, tokens⟩ := traced
  obtain ⟨next, turn, stepped⟩ := step_turn environment activations failure
  rw [stepped]
  cases turn with
  | ended => exact known
  | left activation outer => exact leave_traced known activation outer failure
  | obeyed activation outer line found =>
      exact obeyLine_traced known activation outer (tokens activation List.mem_cons_self) line found
  | read activation outer token tail left =>
      exact readToken_traced known activation outer (tokens activation List.mem_cons_self) token tail
        left

end Running

theorem Engine.preprocess_traced (environment : Environment) (known : Token → Prop)
    (own earlier : List Lexed) (root : Lexed) (state : State)
    (given : ∀ token ∈ root.tokens, known token)
    (traced : state.Traced environment known own earlier) :
    (preprocess environment root state).1.Traced environment known own earlier := by
  have starts : (Running.start root state).Traced environment known own earlier := by
    refine ⟨traced.tell _ _ _, ?_⟩
    intro activation member token inside
    rw [List.mem_singleton.mp member] at inside
    exact .inl (given token inside)
  exact (Running.run_keeps environment root state _
    (Running.step_traced environment known own earlier) starts).state

def Request.tokens : Request → List Token
  | .run root => root.tokens
  | .addMacro definition => definition.tokens
  | .define _ _ => []
  | .removeMacro _ => []

namespace Session

def definitionTexts (session : Session) (name body : Text) : List Lexed :=
  if isIdentifier name then [session.nameText name, session.bodyText body] else []

def requestTexts (session : Session) : Request → List Lexed
  | .define name body => session.definitionTexts name body
  | .run _ => []
  | .addMacro _ => []
  | .removeMacro _ => []

def textsAlong {α : Type} (step : Session → α → Session) (texts : Session → α → List Lexed) :
    Session → List α → List Lexed
  | _, [] => []
  | session, entry :: entries =>
      texts session entry ++ textsAlong step texts (step session entry) entries

theorem textsAlong_all {α : Type} (step : Session → α → Session)
    (texts : Session → α → List Lexed) (holds : Lexed → Prop)
    (all : ∀ session entry, ∀ lexed ∈ texts session entry, holds lexed) (session : Session)
    (entries : List α) : ∀ lexed ∈ textsAlong step texts session entries, holds lexed := by
  induction entries generalizing session with
  | nil => exact fun _ member => absurd member List.not_mem_nil
  | cons entry entries ih =>
      rw [textsAlong, List.forall_mem_append]
      exact ⟨all session entry, ih (step session entry)⟩

def texts (environment : Environment) (requests : List Request) : List Lexed :=
  textsAlong predefine (fun session entry => session.definitionTexts entry.1 entry.2)
      ⟨environment, .initial⟩ environment.config.defines ++
    textsAlong perform requestTexts (start environment) requests

section

variable (known : Token → Prop) (own earlier : List Lexed) (session : Session)
  (traced : session.state.Traced session.environment known own earlier)
include traced

theorem define_traced (name body : Text)
    (given : ∀ lexed ∈ session.definitionTexts name body, ∀ token ∈ lexed.tokens, known token) :
    (session.define name body).1.state.Traced session.environment known
      (own ++ session.definitionTexts name body) earlier := by
  rw [definitionTexts] at given ⊢
  cases ident : isIdentifier name with
  | false =>
      rw [define_refused session name body ident, if_neg Bool.false_ne_true, List.append_nil]
      exact traced
  | true =>
      rw [ident, if_pos rfl, List.forall_mem_cons, List.forall_mem_singleton] at given
      obtain ⟨token, tokens, _⟩ := Lexed.ofText_identifier
        (session.environment.numbering.serial session.state.lexings) predefinedFile name ident
      have lexed := (traced.lex (session.nameText name) rfl).lex (session.bodyText body) rfl
      rw [define_token session name body token ident tokens, if_pos rfl]
      rw [List.append_assoc] at lexed
      refine lexed.define ⟨token, none, Token.trim (session.bodyText body).tokens⟩ ?_
      intro other member
      rcases List.mem_cons.mp member with rfl | inside
      · exact .inl (given.1 _ (tokens ▸ List.mem_singleton_self _))
      · exact .inl (given.2 other (Token.trim_subset _ inside))

theorem predefine_traced (entry : Text × Text)
    (given : ∀ lexed ∈ session.definitionTexts entry.1 entry.2,
      ∀ token ∈ lexed.tokens, known token) :
    (session.predefine entry).state.Traced session.environment known
      (own ++ session.definitionTexts entry.1 entry.2) earlier := by
  have defined := define_traced known own earlier session traced entry.1 entry.2 given
  rw [predefine]
  split
  · rename_i reached same
    rwa [same] at defined
  · rename_i reached failure same
    rw [same] at defined
    exact defined.tell _ _ _

theorem perform_traced (request : Request) (brought : ∀ token ∈ request.tokens, known token)
    (given : ∀ lexed ∈ session.requestTexts request, ∀ token ∈ lexed.tokens, known token) :
    (session.perform request).state.Traced session.environment known
      (own ++ session.requestTexts request) earlier := by
  cases request with
  | define name body => exact define_traced known own earlier session traced name body given
  | run root =>
      rw [requestTexts, List.append_nil]
      exact Engine.preprocess_traced session.environment known own earlier root session.state brought
        traced
  | addMacro definition =>
      rw [requestTexts, List.append_nil]
      exact traced.define definition fun token member => .inl (brought token member)
  | removeMacro name =>
      rw [requestTexts, List.append_nil]
      exact traced.erase name

-- The induction is on the steps; the texts of definitions add up along them.
theorem along_traced {α : Type} (step : Session → α → Session) (texts : Session → α → List Lexed)
    (entries : List α)
    (same : ∀ session entry, (step session entry).environment = session.environment)
    (keeps : ∀ entry ∈ entries, ∀ own session,
      session.state.Traced session.environment known own earlier →
      (∀ lexed ∈ texts session entry, ∀ token ∈ lexed.tokens, known token) →
      (step session entry).state.Traced session.environment known (own ++ texts session entry)
        earlier)
    (given : ∀ lexed ∈ textsAlong step texts session entries, ∀ token ∈ lexed.tokens, known token) :
    (entries.foldl step session).state.Traced session.environment known
      (own ++ textsAlong step texts session entries) earlier := by
  induction entries generalizing session own with
  | nil =>
      rw [textsAlong, List.append_nil]
      exact traced
  | cons entry entries ih =>
      rw [textsAlong, List.forall_mem_append] at given
      have first := keeps entry List.mem_cons_self own session traced given.1
      rw [← same session entry] at first ⊢
      rw [textsAlong, ← List.append_assoc]
      exact ih _ (step session entry) first
        (fun other member => keeps other (List.mem_cons_of_mem entry member)) given.2

theorem performAll_traced (requests : List Request)
    (brought : ∀ token ∈ requests.flatMap Request.tokens, known token)
    (given : ∀ lexed ∈ textsAlong perform requestTexts session requests,
      ∀ token ∈ lexed.tokens, known token) :
    (requests.foldl perform session).state.Traced session.environment known
      (own ++ textsAlong perform requestTexts session requests) earlier :=
  along_traced known own earlier session traced perform requestTexts requests perform_environment
    (fun request member own session traced => perform_traced known own earlier session traced request
      fun token inside => brought token (List.mem_flatMap.mpr ⟨request, member, inside⟩)) given

end

@[simp] theorem start_environment (environment : Environment) :
    (start environment).environment = environment :=
  (predefineAll_same environment.config.defines ⟨environment, .initial⟩).1

@[simp] theorem performAll_environment (requests : List Request) (session : Session) :
    (requests.foldl perform session).environment = session.environment := by
  induction requests generalizing session with
  | nil => rfl
  | cons request requests ih => exact (ih _).trans (perform_environment session request)

theorem session_traced (environment : Environment) (known : Token → Prop) (requests : List Request)
    (brought : ∀ token ∈ requests.flatMap Request.tokens, known token)
    (given : ∀ lexed ∈ texts environment requests, ∀ token ∈ lexed.tokens, known token) :
    (requests.foldl perform (start environment)).state.Traced environment known
      (texts environment requests) [] := by
  rw [texts, List.forall_mem_append] at given
  have started := along_traced known [] [] ⟨environment, .initial⟩ (State.traced_initial _ _)
    predefine _ environment.config.defines (fun session entry => (predefine_same session entry).1)
    (fun entry _ own session traced => predefine_traced known own [] session traced entry) given.1
  have performed := performAll_traced known _ [] (start environment)
    (by rw [start_environment]; exact started) requests brought given.2
  rwa [start_environment, List.nil_append] at performed

theorem no_token_invented (environment : Environment) (requests more : List Request) :
    let session := requests.foldl perform (start environment)
    let given := requests.flatMap Request.tokens
    let own := texts environment requests
    let files := session.state.dependencies.toList
    (∀ token ∈ session.state.output,
        token ∈ given ∨ ∃ lexed ∈ own ++ files, token ∈ lexed.tokens) ∧
      (∀ definition ∈ session.state.macros.definitions, ∀ token ∈ definition.tokens,
        token ∈ given ∨ ∃ lexed ∈ own ++ files, token ∈ lexed.tokens) ∧
      (∀ lexed ∈ files, ∃ number path text, environment.loader path = .ok text ∧
        lexed = .ofText (environment.numbering.serial number) path.text text) ∧
      ((own ++ files).map (·.source.serial)).Perm
        ((List.range session.state.lexings).map environment.numbering.serial) ∧
      ((own ++ files).map (·.source.serial)).Nodup ∧
      files <+: (more.foldl perform session).state.dependencies.toList := by
  intro session given own files
  let known : Token → Prop := fun token => token ∈ given ∨ ∃ lexed ∈ own, token ∈ lexed.tokens
  have traced := session_traced environment known requests (fun _ => .inl)
    fun lexed member token inside => .inr ⟨lexed, member, inside⟩
  have tells : ∀ token, session.state.Knows known token →
      token ∈ given ∨ ∃ lexed ∈ own ++ files, token ∈ lexed.tokens := by
    rintro token ((brought | ⟨lexed, member, inside⟩) | ⟨lexed, member, inside⟩)
    · exact .inl brought
    · exact .inr ⟨lexed, List.mem_append_left _ member, inside⟩
    · exact .inr ⟨lexed, List.mem_append_right _ (Array.mem_toList_iff.mpr member), inside⟩
  have distinct : ((List.range session.state.lexings).map environment.numbering.serial).Nodup :=
    List.pairwise_map.mpr (List.nodup_range.imp fun differ same =>
      differ (environment.numbering.distinct _ _ same))
  have same : session.environment = environment :=
    (performAll_environment requests (start environment)).trans (start_environment environment)
  have retained := performAll_traced (fun _ => True) own files session
    ⟨fun _ _ => .inl trivial, fun _ _ _ _ => .inl trivial, same ▸ traced.loaded,
      same ▸ traced.numbered, List.prefix_refl _⟩ more (fun _ _ => trivial) fun _ _ _ _ => trivial
  exact ⟨fun token member => tells token (traced.output token member),
    fun definition member token inside => tells token (traced.macros definition member token inside),
    fun lexed member => traced.loaded lexed (Array.mem_toList_iff.mp member), traced.numbered,
    traced.numbered.nodup_iff.mpr distinct, retained.kept⟩

-- A file that is included twice is lexed twice, and its tokens can be told apart.
example :
    let files : MemoryFiles := MemoryFiles.empty.insert ⟨"a.h".toList⟩ "x".toList
    let root := lex "main.c".toList "#include \"a.h\"\n#include \"a.h\"\n".toList
    let after := (Engine.preprocess ⟨.default, files.loader, .fromOne⟩ root .initial).1
    after.output.toList.map (·.source.serial) = [1, 2] ∧
      after.dependencies.toList.map (·.source.serial) = [1, 2] := by
  decide +kernel

end Session

end CPreprocessor
