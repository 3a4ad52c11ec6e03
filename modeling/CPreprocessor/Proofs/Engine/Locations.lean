import CPreprocessor.Proofs.Engine.Aborts
import CPreprocessor.Proofs.Engine.Provenance
import CPreprocessor.Proofs.Lexing.Tiling

/-!
Where reports point. All that a run reports stands at a token which it reads, at one that a macro
brought along, or at a comment that never closes, and each of these lies in a text that was lexed.
-/

set_option autoImplicit false

namespace CPreprocessor

open Conditional (Frame Stack)

namespace Log

def Tells (placed : Diagnostic → Prop) (before after : Log) : Prop :=
  ∃ told, after = before.reportAll told ∧ ∀ diagnostic ∈ told, placed diagnostic

theorem tells_same (placed : Diagnostic → Prop) (log : Log) : Tells placed log log :=
  ⟨[], (reportAll_nil log).symm, by simp⟩

theorem tells_report (placed : Diagnostic → Prop) (log : Log) (diagnostic : Diagnostic)
    (holds : placed diagnostic) : Tells placed log (log.report diagnostic) :=
  ⟨[diagnostic], report_eq log diagnostic, by simpa using holds⟩

theorem Tells.trans {placed : Diagnostic → Prop} {first second third : Log}
    (left : Tells placed first second) (right : Tells placed second third) :
    Tells placed first third := by
  obtain ⟨told, rfl, early⟩ := left
  obtain ⟨more, rfl, late⟩ := right
  exact ⟨told ++ more, (reportAll_append first told more).symm, List.forall_mem_append.mpr ⟨early, late⟩⟩

theorem Tells.mono {placed wider : Diagnostic → Prop} {before after : Log}
    (tells : Tells placed before after) (implies : ∀ diagnostic, placed diagnostic → wider diagnostic) :
    Tells wider before after := by
  obtain ⟨told, same, holds⟩ := tells
  exact ⟨told, same, fun diagnostic member => implies diagnostic (holds diagnostic member)⟩

end Log

def Diagnostic.PointsTo (known : Token → Prop) (diagnostic : Diagnostic) : Prop :=
  ∃ (problem : Problem) (token : Token), known token ∧ diagnostic = problem.located token.location

theorem Diagnostic.PointsTo.mono {known wider : Token → Prop} {diagnostic : Diagnostic}
    (points : diagnostic.PointsTo known) (implies : ∀ token, known token → wider token) :
    diagnostic.PointsTo wider := by
  obtain ⟨problem, token, is, same⟩ := points
  exact ⟨problem, token, implies token is, same⟩

namespace MacroTable

theorem expandAll_points (table : MacroTable) (known : Token → Prop)
    (bodies : table.BodiesAre known) (guard : List Text) (tokens : List Token)
    (given : ∀ token ∈ tokens, known token) :
    ∀ diagnostic ∈ (table.expandAll guard tokens).diagnostics, diagnostic.PointsTo known := by
  induction guard, tokens using table.expandAll_induction with
  | nil guard => simp [expandAll, Expansion.empty]
  | cons guard token tail inner later =>
      obtain ⟨first, others⟩ := List.forall_mem_cons.mp given
      have unread := table.expandHead_suffix guard token tail
      rw [expandAll_cons]
      refine List.forall_mem_append.mpr
        ⟨?_, later fun other member => others other (unread.subset member)⟩
      rw [expandHead]
      cases use : Use.ofToken table guard token tail with
      | plain => simp [Expansion.verbatim]
      | unterminated definition => exact List.forall_mem_singleton.mpr ⟨_, token, first, rfl⟩
      | misfit definition count rest => exact List.forall_mem_singleton.mpr ⟨_, token, first, rfl⟩
      | expands definition replacement rest =>
          exact inner definition replacement rest use
            (table.replacement_allowed known bodies guard token tail
              (fun other member => others other (table.collected_subset _ _ _ member)) _ _ rest use)

theorem expandHead_points (table : MacroTable) (known : Token → Prop)
    (bodies : table.BodiesAre known) (guard : List Text) (token : Token) (tail : List Token)
    (given : ∀ other ∈ token :: tail, known other) :
    ∀ diagnostic ∈ (table.expandHead guard token tail).1.diagnostics, diagnostic.PointsTo known := by
  have whole := table.expandAll_points known bodies guard (token :: tail) given
  rw [expandAll_cons] at whole
  exact (List.forall_mem_append.mp whole).1

end MacroTable

namespace Operand

theorem moreParameters_names (paren : Token) (seen tokens : List Token) (fault : Fault)
    (failed : moreParameters paren seen tokens = .error fault) : fault.1 ∈ paren :: tokens := by
  have read : ∀ tokens tail : List Token, ∀ token, Token.skipSpace tokens = token :: tail →
      token :: tail ⊆ tokens := fun tokens tail token start => start ▸ Token.skipSpace_subset tokens
  fun_induction moreParameters paren seen tokens with
  | case1 seen tokens start =>
      cases failed
      exact List.mem_cons_self
  | case2 seen tokens parameter tail start unnamed =>
      cases failed
      exact List.mem_cons_of_mem _ (read tokens tail parameter start List.mem_cons_self)
  | case3 seen tokens parameter tail start named again =>
      cases failed
      exact List.mem_cons_of_mem _ (read tokens tail parameter start List.mem_cons_self)
  | case4 seen tokens parameter tail start named fresh next =>
      cases failed
      exact List.mem_cons_of_mem _ (read tokens tail parameter start List.mem_cons_self)
  | case5 seen tokens parameter tail start named fresh separator after next comma ih =>
      have later : after ⊆ tokens := fun token member =>
        read tokens tail parameter start (List.mem_cons_of_mem _
          (read tail after separator next (List.mem_cons_of_mem _ member)))
      exact List.cons_subset_cons paren later (ih failed)
  | case6 seen tokens parameter tail start named fresh separator after next comma closes => cases failed
  | case7 seen tokens parameter tail start named fresh separator after next comma closes =>
      cases failed
      exact List.mem_cons_of_mem _ (read tokens tail parameter start
        (List.mem_cons_of_mem _ (read tail after separator next List.mem_cons_self)))

theorem parameters_names (paren : Token) (tokens : List Token) (fault : Fault)
    (failed : parameters paren tokens = .error fault) : fault.1 ∈ paren :: tokens := by
  rw [parameters] at failed
  split at failed
  · exact moreParameters_names paren [] tokens fault failed
  · split at failed
    · cases failed
    · exact moreParameters_names paren [] tokens fault failed

theorem definition_names (directive : Token) (operands : List Token) (fault : Fault)
    (failed : definition directive operands = .error fault) : fault.1 ∈ directive :: operands := by
  rw [definition] at failed
  cases start : Token.skipSpace operands with
  | nil =>
      rw [start] at failed
      cases failed
      exact List.mem_cons_self
  | cons name rest =>
      have inside : name :: rest ⊆ operands := start ▸ Token.skipSpace_subset operands
      rw [start] at failed
      dsimp only at failed
      by_cases named : name.kind = .name
      · rw [if_neg (not_not_intro named)] at failed
        cases rest with
        | nil => cases failed
        | cons paren inner =>
            dsimp only at failed
            by_cases opens : paren.isOther '(' = true
            · rw [if_pos opens] at failed
              cases listed : parameters paren inner with
              | ok given =>
                  rw [listed] at failed
                  cases failed
              | error found =>
                  rw [listed] at failed
                  cases failed
                  exact List.mem_cons_of_mem _ (inside (List.mem_cons_of_mem _
                    (parameters_names paren inner fault listed)))
            · rw [if_neg opens] at failed
              cases failed
      · rw [if_pos named] at failed
        cases failed
        exact List.mem_cons_self

end Operand

def Conditional.Stack.OpenersAre (known : Token → Prop) (stack : Stack) : Prop :=
  ∀ frame ∈ stack.frames, ∀ opener ∈ frame.opener, known opener

namespace Conditional.Stack

variable (known : Token → Prop) (stack : Stack) (openers : stack.OpenersAre known)
include openers

theorem openersAre_pushState (state : FrameState) (opener : Token) (is : known opener) :
    (stack.pushState state opener).OpenersAre known := by
  refine List.forall_mem_cons.mpr ⟨fun token same => ?_, openers⟩
  cases same
  exact is

theorem openersAre_above (floor : Nat) (frame : Frame) (below : List Frame)
    (found : stack.topAbove? floor = some (frame, below)) :
    (∀ opener ∈ frame.opener, known opener) ∧ OpenersAre known ⟨below⟩ := by
  obtain ⟨rfl, _⟩ := topAbove_some stack floor frame below found
  exact List.forall_mem_cons.mp openers

theorem openersAre_suppress (floor : Nat) : (stack.suppress floor).2.OpenersAre known := by
  rw [suppress]
  cases found : stack.topAbove? floor with
  | none => exact openers
  | some top =>
      exact List.forall_mem_cons.mpr (openersAre_above known stack openers floor top.1 top.2 found)

theorem openersAre_flipElse (floor : Nat) : (stack.flipElse floor).2.OpenersAre known := by
  rw [flipElse]
  cases found : stack.topAbove? floor with
  | none => exact openers
  | some top =>
      dsimp only
      split
      · exact openers
      · exact List.forall_mem_cons.mpr (openersAre_above known stack openers floor top.1 top.2 found)

theorem openersAre_pop (floor : Nat) : (stack.pop floor).2.OpenersAre known := by
  rw [pop]
  cases found : stack.topAbove? floor with
  | none => exact openers
  | some top => exact (openersAre_above known stack openers floor top.1 top.2 found).2

end Conditional.Stack

namespace State

structure Marks (known : Token → Prop) (before after : State) : Prop where
  openers : after.stack.OpenersAre known
  log : Log.Tells (Diagnostic.PointsTo known) before.log after.log

section

variable (known : Token → Prop) (state : State) (floor : Nat) (name : Token)
  (openers : state.stack.OpenersAre known)

theorem tells_token (token : Token) (problem : Problem) (is : known token) :
    Log.Tells (Diagnostic.PointsTo known) state.log (state.report token problem).log :=
  Log.tells_report _ _ _ ⟨problem, token, is, rfl⟩

include openers

theorem marks_same : Marks known state state := ⟨openers, Log.tells_same _ _⟩

theorem marks_report (token : Token) (problem : Problem) (is : known token) :
    Marks known state (state.report token problem) :=
  ⟨openers, tells_token known state token problem is⟩

variable (is : known name)
include is

theorem marks_openTest (defined : Bool) (operands : List Token) :
    Marks known state (state.openTest defined name operands) := by
  rw [openTest]
  cases Operand.macroName? operands with
  | some operand =>
      exact ⟨state.stack.openersAre_pushState known openers _ name is, Log.tells_same _ _⟩
  | none =>
      cases state.isActive with
      | true =>
          exact ⟨state.stack.openersAre_pushState known openers _ name is,
            tells_token known state name _ is⟩
      | false => exact ⟨state.stack.openersAre_pushState known openers _ name is, Log.tells_same _ _⟩

theorem marks_openUnsupported : Marks known state (state.openUnsupported name) := by
  rw [openUnsupported]
  cases state.isActive with
  | true =>
      exact ⟨state.stack.openersAre_pushState known openers _ name is,
        tells_token known state name _ is⟩
  | false => exact ⟨state.stack.openersAre_pushState known openers _ name is, Log.tells_same _ _⟩

omit openers in
theorem marks_settle {α : Type} (outcome : Except Conditional.Misuse α × Stack)
    (kept : outcome.2.OpenersAre known) : Marks known state (state.settle name outcome) := by
  obtain ⟨misuse | value, stack⟩ := outcome
  · exact ⟨kept, tells_token known state name _ is⟩
  · exact ⟨kept, Log.tells_same _ _⟩

theorem marks_suppressBlock : Marks known state (state.suppressBlock floor name) := by
  have kept := state.stack.openersAre_suppress known openers floor
  rw [suppressBlock]
  generalize state.stack.suppress floor = outcome at kept
  obtain ⟨misuse | before, stack⟩ := outcome
  · exact ⟨kept, tells_token known state name _ is⟩
  · dsimp only
    split
    · exact ⟨kept, Log.tells_same _ _⟩
    · exact ⟨kept, tells_token known state name _ is⟩

theorem marks_flipBlock : Marks known state (state.flipBlock floor name) :=
  marks_settle known state name is _ (state.stack.openersAre_flipElse known openers floor)

theorem marks_closeBlock : Marks known state (state.closeBlock floor name) :=
  marks_settle known state name is _ (state.stack.openersAre_pop known openers floor)

theorem marks_obey (operands : List Token) (given : ∀ token ∈ operands, known token) :
    Marks known state (state.obey floor name operands) := by
  rw [obey]
  cases Directive.ofName name.text with
  | ifdef => exact marks_openTest known state name openers is true operands
  | ifndef => exact marks_openTest known state name openers is false operands
  | ifExpression => exact marks_openUnsupported known state name openers is
  | elifExpression => exact marks_suppressBlock known state floor name openers is
  | elseBranch => exact marks_flipBlock known state floor name openers is
  | endif => exact marks_closeBlock known state floor name openers is
  | inclusion => exact marks_same known state openers
  | define =>
      cases state.isActive with
      | false => exact marks_same known state openers
      | true =>
          rw [if_pos rfl, defineMacro]
          cases written : Operand.definition name operands with
          | ok definition => exact ⟨openers, Log.tells_same _ _⟩
          | error fault =>
              refine marks_report known state openers fault.1 fault.2 ?_
              exact List.forall_mem_cons.mpr ⟨is, given⟩ _
                (Operand.definition_names name operands fault written)
  | undef =>
      cases state.isActive with
      | false => exact marks_same known state openers
      | true =>
          rw [if_pos rfl, undefineMacro]
          cases Operand.macroName? operands with
          | some operand => exact ⟨openers, Log.tells_same _ _⟩
          | none => exact marks_report known state openers name _ is
  | unknown =>
      cases state.isActive with
      | false => exact marks_same known state openers
      | true => exact marks_report known state openers name _ is

end

def Places (root : Lexed) (known : Token → Prop) (state : State) (diagnostic : Diagnostic) : Prop :=
  diagnostic.PointsTo (state.Knows known) ∨ diagnostic ∈ root.diagnostics ∨
    ∃ lexed ∈ state.dependencies, diagnostic ∈ lexed.diagnostics

-- Whatever may be reported later is known, and all that was reported points to something known.
structure Situated (root : Lexed) (known : Token → Prop) (earlier : Log) (state : State) : Prop where
  sound : state.stack.Sound
  openers : state.stack.OpenersAre (state.Knows known)
  bodies : state.macros.BodiesAre (state.Knows known)
  told : Log.Tells (state.Places root known) earlier state.log

section

variable {root : Lexed} {known : Token → Prop} {earlier : Log} {state : State}

theorem places_entered (environment : Environment) (path : Path) (text : Text)
    (diagnostic : Diagnostic) (places : state.Places root known diagnostic) :
    (state.entered environment path text).Places root known diagnostic := by
  rcases places with points | inRoot | ⟨file, member, inside⟩
  · exact .inl (points.mono (knows_entered path text))
  · exact .inr (.inl inRoot)
  · exact .inr (.inr ⟨file, Array.mem_push_of_mem _ member, inside⟩)

variable (situated : state.Situated root known earlier)
include situated

theorem Situated.tell (diagnostics : List Diagnostic)
    (points : ∀ diagnostic ∈ diagnostics, diagnostic.PointsTo (state.Knows known)) :
    Log.Tells (state.Places root known) earlier (state.log.reportAll diagnostics) :=
  situated.told.trans ⟨diagnostics, rfl, fun diagnostic member => .inl (points diagnostic member)⟩

theorem Situated.report (token : Token) (problem : Problem) (knows : state.Knows known token) :
    (state.report token problem).Situated root known earlier :=
  ⟨situated.sound, situated.openers, situated.bodies,
    situated.told.trans (Log.tells_report _ _ _ (.inl ⟨problem, token, knows, rfl⟩))⟩

theorem Situated.emit (expansion : Expansion)
    (points : ∀ diagnostic ∈ expansion.diagnostics, diagnostic.PointsTo (state.Knows known)) :
    (state.emit expansion).Situated root known earlier :=
  ⟨situated.sound, situated.openers, situated.bodies, situated.tell expansion.diagnostics points⟩

theorem Situated.ask (paths : List Path) : (state.asked paths).Situated root known earlier :=
  ⟨situated.sound, situated.openers, situated.bodies, situated.told⟩

theorem Situated.enter (environment : Environment) (path : Path) (text : Text) :
    (state.entered environment path text).Situated root known earlier := by
  refine ⟨situated.sound, ?_, ?_, ?_⟩
  · exact fun frame member opener opens =>
      knows_entered path text opener (situated.openers frame member opener opens)
  · exact fun definition member token inside =>
      knows_entered path text token (situated.bodies definition member token inside)
  · refine (situated.told.mono (places_entered environment path text)).trans ⟨_, rfl, ?_⟩
    exact fun diagnostic member => .inr (.inr ⟨_, Array.mem_push_self, member⟩)

theorem Situated.obey (floor : Nat) (name : Token) (operands : List Token)
    (given : ∀ token ∈ name :: operands, state.Knows known token) :
    (state.obey floor name operands).Situated root known earlier := by
  obtain ⟨knows, others⟩ := List.forall_mem_cons.mp given
  have obeys := state.obey_obeys floor name operands
  have marks := marks_obey (state.Knows known) state floor name situated.openers knows operands others
  have bodies := MacroTable.bodies_moves (state.Knows known) name operands _ _ others
    situated.bodies obeys.macros
  have sound := Stack.moves_sound floor _ _ obeys.stack situated.sound
  have told := situated.told.trans (marks.log.mono fun _ => .inl)
  generalize state.obey floor name operands = after at obeys marks bodies sound told
  obtain ⟨macros, stack, output, dependencies, log, reads, lexings⟩ := after
  have same : dependencies = state.dependencies := obeys.dependencies
  subst same
  exact ⟨sound, marks.openers, bodies, told⟩

-- The frames that are closed where a file ends are above the root, so each of them has an opener.
theorem Situated.left (floor : Nat) :
    ∀ diagnostic ∈ Engine.leftReports (state.stack.closeAbove floor).1,
      diagnostic.PointsTo (state.Knows known) := by
  intro diagnostic member
  obtain ⟨frame, closed, rfl⟩ := List.mem_map.mp member
  have taken := List.mem_reverse.mp closed
  have above : frame ∈ state.stack.frames.dropLast := by
    rw [List.dropLast_eq_take]
    exact List.take_subset_take_left _ (Nat.sub_le _ _) taken
  obtain ⟨opener, opens⟩ := Option.isSome_iff_exists.mp (situated.sound.openers frame above)
  refine ⟨.unterminatedConditional, opener, ?_, by rw [opens]; rfl⟩
  exact situated.openers frame (List.mem_of_mem_take taken) opener opens

theorem Situated.finish (floor : Nat) (failure : Option Failure) :
    (Engine.finish floor (state, failure)).1.Situated root known earlier := by
  have sound := Stack.closeAbove_sound state.stack floor situated.sound
  have openers : (state.stack.closeAbove floor).2.OpenersAre (state.Knows known) :=
    fun frame member => situated.openers frame (List.mem_of_mem_drop member)
  cases failure with
  | some failure => exact ⟨sound, openers, situated.bodies, situated.told⟩
  | none => exact ⟨sound, openers, situated.bodies, situated.tell _ (situated.left floor)⟩

end

end State

namespace Running

structure Situated (root : Lexed) (known : Token → Prop) (earlier : Log) (running : Running) :
    Prop where
  state : running.state.Situated root known earlier
  reads : running.Reads known

section

variable {root : Lexed} {known : Token → Prop} {earlier : Log} {state : State}
  (situated : state.Situated root known earlier) (activation : Activation)
  (outer : List Activation)
  (here : ∀ token ∈ activation.tokens, state.Knows known token)
include situated here

theorem obeyLine_situated (environment : Environment) (line : DirectiveLine)
    (found : DirectiveLine.ofLine? activation.tokens = some line) :
    (obeyLine environment activation outer line state).state.Situated root known earlier := by
  have parts := DirectiveLine.ofLine_subset activation.tokens line found
  have name : state.Knows known line.name := here _ (parts List.mem_cons_self)
  have operands : ∀ token ∈ line.operands, state.Knows known token := fun token member =>
    here token (DirectiveLine.ofLine_operands activation.tokens line found member)
  obtain ⟨next, outcome, same⟩ := obeyLine_outcome environment activation outer line state
  rw [same]
  cases outcome with
  | refused problem failure => exact (situated.ask _).report line.name problem name
  | entered path text => exact (situated.ask _).enter environment path text
  | obeyed =>
      exact situated.obey activation.floor line.name line.operands
        (List.forall_mem_cons.mpr ⟨name, operands⟩)

theorem readToken_situated (token : Token) (tail : List Token)
    (next : activation.tokens = token :: tail) :
    (readToken activation outer token tail state).state.Situated root known earlier := by
  rw [next] at here
  have points := state.macros.expandHead_points (state.Knows known) situated.bodies [] token tail here
  rw [readToken]
  by_cases active : state.isActive = true
  · rw [if_pos active]
    exact situated.emit _ points
  · rw [if_neg active]
    exact situated

end

theorem step_situated (environment : Environment) (root : Lexed) (known : Token → Prop)
    (earlier : Log) (running : Running) (situated : running.Situated root known earlier) :
    (running.step environment).Situated root known earlier := by
  refine ⟨?_, step_reads environment known running situated.reads⟩
  obtain ⟨activations, state, failure⟩ := running
  obtain ⟨known, reads⟩ := situated
  obtain ⟨next, turn, stepped⟩ := step_turn environment activations failure
  rw [stepped]
  cases turn with
  | ended => exact known
  | left activation outer => exact known.finish activation.floor failure
  | obeyed activation outer line found =>
      exact obeyLine_situated known activation outer (reads activation List.mem_cons_self)
        environment line found
  | read activation outer token tail left =>
      exact readToken_situated known activation outer (reads activation List.mem_cons_self) token
        tail left

end Running

theorem Engine.preprocess_situated (environment : Environment) (root : Lexed) (state : State)
    (sound : state.stack = .empty) (known : Token → Prop)
    (given : ∀ token ∈ root.tokens, known token) (bodies : state.macros.BodiesAre known) :
    (preprocess environment root state).1.Situated root known state.log := by
  have starts : (Running.start root state).Situated root known state.log := by
    refine ⟨⟨?_, ?_, ?_, ?_⟩, ?_⟩
    · exact sound ▸ Stack.sound_empty
    · intro frame member opener opens
      have bottom : frame ∈ Stack.empty.frames := sound ▸ member
      rw [List.mem_singleton.mp bottom] at opens
      cases opens
    · exact fun definition member token inside => .inl (bodies definition member token inside)
    · exact ⟨root.diagnostics, rfl, fun diagnostic member => .inr (.inl member)⟩
    · intro activation member token inside
      rw [List.mem_singleton.mp member] at inside
      exact .inl (given token inside)
  exact (Running.run_keeps environment root state _
    (Running.step_situated environment root known state.log) starts).state

namespace Lexed

def Real (lexed : Lexed) : Prop := ∃ serial name content, lexed = ofText serial name content

inductive Yields (lexed : Lexed) : Token → Prop
  | lexed (token : Token) (inside : token ∈ lexed.tokens) : Yields lexed token
  | joined (left right whole : Token) (first : Yields lexed left) (second : Yields lexed right)
      (joins : left.join? right = some whole) : Yields lexed whole

theorem real_source (lexed : Lexed) (real : lexed.Real) : ∀ token ∈ lexed.tokens,
    token.source = lexed.source ∧ token.origin = lexed.source.offsets.origin token.span := by
  obtain ⟨serial, name, content, rfl⟩ := real
  exact fun token inside => ⟨Token.place_source _ _ _ token inside,
    Token.place_origin _ _ _ token inside⟩

theorem yields_start (lexed : Lexed) (real : lexed.Real) (token : Token)
    (yields : lexed.Yields token) :
    token.source = lexed.source ∧ ∃ first ∈ lexed.tokens, token.span.start = first.span.start ∧
      token.origin.start = first.origin.start := by
  induction yields with
  | lexed token inside =>
      exact ⟨(lexed.real_source real token inside).1, token, inside, rfl, rfl⟩
  | joined left right whole yields _ joins ih _ =>
      obtain ⟨source, first, inside, span, _⟩ := ih
      rw [Token.join?] at joins
      split at joins
      · obtain ⟨joined, adjacent, rfl⟩ := Option.map_eq_some_iff.mp joins
        rw [Span.join?] at adjacent
        split at adjacent
        · cases adjacent
          refine ⟨source, first, inside, span, ?_⟩
          rw [OffsetMap.origin_start, (lexed.real_source real first inside).2,
            OffsetMap.origin_start, source, span]
        · cases adjacent
      · cases joins

def Reportable (lexed : Lexed) (offset : Nat) : Prop :=
  (∃ token ∈ lexed.tokens, token.origin.start = offset) ∨ lexed.openComment = some offset

theorem reportable_lt (lexed : Lexed) (real : lexed.Real) (offset : Nat)
    (begins : lexed.Reportable offset) : offset < lexed.source.file.content.byteLength := by
  obtain ⟨serial, name, content, rfl⟩ := real
  rcases begins with ⟨token, inside, rfl⟩ | unclosed
  · exact ofText_token_lt serial name content token inside
  · exact ofText_openComment_lt serial name content offset unclosed

end Lexed

structure Diagnostic.LiesIn (lexed : Lexed) (diagnostic : Diagnostic) : Prop where
  coded : diagnostic.code.isSome = true
  located : ∃ offset < lexed.source.file.content.byteLength, lexed.Reportable offset ∧
    diagnostic.location = some ⟨lexed.file, (lexed.source.file.lineColumn offset).1,
      (lexed.source.file.lineColumn offset).2⟩

theorem Lexed.diagnostics_lie (lexed : Lexed) (real : lexed.Real) (diagnostic : Diagnostic)
    (member : diagnostic ∈ lexed.diagnostics) : diagnostic.LiesIn lexed := by
  rw [diagnostics] at member
  cases unclosed : lexed.openComment with
  | none =>
      rw [unclosed] at member
      cases member
  | some offset =>
      rw [unclosed] at member
      rw [List.mem_singleton.mp member]
      have begins : lexed.Reportable offset := .inr unclosed
      exact ⟨rfl, offset, lexed.reportable_lt real offset begins, begins, rfl⟩

theorem Lexed.yields_lie (lexed : Lexed) (real : lexed.Real) (token : Token)
    (yields : lexed.Yields token) (problem : Problem) :
    (problem.located token.location).LiesIn lexed := by
  obtain ⟨source, first, inside, _, start⟩ := lexed.yields_start real token yields
  have begins : lexed.Reportable first.origin.start := .inl ⟨first, inside, rfl⟩
  refine ⟨rfl, first.origin.start, lexed.reportable_lt real _ begins, begins, ?_⟩
  rw [Problem.located, Problem.withLocation, Token.location, source, start]
  rfl

def Token.Made (token : Token) : Prop := ∃ lexed : Lexed, lexed.Real ∧ lexed.Yields token

theorem Lexed.real_made (lexed : Lexed) (real : lexed.Real) : ∀ token ∈ lexed.tokens, token.Made :=
  fun token inside => ⟨lexed, real, .lexed token inside⟩

-- What a session is given was lexed, though some of it may have been joined.
def Request.Real : Request → Prop
  | .run root => root.Real
  | .define _ _ => True
  | .addMacro definition => ∀ token ∈ definition.tokens, token.Made
  | .removeMacro _ => True

theorem Request.real_tokens (request : Request) (real : request.Real) :
    ∀ token ∈ request.tokens, token.Made := by
  cases request with
  | run root => exact root.real_made real
  | addMacro definition => exact real
  | define name body => exact fun _ inside => absurd inside List.not_mem_nil
  | removeMacro name => exact fun _ inside => absurd inside List.not_mem_nil

namespace Session

theorem texts_real (environment : Environment) (requests : List Request) :
    ∀ lexed ∈ texts environment requests, lexed.Real := by
  have defined : ∀ (session : Session) (name body : Text),
      ∀ lexed ∈ session.definitionTexts name body, lexed.Real := by
    intro session name body lexed member
    rw [definitionTexts] at member
    split at member
    · rcases List.mem_cons.mp member with rfl | later
      · exact ⟨_, _, _, rfl⟩
      · exact ⟨_, _, _, List.mem_singleton.mp later⟩
    · cases member
  have requested : ∀ (session : Session) (request : Request),
      ∀ lexed ∈ session.requestTexts request, lexed.Real := by
    intro session request
    cases request with
    | define name body => exact defined session name body
    | run root => exact fun _ inside => absurd inside List.not_mem_nil
    | addMacro definition => exact fun _ inside => absurd inside List.not_mem_nil
    | removeMacro name => exact fun _ inside => absurd inside List.not_mem_nil
  rw [texts, List.forall_mem_append]
  exact ⟨textsAlong_all _ _ _ (fun session _ => defined session _ _) _ _,
    textsAlong_all _ _ _ requested _ _⟩

theorem real_traced (environment : Environment) (requests : List Request)
    (real : ∀ request ∈ requests, request.Real) :
    (requests.foldl perform (start environment)).state.Traced environment Token.Made
      (texts environment requests) [] := by
  apply session_traced environment Token.Made requests
  · intro token inside
    obtain ⟨request, member, brought⟩ := List.mem_flatMap.mp inside
    exact request.real_tokens (real request member) token brought
  · exact fun lexed member => lexed.real_made (texts_real environment requests lexed member)

theorem reports_located (environment : Environment) (requests : List Request)
    (real : ∀ request ∈ requests, request.Real) (root : Lexed) (lexed : root.Real) :
    let before := (requests.foldl perform (start environment)).state
    let after := (Engine.preprocess environment root before).1
    ∃ told, after.log = before.log.reportAll told ∧ ∀ diagnostic ∈ told,
      ∃ buffer : Lexed, buffer.Real ∧ diagnostic.LiesIn buffer ∧
        (buffer = root ∨ buffer ∈ after.dependencies ∨
          ∃ definition ∈ before.macros.definitions, ∃ token ∈ definition.tokens,
            token.source = buffer.source) := by
  intro before after
  have idle : before.stack = .empty := (Machine.performAll_idle requests (start environment)
    (predefineAll_same environment.config.defines ⟨environment, .initial⟩).2).2
  have traced := real_traced environment requests real
  have reached := Engine.preprocess_traced environment Token.Made _ [] root before
    (root.real_made lexed) traced
  have files : ∀ file ∈ after.dependencies, file.Real := by
    intro file member
    obtain ⟨number, path, text, _, same⟩ := reached.loaded file member
    exact ⟨_, _, _, same⟩
  obtain ⟨told, logged, placed⟩ := (Engine.preprocess_situated environment root before idle
    (fun token => token ∈ root.tokens ∨
      ∃ definition ∈ before.macros.definitions, token ∈ definition.tokens)
    (fun _ => .inl) fun definition member token inside =>
      .inr ⟨definition, member, List.mem_cons_of_mem _ (List.mem_append_right _ inside)⟩).told
  refine ⟨told, logged, fun diagnostic member => ?_⟩
  rcases placed diagnostic member with ⟨problem, token, knows, rfl⟩ | inRoot | ⟨file, among, inFile⟩
  · rcases knows with (inside | ⟨definition, defined, inside⟩) | ⟨file, among, inside⟩
    · exact ⟨root, lexed, root.yields_lie lexed token (.lexed token inside) problem, .inl rfl⟩
    · obtain ⟨buffer, made, yields⟩ : token.Made := by
        rcases traced.macros definition defined token inside with made | ⟨file, among, own⟩
        · exact made
        · obtain ⟨number, path, text, _, same⟩ := traced.loaded file among
          exact file.real_made ⟨_, _, _, same⟩ token own
      exact ⟨buffer, made, buffer.yields_lie made token yields problem,
        .inr (.inr ⟨definition, defined, token, inside, (buffer.yields_start made token yields).1⟩)⟩
    · exact ⟨file, files file among,
        file.yields_lie (files file among) token (.lexed token inside) problem, .inr (.inl among)⟩
  · exact ⟨root, lexed, root.diagnostics_lie lexed diagnostic inRoot, .inl rfl⟩
  · exact ⟨file, files file among, file.diagnostics_lie (files file among) diagnostic inFile,
      .inr (.inl among)⟩

namespace Sample

def files : Environment :=
  ⟨.default, (MemoryFiles.empty.insert ⟨"a.h".toList⟩ "\n#else\n".toList).loader, .fromOne⟩

def first : Lexed := lex "first.c".toList "#define F(x) x\n".toList

def main : Lexed := lex "main.c".toList "F(1, 2)\n#include \"a.h\"\n  /* open".toList

end Sample

open Sample in
theorem reports_located_sample :
    (∀ request ∈ [Request.run first], request.Real) ∧ main.Real ∧
      ∃ told : List Diagnostic, told.map (fun report => (report.code, report.location)) =
          [(some .unterminatedComment, some ⟨"main.c".toList, 3, 3⟩),
            (some .macroArity, some ⟨"main.c".toList, 1, 1⟩),
            (some .unbalancedConditional, some ⟨"a.h".toList, 2, 2⟩)] ∧
        ∀ diagnostic ∈ told, ∃ buffer : Lexed, buffer.Real ∧ diagnostic.LiesIn buffer := by
  have requests : ∀ request ∈ [Request.run first], request.Real := by
    intro request member
    rw [List.mem_singleton.mp member]
    exact ⟨_, _, _, rfl⟩
  have root : main.Real := ⟨_, _, _, rfl⟩
  obtain ⟨told, logged, lies⟩ := reports_located files [.run first] requests main root
  have quiet : (perform (start files) (.run first)).state.log = .empty := by decide +kernel
  dsimp only [List.foldl_cons, List.foldl_nil] at logged lies
  have entries : (Engine.preprocess files main
      (perform (start files) (.run first)).state).1.log.entries.toList = told := by
    rw [logged, quiet]
    simp [Log.empty]
  refine ⟨requests, root, told, ?_, fun diagnostic member => ?_⟩
  · rw [← entries]
    decide +kernel
  · obtain ⟨buffer, real, lie, _⟩ := lies diagnostic member
    exact ⟨buffer, real, lie⟩

end Session

end CPreprocessor
