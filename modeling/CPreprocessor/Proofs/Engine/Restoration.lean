import CPreprocessor.Proofs.Engine.Machine

/-!
What a file can do to the file that includes it. However deep files nest and wherever one fails, the
frames, the include stack and the guard are afterwards as they were before, and output, dependencies,
diagnostics and the paths that were read have only been added to.
-/

set_option autoImplicit false

namespace CPreprocessor

open Conditional (Frame Stack)

-- The frames of outer files are the bottom of the stack, as many as the floor and the root.
namespace Conditional.Stack

theorem bottom_below (base : List Frame) (floor : Nat) (frame : Frame) (below : List Frame)
    (outer : base.length = floor + 1) (above : floor < below.length)
    (bottom : base <:+ frame :: below) : base <:+ below := by
  rcases List.suffix_cons_iff.mp bottom with same | inside
  · have length := congrArg List.length same
    rw [List.length_cons] at length
    omega
  · exact inside

theorem moves_bottom (base : List Frame) (floor : Nat) (before after : Stack)
    (outer : base.length = floor + 1) (moves : Moves floor before after)
    (bottom : base <:+ before.frames) : base <:+ after.frames := by
  cases moves with
  | same => exact bottom
  | opened state opener frames nested => exact bottom.trans (List.suffix_cons _ frames)
  | changed frame next below above advances settled =>
      exact (bottom_below base floor frame below outer above bottom).trans
        (List.suffix_cons next below)
  | closed frame below above => exact bottom_below base floor frame below outer above bottom

theorem closeAbove_bottom (base : List Frame) (stack : Stack) (floor : Nat)
    (outer : base.length = floor + 1) (bottom : base <:+ stack.frames) :
    (stack.closeAbove floor).2 = ⟨base⟩ := by
  have whole := List.suffix_iff_eq_drop.mp bottom
  have extra : stack.depth - floor = stack.frames.length - base.length := by
    rw [depth, outer]
    omega
  rw [closeAbove, extra, ← whole]

end Conditional.Stack

namespace State

structure Grows (before after : State) : Prop where
  output : before.output.toList <+: after.output.toList
  dependencies : before.dependencies.toList <+: after.dependencies.toList
  log : before.log.entries.toList <+: after.log.entries.toList
  reads : before.reads.toList <+: after.reads.toList
  lexings : before.lexings ≤ after.lexings

structure Extends (base : List Frame) (before after : State) : Prop extends Grows before after where
  frames : base <:+ before.stack.frames → base <:+ after.stack.frames

theorem grows_moved (state : State) (stack : Stack) (diagnostics : List Diagnostic) :
    Grows state ({ state with stack := stack }.reportAll diagnostics) :=
  ⟨List.prefix_refl _, List.prefix_refl _, by simp [reportAll], List.prefix_refl _,
    Nat.le_refl _⟩

theorem grows_refl (state : State) : Grows state state :=
  ⟨List.prefix_refl _, List.prefix_refl _, List.prefix_refl _, List.prefix_refl _, Nat.le_refl _⟩

theorem grows_obey (state : State) (floor : Nat) (name : Token) (operands : List Token) :
    Grows state (state.obey floor name operands) := by
  have obeys := obey_obeys state floor name operands
  refine ⟨?_, ?_, obeys.log.entries, ?_, obeys.lexings.ge⟩
  · simp [obeys.output]
  · simp [obeys.dependencies]
  · simp [obeys.reads]

theorem Grows.trans {first second third : State} (left : Grows first second)
    (right : Grows second third) : Grows first third :=
  ⟨left.output.trans right.output, left.dependencies.trans right.dependencies,
    left.log.trans right.log, left.reads.trans right.reads,
    Nat.le_trans left.lexings right.lexings⟩

section

variable (base : List Frame)

theorem extends_refl (state : State) : Extends base state state :=
  ⟨grows_refl state, id⟩

variable {base}

theorem Extends.trans {first second third : State} (left : Extends base first second)
    (right : Extends base second third) : Extends base first third :=
  ⟨left.toGrows.trans right.toGrows, right.frames ∘ left.frames⟩

variable (base)

theorem extends_report (state : State) (token : Token) (problem : Problem) :
    Extends base state (state.report token problem) :=
  ⟨{ grows_refl state with log := by simp [report] }, id⟩

theorem extends_emit (state : State) (expansion : Expansion) :
    Extends base state (state.emit expansion) :=
  ⟨{ grows_refl state with
      output := by simp [emit]
      log := by simp [emit] }, id⟩

theorem extends_sought (state : State) (environment : Environment) (files : List Path)
    (operands : List Token) : Extends base state (state.sought environment files operands) :=
  ⟨{ grows_refl state with reads := by simp [sought, asked] }, id⟩

theorem extends_entered (state : State) (environment : Environment) (path : Path) (text : Text) :
    Extends base state (state.entered environment path text) :=
  ⟨{ grows_refl state with
      dependencies := by simp
      log := by simp
      lexings := Nat.le_succ _ }, id⟩

theorem extends_obey (floor : Nat) (outer : base.length = floor + 1) (state : State) (name : Token)
    (operands : List Token) : Extends base state (state.obey floor name operands) :=
  ⟨grows_obey state floor name operands,
    Stack.moves_bottom base floor _ _ outer (obey_obeys state floor name operands).stack⟩

end

end State

theorem Engine.finish_grows (floor : Nat) (after : State) (result : Option Failure) :
    after.Grows (finish floor (after, result)).1 ∧
      (finish floor (after, result)).1.stack = (after.stack.closeAbove floor).2 := by
  cases result with
  | some failure => exact ⟨{ after.grows_refl with }, rfl⟩
  | none => exact ⟨after.grows_moved _ _, rfl⟩

namespace Machine

structure Keeps {α : Type} (base : List Frame) {start : Expander} (run : Ran α start) : Prop where
  state : start.state.Extends base run.expander.state
  guard : run.expander.guard = start.guard
  moments : ∀ files ∈ run.moments, start.files <:+ files

structure Restores {α : Type} {start : Expander} (run : Ran α start) : Prop where
  stack : run.expander.state.stack = start.state.stack
  files : run.expander.files = start.files
  guard : run.expander.guard = start.guard
  grows : start.state.Grows run.expander.state
  moments : ∀ files ∈ run.moments, start.files <:+ files

theorem keeps_of_restores {α : Type} (base : List Frame) {start : Expander} (run : Ran α start)
    (restored : Restores run) : Keeps base run :=
  ⟨⟨restored.grows, fun bottom => restored.stack ▸ bottom⟩, restored.guard, restored.moments⟩

theorem keeps_later {α : Type} (base : List Frame) {start middle : Expander}
    (earlier : List (List Path)) (later : Ran α middle)
    (reached : start.state.Extends base middle.state) (guard : middle.guard = start.guard)
    (files : middle.files = start.files) (before : ∀ files ∈ earlier, start.files <:+ files)
    (kept : Keeps base later) :
    Keeps base (⟨later.expander, later.result, earlier ++ later.moments, later.files.trans files⟩ :
      Ran α start) := by
  refine ⟨reached.trans kept.state, kept.guard.trans guard, ?_⟩
  intro moment inside
  rcases List.mem_append.mp inside with left | right
  · exact before moment left
  · exact files ▸ kept.moments moment right

section

variable (environment : Environment) {files : List Path} (includes : Includes environment files)
  (restored : ∀ path text inner (here : inner.files = files)
    (below : inner.files.length < environment.config.maxIncludeDepth),
    inner.state.stack.frames ≠ [] → Restores (includes path text inner here below))
  (base : List Frame) (floor : Nat) (outer : base.length = floor + 1)
include restored outer

theorem directive_keeps (name : Token) (operands : List Token) (expander : Expander)
    (here : expander.files = files) (bottom : base <:+ expander.state.stack.frames) :
    Keeps base (directive environment includes floor name operands expander here) := by
  rw [directive]
  by_cases included : expander.state.includes name = true
  · rw [if_pos included]
    have sought := State.extends_sought base expander.state environment expander.files operands
    split
    · exact ⟨sought.trans (State.extends_report base _ name _), rfl, by simp⟩
    · have rooted : expander.state.stack.frames ≠ [] := by
        intro empty
        rw [empty] at bottom
        rw [List.suffix_nil.mp bottom] at outer
        cases outer
      exact @keeps_later _ base expander (expander.sought environment operands) [] _ sought rfl rfl
        (by simp) (keeps_of_restores base _
          (restored _ _ (expander.sought environment operands) here _ rooted))
  · rw [if_neg included]
    exact ⟨State.extends_obey base floor outer expander.state name operands, rfl, by simp⟩

theorem lines_keeps (lineStart : Bool) (tokens : List Token) (expander : Expander)
    (here : expander.files = files) (bottom : base <:+ expander.state.stack.frames) :
    Keeps base (lines environment includes floor lineStart tokens expander here) := by
  fun_induction lines environment includes floor lineStart tokens expander here with
  | case1 lineStart expander here => exact ⟨State.extends_refl base _, rfl, by simp⟩
  | case2 lineStart expander here token tail line found step failure failed =>
      have kept := directive_keeps environment includes restored base floor outer line.name
        line.operands expander here bottom
      exact ⟨kept.state, kept.guard, kept.moments⟩
  | case3 lineStart expander here token tail line found step passed later _ ih =>
      have kept := directive_keeps environment includes restored base floor outer line.name
        line.operands expander here bottom
      exact keeps_later base step.moments later kept.state kept.guard step.files kept.moments
        (ih (kept.state.frames bottom))
  | case4 lineStart expander here token tail plain active step same later _ ih =>
      have emitted := (expander.expandName_emit token tail).1
      have reached : expander.state.Extends base (step.expander.emit step.tokens).state := by
        rw [emitted]
        exact State.extends_emit base expander.state _
      have guard : (step.expander.emit step.tokens).guard = expander.guard := by
        rw [emitted]
        rfl
      exact keeps_later base [] later reached guard same (by simp) (ih (reached.frames bottom))
  | case5 lineStart expander here token tail plain inactive ih => exact ih bottom

omit outer

theorem processFile_restores (tokens : List Token) (expander : Expander)
    (here : expander.files = files) (rooted : expander.state.stack.frames ≠ []) :
    Restores (processFile environment includes tokens expander here) := by
  have outer := expander.state.stack.length_rooted rooted
  have kept := lines_keeps environment includes restored expander.state.stack.frames
    expander.state.stack.depth outer true tokens expander here (List.suffix_refl _)
  obtain ⟨grows, closed⟩ := Engine.finish_grows expander.state.stack.depth
    (lines environment includes expander.state.stack.depth true tokens expander here).expander.state
    (lines environment includes expander.state.stack.depth true tokens expander here).result
  have bottom := Stack.closeAbove_bottom expander.state.stack.frames _ expander.state.stack.depth outer
    (kept.state.frames (List.suffix_refl _))
  exact ⟨closed.trans bottom, Ran.files _, kept.guard, kept.state.toGrows.trans grows, kept.moments⟩

end

theorem leaving_restores {α β : Type} (expander : Expander) (state : State) (path : Path)
    (answer : α → β) (run : Ran α ((expander.setState state).pushFile path))
    (stack : state.stack = expander.state.stack) (grows : expander.state.Grows state)
    (restored : Restores run) : Restores (@leaving α β expander _ path rfl answer run) := by
  refine ⟨restored.stack.trans stack, Ran.files _, restored.guard, grows.trans restored.grows, ?_⟩
  intro moment inside
  simp only [leaving, List.cons_append, List.mem_cons, List.mem_append, List.not_mem_nil,
    or_false] at inside
  rcases inside with here | there | back
  · exact here ▸ List.suffix_cons _ _
  · exact (List.suffix_cons _ _).trans (restored.moments moment there)
  · rw [back, Expander.popFile, restored.files]
    exact List.suffix_refl _

theorem process_restores (environment : Environment) (tokens : List Token) (expander : Expander)
    (rooted : expander.state.stack.frames ≠ []) : Restores (process environment tokens expander) := by
  induction measured : environment.config.maxIncludeDepth - expander.files.length
    using Nat.strongRecOn generalizing tokens expander with
  | ind size ih =>
      rw [process_eq]
      apply processFile_restores environment _ _ tokens expander rfl rooted
      intro path text inner here below rooted
      have deeper : environment.config.maxIncludeDepth -
          (inner.opened environment path text).files.length < size := by
        have longer : (inner.opened environment path text).files.length = inner.files.length + 1 :=
          rfl
        rw [longer, ← measured, ← here]
        omega
      exact leaving_restores inner _ path Engine.failureOf _ rfl
        (State.extends_entered [] inner.state environment path text).toGrows
        (ih _ deeper _ (inner.opened environment path text) rooted rfl)

theorem processIncluded_restores (environment : Environment) (path : Path) (text : Text)
    (expander : Expander) (rooted : expander.state.stack.frames ≠ []) :
    Restores (processIncluded environment path text expander) :=
  leaving_restores expander _ path Engine.failureOf _ rfl
    (State.extends_entered [] expander.state environment path text).toGrows
    (process_restores environment _ (expander.opened environment path text) rooted)

theorem preprocess_restores (environment : Environment) (root : Lexed) (expander : Expander)
    (rooted : expander.state.stack.frames ≠ []) : Restores (preprocess environment root expander) :=
  leaving_restores expander _ ⟨root.file⟩ (Engine.rootFailure root.file) _ rfl
    (State.grows_moved expander.state expander.state.stack root.diagnostics)
    (process_restores environment root.tokens _ rooted)

end Machine

inductive Request where
  | run (root : Lexed)
  | define (name body : Text)
  | addMacro (definition : Macro)
  | removeMacro (name : Text)

namespace Session

def perform (session : Session) : Request → Session
  | .run root => (session.run root).1
  | .define name body => (session.define name body).1
  | .addMacro definition => session.addMacro definition
  | .removeMacro name => session.removeMacro name

theorem define_same (session : Session) (name body : Text) :
    (session.define name body).1.environment = session.environment ∧
      (session.define name body).1.state.stack = session.state.stack := by
  rw [define]
  split
  · dsimp only [lexPredefined, State.lexNext]
    split <;> exact ⟨rfl, rfl⟩
  · exact ⟨rfl, rfl⟩

theorem predefine_same (session : Session) (entry : Text × Text) :
    (session.predefine entry).environment = session.environment ∧
      (session.predefine entry).state.stack = session.state.stack := by
  have same := define_same session entry.1 entry.2
  rw [predefine]
  generalize session.define entry.1 entry.2 = outcome at same ⊢
  obtain ⟨defined, failure⟩ := outcome
  cases failure <;> exact same

theorem predefineAll_same (entries : List (Text × Text)) (session : Session) :
    (entries.foldl predefine session).environment = session.environment ∧
      (entries.foldl predefine session).state.stack = session.state.stack := by
  induction entries generalizing session with
  | nil => exact ⟨rfl, rfl⟩
  | cons entry entries ih =>
      obtain ⟨environment, stack⟩ := predefine_same session entry
      obtain ⟨same, kept⟩ := ih (session.predefine entry)
      exact ⟨same.trans environment, kept.trans stack⟩

@[simp] theorem perform_environment (session : Session) (request : Request) :
    (session.perform request).environment = session.environment := by
  cases request with
  | run root => rfl
  | define name body => exact (define_same session name body).1
  | addMacro definition => rfl
  | removeMacro name => rfl

end Session

namespace Machine

def idle (state : State) : Expander := ⟨state, [], []⟩

def perform (environment : Environment) (expander : Expander) : Request → Expander
  | .run root => (preprocess environment root expander).expander
  | .define name body =>
      expander.setState ((Session.mk environment expander.state).define name body).1.state
  | .addMacro definition =>
      expander.setState ((Session.mk environment expander.state).addMacro definition).state
  | .removeMacro name =>
      expander.setState ((Session.mk environment expander.state).removeMacro name).state

theorem perform_idle (session : Session) (request : Request)
    (closed : session.state.stack = .empty) :
    perform session.environment (idle session.state) request =
        idle (session.perform request).state ∧
      (session.perform request).state.stack = .empty := by
  cases request with
  | run root =>
      have follows := preprocess_follows session.environment root (idle session.state) rfl rfl
      have restored := preprocess_restores session.environment root (idle session.state)
        (by rw [idle, closed]; exact List.cons_ne_nil _ _)
      have stack := restored.stack
      rw [follows.expander] at stack
      exact ⟨follows.expander, stack.trans closed⟩
  | define name body => exact ⟨rfl, (Session.define_same session name body).2.trans closed⟩
  | addMacro definition => exact ⟨rfl, closed⟩
  | removeMacro name => exact ⟨rfl, closed⟩

theorem performAll_idle (requests : List Request) (session : Session)
    (closed : session.state.stack = .empty) :
    requests.foldl (perform session.environment) (idle session.state) =
        idle (requests.foldl Session.perform session).state ∧
      (requests.foldl Session.perform session).state.stack = .empty := by
  induction requests generalizing session with
  | nil => exact ⟨rfl, closed⟩
  | cons request requests ih =>
      obtain ⟨reached, still⟩ := perform_idle session request closed
      have later := ih (session.perform request) still
      rw [Session.perform_environment session request] at later
      rw [List.foldl_cons, List.foldl_cons, reached]
      exact later

theorem includer_undisturbed (environment : Environment) :
    (∀ expander : Expander, expander.state.stack.frames ≠ [] →
      (∀ tokens, Restores (process environment tokens expander)) ∧
      (∀ path text, Restores (processIncluded environment path text expander)) ∧
      (∀ root, Restores (preprocess environment root expander))) ∧
    (∀ expander : Expander, expander.guard = [] →
      (∀ tokens, Follows (process environment tokens expander)
        (Engine.process environment (environment.config.maxIncludeDepth - expander.files.length)
          expander.files tokens expander.state)) ∧
      (∀ path text, Follows (processIncluded environment path text expander)
        (Engine.enterWith environment (Engine.process environment
          (environment.config.maxIncludeDepth - (path :: expander.files).length)
          (path :: expander.files)) path text expander.state)) ∧
      (∀ root, expander.files = [] → Follows (preprocess environment root expander)
        (Engine.preprocess environment root expander.state))) ∧
    ∀ requests : List Request,
      let session := requests.foldl Session.perform (Session.start environment)
      requests.foldl (perform environment) (idle (Session.start environment).state) =
          idle session.state ∧
        session.state.stack = .empty := by
  refine ⟨?_, ?_, ?_⟩
  · intro expander rooted
    exact ⟨fun tokens => process_restores environment tokens expander rooted,
      fun path text => processIncluded_restores environment path text expander rooted,
      fun root => preprocess_restores environment root expander rooted⟩
  · intro expander guard
    refine ⟨?_, ?_, fun root files => preprocess_follows environment root expander files guard⟩
    · intro tokens
      rw [Engine.process_within]
      exact process_follows environment tokens expander guard
    · intro path text
      rw [Engine.process_within]
      exact processIncluded_follows environment path text expander guard
  · intro requests
    obtain ⟨same, stack⟩ := Session.predefineAll_same environment.config.defines
      ⟨environment, .initial⟩
    have later := performAll_idle requests (Session.start environment) stack
    rwa [show (Session.start environment).environment = environment from same] at later

-- An included file that tries to close the block it stands in, and fails in a block of its own.
namespace Sample

def environment : Environment :=
  ⟨.default, (MemoryFiles.empty.insert ⟨"a.h".toList⟩
    "#endif\n#ifndef B\nx\n#include \"b.h\"\n".toList).loader, .fromOne⟩

def tokens : List Token :=
  [.spelled .other "#", .spelled .name "include", .spelled .spaceTab " ",
    .spelled .string "\"a.h\"", .spelled .newline "\n"]

def block : Frame := ⟨.active, false, some (.spelled .name "ifdef")⟩

def expander : Expander :=
  ⟨{ State.initial with stack := ⟨[block, .root]⟩ }, [⟨"main.c".toList⟩], []⟩

end Sample

theorem includer_undisturbed_sample :
    let run := process Sample.environment Sample.tokens Sample.expander
    Sample.expander.state.stack.frames ≠ [] ∧
      run.result = .error (.includeNotFound ⟨"b.h".toList⟩ ⟨"a.h".toList, 4, 2⟩
        (.missing ⟨"b.h".toList⟩)) ∧
      run.expander.state.stack.frames = [Sample.block, .root] ∧
      run.expander.files = [⟨"main.c".toList⟩] ∧ run.expander.guard = [] ∧
      run.expander.state.output.toList.map Token.text = ["x".toList, "\n".toList] ∧
      run.expander.state.log.entries.size = 2 := by
  obtain ⟨restores, follows, _⟩ := includer_undisturbed Sample.environment
  have rooted : Sample.expander.state.stack.frames ≠ [] := by decide
  have restored := (restores Sample.expander rooted).1 Sample.tokens
  have followed := (follows Sample.expander rfl).1 Sample.tokens
  dsimp only
  refine ⟨rooted, ?_, congrArg Stack.frames restored.stack, restored.files, restored.guard, ?_⟩
  · rw [followed.result]
    decide +kernel
  · rw [followed.expander]
    decide +kernel

end Machine

end CPreprocessor
