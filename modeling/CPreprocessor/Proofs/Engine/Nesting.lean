import Mathlib.Data.List.Perm.Subperm
import Mathlib.Logic.Function.Iterate
import CPreprocessor.Proofs.Engine.Lines
import CPreprocessor.Proofs.Engine.Steps

/-!
The engine one step at a time, with the files that are being processed on a stack. Nothing here
counts how deep files may still nest. That a run ends, and that no file is inside itself, rests on
the checks which an include line goes through before a file is entered.
-/

set_option autoImplicit false

namespace CPreprocessor

structure Activation where
  path : Path
  floor : Nat
  lineStart : Bool
  tokens : List Token

-- A run at one moment, its innermost file first. A failure leaves the files that are open one by one.
structure Running where
  activations : List Activation
  state : State
  failure : Option Failure

namespace Running

def files (running : Running) : List Path := running.activations.map Activation.path

def opening (path : Path) (tokens : List Token) (state : State) : Activation :=
  ⟨path, state.stack.depth, true, tokens⟩

def start (root : Lexed) (state : State) : Running :=
  let told := state.reportAll root.diagnostics
  ⟨[opening ⟨root.file⟩ root.tokens told], told, none⟩

def ended (outcome : State × Option Failure) : Running := ⟨[], outcome.1, outcome.2⟩

-- What processing a file means for the files around it. Only of the root do open blocks end the run.
def after (path : Path) (outer : List Activation) (outcome : State × Except Failure Nat) : Running :=
  ⟨outer, outcome.1,
    if outer.isEmpty then Engine.rootFailure path.text outcome.2 else Engine.failureOf outcome.2⟩

def leave (activation : Activation) (outer : List Activation) (outcome : State × Option Failure) :
    Running :=
  after activation.path outer (Engine.finish activation.floor outcome)

def obeyLine (environment : Environment) (activation : Activation) (outer : List Activation)
    (line : DirectiveLine) (state : State) : Running :=
  let rest : Activation := { activation with lineStart := true, tokens := line.rest }
  let files := (activation :: outer).map Activation.path
  if state.includes line.name then
    let sought := state.sought environment files line.operands
    match Inclusion.ofOperands environment files line.name line.operands with
    | .refused problem failure => ⟨rest :: outer, sought.report line.name problem, failure⟩
    | .entered path text =>
        let told := sought.entered environment path text
        ⟨opening path (sought.nextText environment path.text text).tokens told :: rest :: outer, told,
          none⟩
  else ⟨rest :: outer, state.obey activation.floor line.name line.operands, none⟩

def readToken (activation : Activation) (outer : List Activation) (token : Token)
    (tail : List Token) (state : State) : Running :=
  if state.isActive then
    let step := state.macros.expandHead [] token tail
    ⟨{ activation with lineStart := token.isNewline, tokens := step.2 } :: outer,
      state.emit step.1, none⟩
  else ⟨{ activation with lineStart := token.isNewline, tokens := tail } :: outer, state, none⟩

def step (environment : Environment) (running : Running) : Running :=
  match running.activations, running.failure with
  | [], _ => running
  | activation :: outer, some failure => leave activation outer (running.state, some failure)
  | activation :: outer, none =>
      match activation.tokens with
      | [] => leave activation outer (running.state, none)
      | token :: tail =>
          match if activation.lineStart then DirectiveLine.ofLine? (token :: tail) else none with
          | some line => obeyLine environment activation outer line running.state
          | none => readToken activation outer token tail running.state

theorem step_directive (environment : Environment) (activation : Activation)
    (outer : List Activation) (state : State) (line : DirectiveLine)
    (found : (if activation.lineStart then DirectiveLine.ofLine? activation.tokens else none) =
      some line) :
    step environment ⟨activation :: outer, state, none⟩ =
      obeyLine environment activation outer line state := by
  obtain ⟨path, floor, lineStart, tokens⟩ := activation
  cases tokens with
  | nil => cases lineStart <;> cases found
  | cons token tail =>
      dsimp only at found
      simp only [step, found]

theorem step_text (environment : Environment) (activation : Activation) (outer : List Activation)
    (token : Token) (tail : List Token) (state : State) (left : activation.tokens = token :: tail)
    (plain : (if activation.lineStart then DirectiveLine.ofLine? (token :: tail) else none) = none) :
    step environment ⟨activation :: outer, state, none⟩ =
      readToken activation outer token tail state := by
  simp only [step, left, plain]

-- What a run does next, which its state does not decide.
inductive Turn (environment : Environment) :
    List Activation → Option Failure → (State → Running) → Prop
  | ended (failure : Option Failure) : Turn environment [] failure fun state => ⟨[], state, failure⟩
  | left (activation : Activation) (outer : List Activation) (failure : Option Failure) :
      Turn environment (activation :: outer) failure
        fun state => leave activation outer (state, failure)
  | obeyed (activation : Activation) (outer : List Activation) (line : DirectiveLine)
      (found : DirectiveLine.ofLine? activation.tokens = some line)
      (starts : activation.lineStart = true) :
      Turn environment (activation :: outer) none (obeyLine environment activation outer line)
  | read (activation : Activation) (outer : List Activation) (token : Token) (tail : List Token)
      (next : activation.tokens = token :: tail)
      (plain : (if activation.lineStart then DirectiveLine.ofLine? (token :: tail) else none) =
        none) :
      Turn environment (activation :: outer) none (readToken activation outer token tail)

theorem step_turn (environment : Environment) (activations : List Activation)
    (failure : Option Failure) :
    ∃ next, Turn environment activations failure next ∧
      ∀ state, step environment ⟨activations, state, failure⟩ = next state := by
  cases activations with
  | nil => exact ⟨_, .ended failure, fun _ => rfl⟩
  | cons activation outer =>
      cases failure with
      | some failure => exact ⟨_, .left activation outer (some failure), fun _ => rfl⟩
      | none =>
          cases left : activation.tokens with
          | nil =>
              refine ⟨_, .left activation outer none, fun state => ?_⟩
              rw [step]
              simp only [left]
          | cons token tail =>
              cases found : if activation.lineStart then DirectiveLine.ofLine? activation.tokens
                  else none with
              | some line =>
                  obtain ⟨starts, written⟩ := Option.ite_none_right_eq_some.mp found
                  exact ⟨_, .obeyed activation outer line written starts,
                    fun state => step_directive environment activation outer state line found⟩
              | none =>
                  rw [left] at found
                  exact ⟨_, .read activation outer token tail left found, fun state =>
                    step_text environment activation outer token tail state left found⟩

-- What comes of a directive line: an include line is refused or enters a file, once the loader was
-- asked for it, and any other line changes the state by itself.
inductive Outcome (environment : Environment) (activation : Activation) (outer : List Activation)
    (line : DirectiveLine) (state sought : State) : Running → Prop
  | refused (problem : Problem) (failure : Option Failure) :
      Outcome environment activation outer line state sought
        ⟨{ activation with lineStart := true, tokens := line.rest } :: outer,
          sought.report line.name problem, failure⟩
  | entered (path : Path) (text : Text)
      (target : Inclusion.ofOperands environment ((activation :: outer).map Activation.path)
        line.name line.operands = .entered path text) :
      Outcome environment activation outer line state sought
        ⟨opening path (sought.nextText environment path.text text).tokens
            (sought.entered environment path text) ::
            { activation with lineStart := true, tokens := line.rest } :: outer,
          sought.entered environment path text, none⟩
  | obeyed :
      Outcome environment activation outer line state sought
        ⟨{ activation with lineStart := true, tokens := line.rest } :: outer,
          state.obey activation.floor line.name line.operands, none⟩

theorem obeyLine_outcome (environment : Environment) (activation : Activation)
    (outer : List Activation) (line : DirectiveLine) (state : State) :
    ∃ next, Outcome environment activation outer line state
        (state.sought environment ((activation :: outer).map Activation.path) line.operands) next ∧
      obeyLine environment activation outer line state = next := by
  rw [obeyLine]
  by_cases includes : state.includes line.name = true
  · rw [if_pos includes]
    cases target : Inclusion.ofOperands environment ((activation :: outer).map Activation.path)
        line.name line.operands with
    | refused problem failure => exact ⟨_, .refused problem failure, rfl⟩
    | entered path text => exact ⟨_, .entered path text target, rfl⟩
  · rw [if_neg includes]
    exact ⟨_, .obeyed, rfl⟩

inductive FilesMove (environment : Environment) : List Path → List Path → Prop
  | same (files : List Path) : FilesMove environment files files
  | left (path : Path) (files : List Path) : FilesMove environment (path :: files) files
  | entered (path : Path) (text : Text) (files : List Path) (name : Token) (operands : List Token)
      (found : Inclusion.ofOperands environment files name operands = .entered path text) :
      FilesMove environment files (path :: files)

theorem obeyLine_files (environment : Environment) (activation : Activation)
    (outer : List Activation) (line : DirectiveLine) (state : State) :
    FilesMove environment ((activation :: outer).map Activation.path)
      (obeyLine environment activation outer line state).files := by
  obtain ⟨next, outcome, same⟩ := obeyLine_outcome environment activation outer line state
  rw [same]
  cases outcome with
  | refused problem failure => exact .same _
  | entered path text target => exact .entered path text _ line.name line.operands target
  | obeyed => exact .same _

theorem readToken_files (activation : Activation) (outer : List Activation) (token : Token)
    (tail : List Token) (state : State) :
    (readToken activation outer token tail state).files =
      (activation :: outer).map Activation.path := by
  rw [readToken]
  cases state.isActive <;> rfl

theorem step_files (environment : Environment) (running : Running) :
    FilesMove environment running.files (running.step environment).files := by
  obtain ⟨activations, state, failure⟩ := running
  obtain ⟨next, turn, same⟩ := step_turn environment activations failure
  rw [same]
  cases turn with
  | ended => exact .same _
  | left activation outer => exact .left activation.path _
  | obeyed activation outer line found =>
      exact obeyLine_files environment activation outer line state
  | read activation outer token tail left =>
      rw [readToken_files]
      exact .same _

-- What holds of the include stack at every moment. The root alone need not have been loaded.
structure Nested (environment : Environment) (files : List Path) : Prop where
  distinct : files.Pairwise fun inner outer => inner.components ≠ outer.components
  bounded : files.length ≤ max 1 environment.config.maxIncludeDepth
  loaded : ∀ path ∈ files.dropLast, ∃ text, environment.loader path = .ok text

theorem nested_single (environment : Environment) (path : Path) : Nested environment [path] :=
  ⟨List.pairwise_singleton _ _, Nat.le_max_left _ _, by simp⟩

theorem nested_entered (environment : Environment) (files : List Path) (path : Path) (text : Text)
    (name : Token) (operands : List Token)
    (found : Inclusion.ofOperands environment files name operands = .entered path text)
    (nested : Nested environment files) : Nested environment (path :: files) := by
  obtain ⟨fresh, below⟩ := Inclusion.entered_fresh environment files name operands path text found
  refine ⟨List.pairwise_cons.mpr ⟨?_, nested.distinct⟩, ?_, ?_⟩
  · intro other member same
    have differs := List.any_eq_false.mp fresh other member
    exact differs (by rw [Path.sameFile, same, beq_self_eq_true])
  · exact Nat.le_trans below (Nat.le_max_right _ _)
  · cases files with
    | nil => simp
    | cons outer files =>
        intro entered member
        rcases List.mem_cons.mp member with same | inside
        · rw [same]
          exact ⟨text, Inclusion.entered_loaded environment _ name operands path text found⟩
        · exact nested.loaded entered inside

theorem nested_left (environment : Environment) (path : Path) (files : List Path)
    (nested : Nested environment (path :: files)) : Nested environment files := by
  refine ⟨nested.distinct.of_cons, Nat.le_trans (Nat.le_succ _) nested.bounded, ?_⟩
  cases files with
  | nil => simp
  | cons outer files =>
      intro entered member
      exact nested.loaded entered (List.mem_cons_of_mem _ member)

theorem step_nested (environment : Environment) (running : Running)
    (nested : Nested environment running.files) :
    Nested environment (running.step environment).files := by
  have move := step_files environment running
  generalize running.files = before at move nested
  generalize (running.step environment).files = after at move
  cases move with
  | same => exact nested
  | left path => exact nested_left environment path after nested
  | entered path text _ name operands found =>
      exact nested_entered environment before path text name operands found nested

theorem run_nested (environment : Environment) (root : Lexed) (state : State) (count : Nat) :
    Nested environment ((step environment)^[count] (start root state)).files := by
  induction count with
  | zero => exact nested_single environment ⟨root.file⟩
  | succ count ih =>
      rw [Function.iterate_succ_apply']
      exact step_nested environment _ ih

theorem length_le_size (memory : MemoryFiles) (files : List Path)
    (distinct : files.Pairwise fun inner outer => inner.components ≠ outer.components)
    (loaded : ∀ path ∈ files, ∃ text, memory.loader path = .ok text) :
    files.length ≤ memory.size := by
  have held : files.map Path.components ⊆ memory.files.map fun entry => entry.1.components := by
    intro components member
    obtain ⟨path, inside, same⟩ := List.mem_map.mp member
    obtain ⟨text, found⟩ := loaded path inside
    rw [MemoryFiles.loader, MemoryFiles.find?] at found
    cases looked : memory.files.find? fun entry => entry.1.sameFile path with
    | none => simp [looked] at found
    | some entry =>
        have equal := List.find?_some looked
        rw [Path.sameFile, beq_iff_eq] at equal
        exact List.mem_map.mpr ⟨entry, List.mem_of_find?_eq_some looked, equal.trans same⟩
  have apart : (files.map Path.components).Nodup := List.pairwise_map.mpr distinct
  have bound := (List.subperm_of_subset apart held).length_le
  rwa [List.length_map, List.length_map] at bound

theorem nested_size (environment : Environment) (memory : MemoryFiles) (files : List Path)
    (loads : environment.loader = memory.loader) (nested : Nested environment files) :
    files.length ≤ memory.size + 1 := by
  have inner := length_le_size memory files.dropLast
    (nested.distinct.sublist (List.dropLast_sublist files)) (loads ▸ nested.loaded)
  rw [List.length_dropLast] at inner
  omega

def Reaches (environment : Environment) (before after : Running) : Prop :=
  ∃ count, (step environment)^[count] before = after

theorem reaches_step {environment : Environment} {before after : Running}
    (later : Reaches environment (before.step environment) after) :
    Reaches environment before after := by
  obtain ⟨count, reached⟩ := later
  exact ⟨count + 1, reached⟩

theorem Reaches.trans {environment : Environment} {first second third : Running}
    (left : Reaches environment first second) (right : Reaches environment second third) :
    Reaches environment first third := by
  obtain ⟨before, rfl⟩ := left
  obtain ⟨after, rfl⟩ := right
  exact ⟨after + before, Function.iterate_add_apply _ after before first⟩

section

variable (environment : Environment) (outer : List Activation) (path : Path) (floor : Nat)
  (included : ∀ inner text state (rest : Activation), rest.path = path →
    ((path :: outer.map Activation.path).length < environment.config.maxIncludeDepth) →
    let told := state.entered environment inner text
    let outcome := Engine.includeWithin environment (path :: outer.map Activation.path) inner text state
    Reaches environment
      ⟨opening inner (state.nextText environment inner.text text).tokens told :: rest :: outer, told,
        none⟩
      ⟨rest :: outer, outcome.1, outcome.2⟩)
include included

theorem directive_reached (line : DirectiveLine) (lineStart : Bool) (tokens : List Token)
    (state : State) :
    let outcome := (Engine.within environment (path :: outer.map Activation.path)).directive floor
      line.name line.operands state
    Reaches environment (obeyLine environment ⟨path, floor, lineStart, tokens⟩ outer line state)
      ⟨⟨path, floor, true, line.rest⟩ :: outer, outcome.1, outcome.2⟩ := by
  dsimp only
  rw [Engine.directive_within, obeyLine]
  by_cases includes : state.includes line.name = true
  · rw [if_pos includes, if_pos includes, List.map_cons]
    cases found : Inclusion.ofOperands environment (path :: outer.map Activation.path) line.name
        line.operands with
    | refused problem failure => exact ⟨0, rfl⟩
    | entered inner text =>
        exact included inner text _ ⟨path, floor, true, line.rest⟩ rfl
          (Inclusion.entered_fresh environment _ line.name line.operands inner text found).2
  · rw [if_neg includes, if_neg includes]
    exact ⟨0, rfl⟩

theorem lines_reached (lineStart : Bool) (tokens : List Token) (state : State) :
    let outcome := (Engine.within environment (path :: outer.map Activation.path)).lines floor
      lineStart tokens state
    ∃ lineStart' tokens', (outcome.2 = none → tokens' = []) ∧
      Reaches environment ⟨⟨path, floor, lineStart, tokens⟩ :: outer, state, none⟩
        ⟨⟨path, floor, lineStart', tokens'⟩ :: outer, outcome.1, outcome.2⟩ := by
  dsimp only
  fun_induction Engine.Context.lines
      (Engine.within environment (path :: outer.map Activation.path)) floor lineStart tokens state with
  | case1 lineStart state => exact ⟨lineStart, [], fun _ => rfl, 0, rfl⟩
  | case2 lineStart state token tail line found after failure stopped =>
      have reached := directive_reached environment outer path floor included line lineStart
        (token :: tail) state
      rw [stopped] at reached
      refine ⟨true, line.rest, nofun, reaches_step ?_⟩
      rw [step_directive environment ⟨path, floor, lineStart, token :: tail⟩ outer state line found]
      exact reached
  | case3 lineStart state token tail line found after passed ih =>
      have reached := directive_reached environment outer path floor included line lineStart
        (token :: tail) state
      rw [passed] at reached
      obtain ⟨lineStart', tokens', done, later⟩ := ih
      refine ⟨lineStart', tokens', done, reaches_step ?_⟩
      rw [step_directive environment ⟨path, floor, lineStart, token :: tail⟩ outer state line found]
      exact reached.trans later
  | case4 lineStart state token tail plain active expanded ih =>
      obtain ⟨lineStart', tokens', done, later⟩ := ih
      refine ⟨lineStart', tokens', done, reaches_step ?_⟩
      rw [step_text environment ⟨path, floor, lineStart, token :: tail⟩ outer token tail state rfl plain,
        readToken, if_pos active]
      exact later
  | case5 lineStart state token tail plain inactive ih =>
      obtain ⟨lineStart', tokens', done, later⟩ := ih
      refine ⟨lineStart', tokens', done, reaches_step ?_⟩
      rw [step_text environment ⟨path, floor, lineStart, token :: tail⟩ outer token tail state rfl plain,
        readToken, if_neg inactive]
      exact later

theorem file_reached (tokens : List Token) (state : State) :
    Reaches environment ⟨opening path tokens state :: outer, state, none⟩
      (after path outer ((Engine.within environment (path :: outer.map Activation.path)).processFile
        tokens state)) := by
  obtain ⟨lineStart, left, done, reached⟩ := lines_reached environment outer path state.stack.depth
    included true tokens state
  refine reached.trans ?_
  rw [Engine.processFile_finish]
  generalize (Engine.within environment (path :: outer.map Activation.path)).lines
    state.stack.depth true tokens state = outcome at done ⊢
  obtain ⟨reachedState, failure⟩ := outcome
  cases failure with
  | some failure => exact ⟨1, rfl⟩
  | none =>
      rw [done rfl]
      exact ⟨1, rfl⟩

end

-- The induction is on the levels that are left, as the engine's own recursion is.
theorem file_left (environment : Environment) (outer : List Activation) (path : Path)
    (tokens : List Token) (state : State) :
    Reaches environment ⟨opening path tokens state :: outer, state, none⟩
      (after path outer ((Engine.within environment (path :: outer.map Activation.path)).processFile
        tokens state)) := by
  induction measured : environment.config.maxIncludeDepth - outer.length using Nat.strongRecOn
    generalizing outer path tokens state with
  | ind size ih =>
      apply file_reached environment outer path
      intro inner text before rest here below
      have deeper : environment.config.maxIncludeDepth - (rest :: outer).length < size := by
        rw [List.length_cons, List.length_map] at below
        rw [List.length_cons, ← measured]
        omega
      have reached := ih _ deeper (rest :: outer) inner
        (before.nextText environment inner.text text).tokens (before.entered environment inner text) rfl
      rw [List.map_cons, here] at reached
      dsimp only
      rw [Engine.includeWithin, Engine.enterWith_failureOf]
      exact reached

theorem run_ends (environment : Environment) (root : Lexed) (state : State) :
    Reaches environment (start root state) (ended (Engine.preprocess environment root state)) := by
  rw [Engine.preprocess_within]
  exact file_left environment [] ⟨root.file⟩ root.tokens (state.reportAll root.diagnostics)

@[simp] theorem iterate_ended (environment : Environment) (outcome : State × Option Failure) (count : Nat) :
    (step environment)^[count] (ended outcome) = ended outcome :=
  Function.iterate_fixed rfl count

theorem run_keeps (environment : Environment) (root : Lexed) (state : State)
    (holds : Running → Prop)
    (steps : ∀ running, holds running → holds (running.step environment))
    (starts : holds (start root state)) :
    holds (ended (Engine.preprocess environment root state)) := by
  obtain ⟨count, reached⟩ := run_ends environment root state
  rw [← reached]
  exact Function.Iterate.rec holds starts steps count

-- Two runs in step: each of them stays where it ends until the other one ends.
theorem runs_related (environment : Environment) (root : Lexed) (first second : State)
    (related : Running → Running → Prop)
    (steps : ∀ left right, related left right →
      related (left.step environment) (right.step environment))
    (starts : related (start root first) (start root second)) :
    related (ended (Engine.preprocess environment root first))
      (ended (Engine.preprocess environment root second)) := by
  obtain ⟨count, reached⟩ := run_ends environment root first
  obtain ⟨other, alsoReached⟩ := run_ends environment root second
  have together : ∀ moment, related ((step environment)^[moment] (start root first))
      ((step environment)^[moment] (start root second)) := by
    intro moment
    induction moment with
    | zero => exact starts
    | succ moment ih =>
        rw [Function.iterate_succ_apply', Function.iterate_succ_apply']
        exact steps _ _ ih
  have atEnd := together (other + count)
  rw [Function.iterate_add_apply, reached, iterate_ended, Nat.add_comm, Function.iterate_add_apply,
    alsoReached, iterate_ended] at atEnd
  exact atEnd

theorem run_ends_within_bounds (environment : Environment) (root : Lexed) (state : State) :
    (∃ count, (step environment)^[count] (start root state) =
        ended (Engine.preprocess environment root state)) ∧
    (∀ count,
      let files := ((step environment)^[count] (start root state)).files
      (files.Pairwise fun inner outer => inner.components ≠ outer.components) ∧
        files.length ≤ max 1 environment.config.maxIncludeDepth) ∧
    ∀ (memory : MemoryFiles) (count : Nat),
      ((step { environment with loader := memory.loader })^[count] (start root state)).files.length ≤
        memory.size + 1 := by
  refine ⟨run_ends environment root state, ?_, ?_⟩
  · intro count
    have nested := run_nested environment root state count
    exact ⟨nested.distinct, nested.bounded⟩
  · intro memory count
    exact nested_size _ memory _ rfl (run_nested _ root state count)

end Running

end CPreprocessor
