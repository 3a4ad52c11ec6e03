import CPreprocessor.Proofs.Engine.Lines
import CPreprocessor.Proofs.Engine.Steps

/-!
What a run depends on. The engine adds to the dependencies and to the paths that were read, and it
counts the texts that were lexed, but it looks at none of these: a run does the same whatever came
before it, as long as the texts that it lexes get the same numbers.
-/

set_option autoImplicit false

namespace CPreprocessor

namespace Engine

structure Kept (environment : Environment) (related : State → State → Prop) : Prop where
  refl : ∀ state, related state state
  trans : ∀ first second third, related first second → related second third → related first third
  report : ∀ state token problem, related state (state.report token problem)
  emit : ∀ state expansion, related state (state.emit expansion)
  obey : ∀ state floor name operands, related state (state.obey floor name operands)
  sought : ∀ state files operands, related state (state.sought environment files operands)
  entered : ∀ state path text, related state (state.entered environment path text)
  finish : ∀ floor outcome, related outcome.1 (finish floor outcome).1

section

variable {environment : Environment} {related : State → State → Prop}
  (kept : Kept environment related) (files : List Path)
include kept

section

variable (included : ∀ path text state, files.length < environment.config.maxIncludeDepth →
  related state (includeWithin environment files path text state).1)
include included

theorem Kept.directive_of (floor : Nat) (name : Token) (operands : List Token) (state : State) :
    related state ((within environment files).directive floor name operands state).1 := by
  rw [directive_within]
  by_cases includes : state.includes name = true
  · rw [if_pos includes]
    have sought := kept.sought state files operands
    cases found : Inclusion.ofOperands environment files name operands with
    | refused problem failure => exact kept.trans _ _ _ sought (kept.report _ name problem)
    | entered path text =>
        exact kept.trans _ _ _ sought (included path text _
          (Inclusion.entered_fresh environment files name operands path text found).2)
  · rw [if_neg includes]
    exact kept.obey state floor name operands

theorem Kept.lines_of (floor : Nat) (lineStart : Bool) (tokens : List Token) (state : State) :
    related state ((within environment files).lines floor lineStart tokens state).1 := by
  fun_induction Context.lines (within environment files) floor lineStart tokens state with
  | case1 lineStart state => exact kept.refl state
  | case2 lineStart state token tail line found after failure stopped =>
      have step := kept.directive_of files included floor line.name line.operands state
      rwa [stopped] at step
  | case3 lineStart state token tail line found after passed ih =>
      have step := kept.directive_of files included floor line.name line.operands state
      rw [passed] at step
      exact kept.trans _ _ _ step ih
  | case4 lineStart state token tail plain active step ih =>
      exact kept.trans _ _ _ (kept.emit state _) ih
  | case5 lineStart state token tail plain inactive ih => exact ih

end

-- The induction is on the levels that are left.
theorem Kept.lines (floor : Nat) (lineStart : Bool) (tokens : List Token) (state : State) :
    related state ((within environment files).lines floor lineStart tokens state).1 := by
  induction measured : environment.config.maxIncludeDepth - files.length using Nat.strongRecOn
    generalizing files floor lineStart tokens state with
  | ind size ih =>
      apply kept.lines_of files
      intro path text inner below
      have deeper : environment.config.maxIncludeDepth - (path :: files).length < size := by
        rw [List.length_cons, ← measured]
        omega
      rw [includeWithin, enterWith_failureOf, processFile_finish]
      exact kept.trans _ _ _ (kept.entered inner path text)
        (kept.trans _ _ _ (ih _ deeper (path :: files) _ true _ _ rfl) (kept.finish _ _))

theorem Kept.processFile (tokens : List Token) (state : State) :
    related state ((within environment files).processFile tokens state).1 := by
  rw [processFile_finish]
  exact kept.trans _ _ _ (kept.lines files _ true tokens state) (kept.finish _ _)

theorem Kept.included (path : Path) (text : Text) (state : State) :
    related (state.entered environment path text)
      (includeWithin environment files path text state).1 := by
  rw [includeWithin, enterWith_failureOf]
  exact kept.processFile (path :: files) _ _

theorem Kept.directive (floor : Nat) (name : Token) (operands : List Token) (state : State) :
    related state ((within environment files).directive floor name operands state).1 :=
  kept.directive_of files (fun path text inner _ =>
    kept.trans _ _ _ (kept.entered inner path text) (kept.included files path text inner))
    floor name operands state

end

theorem finish_counts (floor : Nat) (outcome : State × Option Failure) :
    (finish floor outcome).1.reads = outcome.1.reads ∧
      (finish floor outcome).1.lexings = outcome.1.lexings := by
  obtain ⟨after, result⟩ := outcome
  cases result <;> exact ⟨rfl, rfl⟩

theorem kept_lexings (environment : Environment) :
    Kept environment fun before after => before.lexings ≤ after.lexings where
  refl _ := Nat.le_refl _
  trans _ _ _ := Nat.le_trans
  report _ _ _ := Nat.le_refl _
  emit _ _ := Nat.le_refl _
  obey state floor name operands := (state.obey_obeys floor name operands).lexings.ge
  sought _ _ _ := Nat.le_refl _
  entered _ _ _ := Nat.le_succ _
  finish floor outcome := (finish_counts floor outcome).2.ge

end Engine

structure Past where
  dependencies : Array Lexed
  reads : Array Path
  lexings : Nat

namespace State

def past (state : State) : Past := ⟨state.dependencies, state.reads, state.lexings⟩

def preceded (state : State) (past : Past) : State :=
  { state with
    dependencies := past.dependencies ++ state.dependencies
    reads := past.reads ++ state.reads
    lexings := state.lexings + past.lexings }

def bare (state : State) : State :=
  { state with dependencies := #[], reads := #[], lexings := 0 }

theorem bare_preceded (state : State) : state.bare.preceded state.past = state := by
  simp [bare, preceded, past]

@[simp] theorem preceded_none (state : State) : state.preceded ⟨#[], #[], 0⟩ = state := by
  simp [preceded]

theorem asked_preceded (state : State) (past : Past) (paths : List Path) :
    (state.preceded past).asked paths = (state.asked paths).preceded past := by
  simp [asked, preceded]

theorem preceded_aside (past : Past) : Aside (preceded · past) :=
  ⟨fun _ => rfl, fun _ => rfl, fun _ _ _ => rfl⟩

theorem obey_preceded (state : State) (past : Past) (floor : Nat) (name : Token)
    (operands : List Token) :
    (state.preceded past).obey floor name operands =
      (state.obey floor name operands).preceded past := by
  rw [obey, obey, show (state.preceded past).isActive = state.isActive from rfl]
  cases Directive.ofName name.text with
  | ifdef => exact (preceded_aside past).openTest state name operands true fun _ _ => rfl
  | ifndef => exact (preceded_aside past).openTest state name operands false fun _ _ => rfl
  | ifExpression => exact (preceded_aside past).openUnsupported state name
  | elifExpression => exact (preceded_aside past).suppressBlock state floor name
  | elseBranch => exact (preceded_aside past).flipBlock state floor name
  | endif => exact (preceded_aside past).closeBlock state floor name
  | inclusion => rfl
  | unknown => cases state.isActive <;> rfl
  | define =>
      rw [defineMacro, defineMacro]
      cases Operand.definition name operands <;> cases state.isActive <;> rfl
  | undef =>
      rw [undefineMacro, undefineMacro]
      cases Operand.macroName? operands <;> cases state.isActive <;> rfl

end State

def Environment.numbered (environment : Environment) (numbering : Numbering) : Environment :=
  { environment with numbering := numbering }

namespace Engine

def preceding {α : Type} (past : Past) (outcome : State × α) : State × α :=
  (outcome.1.preceded past, outcome.2)

theorem finish_preceding (past : Past) (floor : Nat) (outcome : State × Option Failure) :
    finish floor (preceding past outcome) = preceding past (finish floor outcome) := by
  obtain ⟨after, result⟩ := outcome
  cases result <;> rfl

-- After the past, the texts that are lexed between two states get the numbers that they would get
-- without it.
def Renumbers (environment : Environment) (numbering : Numbering) (past : Past)
    (before after : State) : Prop :=
  ∀ index, before.lexings ≤ index → index < after.lexings →
    numbering.serial (index + past.lexings) = environment.numbering.serial index

section

variable {environment : Environment} {numbering : Numbering} {past : Past}

theorem Renumbers.part {first second third fourth : State}
    (numbers : Renumbers environment numbering past first fourth)
    (start : first.lexings ≤ second.lexings) (stop : third.lexings ≤ fourth.lexings) :
    Renumbers environment numbering past second third :=
  fun index low high => numbers index (Nat.le_trans start low) (Nat.lt_of_lt_of_le high stop)

variable (files : List Path)

section

variable (included : ∀ path text state, files.length < environment.config.maxIncludeDepth →
  Renumbers environment numbering past state (includeWithin environment files path text state).1 →
  includeWithin (environment.numbered numbering) files path text (state.preceded past) =
    preceding past (includeWithin environment files path text state))
include included

theorem directive_preceding (floor : Nat) (name : Token) (operands : List Token) (state : State)
    (numbers : Renumbers environment numbering past state
      ((within environment files).directive floor name operands state).1) :
    (within (environment.numbered numbering) files).directive floor name operands
        (state.preceded past) =
      preceding past ((within environment files).directive floor name operands state) := by
  have sought : (state.preceded past).sought (environment.numbered numbering) files operands =
      (state.sought environment files operands).preceded past :=
    state.asked_preceded past (Inclusion.asks environment files operands)
  rw [directive_within] at numbers
  rw [directive_within, directive_within, sought,
    show (state.preceded past).includes name = state.includes name from rfl,
    show Inclusion.ofOperands (environment.numbered numbering) files name operands =
      Inclusion.ofOperands environment files name operands from rfl]
  by_cases includes : state.includes name = true
  · rw [if_pos includes] at numbers
    rw [if_pos includes, if_pos includes]
    cases found : Inclusion.ofOperands environment files name operands with
    | refused problem failure => rfl
    | entered path text =>
        rw [found] at numbers
        exact included path text _
          (Inclusion.entered_fresh environment files name operands path text found).2 numbers
  · rw [if_neg includes, if_neg includes, State.obey_preceded]
    rfl

theorem lines_preceding (floor : Nat) (lineStart : Bool) (tokens : List Token) (state : State)
    (numbers : Renumbers environment numbering past state
      ((within environment files).lines floor lineStart tokens state).1) :
    (within (environment.numbered numbering) files).lines floor lineStart tokens
        (state.preceded past) =
      preceding past ((within environment files).lines floor lineStart tokens state) := by
  have counted := kept_lexings environment
  fun_induction Context.lines (within environment files) floor lineStart tokens state with
  | case1 lineStart state => rw [Context.lines]; rfl
  | case2 lineStart state token tail line found after failure stopped =>
      have same := directive_preceding files included floor line.name line.operands state
        (by rwa [stopped])
      rw [stopped] at same
      rw [Context.lines_stopped _ floor lineStart _ line _ failure found (by rw [same]; rfl), same]
  | case3 lineStart state token tail line found after passed ih =>
      have later := counted.lines files floor true line.rest after
      have sooner := counted.directive files floor line.name line.operands state
      rw [passed] at sooner
      have same := directive_preceding files included floor line.name line.operands state
        (by rw [passed]; exact numbers.part (Nat.le_refl _) later)
      rw [passed] at same
      rw [Context.lines_passed _ floor lineStart _ line _ found (by rw [same]; rfl), same]
      exact ih (numbers.part sooner (Nat.le_refl _))
  | case4 lineStart state token tail plain active step ih =>
      rw [Context.lines_notDirective _ floor lineStart _ _ plain,
        Context.lines_active _ floor token tail (state.preceded past) active]
      exact ih numbers
  | case5 lineStart state token tail plain inactive ih =>
      have still : state.isActive = false := by simpa using inactive
      rw [Context.lines_notDirective _ floor lineStart _ _ plain,
        Context.lines_inactive _ floor token tail (state.preceded past) still]
      exact ih numbers

end

theorem includeWithin_preceding (path : Path) (text : Text) (state : State)
    (numbers : Renumbers environment numbering past state
      (includeWithin environment files path text state).1)
    (run : ∀ floor tokens reached, Renumbers environment numbering past reached
        ((within environment (path :: files)).lines floor true tokens reached).1 →
      (within (environment.numbered numbering) (path :: files)).lines floor true tokens
          (reached.preceded past) =
        preceding past ((within environment (path :: files)).lines floor true tokens reached)) :
    includeWithin (environment.numbered numbering) files path text (state.preceded past) =
      preceding past (includeWithin environment files path text state) := by
  have later := (kept_lexings environment).included files path text state
  have lexed : (state.preceded past).nextText (environment.numbered numbering) path.text text =
      state.nextText environment path.text text :=
    congrArg (Lexed.ofText · path.text text) (numbers state.lexings (Nat.le_refl _) later)
  have entered : (state.preceded past).entered (environment.numbered numbering) path text =
      (state.entered environment path text).preceded past := by
    rw [State.entered, State.lexNext, lexed]
    simp [State.entered, State.lexNext, State.addDependency, State.preceded, State.reportAll,
      Nat.add_right_comm]
  have depth : ((state.entered environment path text).preceded past).stack.depth =
    (state.entered environment path text).stack.depth := rfl
  rw [includeWithin, enterWith_failureOf, processFile_finish] at numbers
  rw [includeWithin, includeWithin, enterWith_failureOf, enterWith_failureOf, processFile_finish,
    processFile_finish, lexed, entered, depth, run _ _ _ ?_, finish_preceding]
  · rfl
  · exact numbers.part (Nat.le_succ _) (finish_counts _ _).2.ge

theorem lines_preceded (floor : Nat) (lineStart : Bool) (tokens : List Token) (state : State)
    (numbers : Renumbers environment numbering past state
      ((within environment files).lines floor lineStart tokens state).1) :
    (within (environment.numbered numbering) files).lines floor lineStart tokens
        (state.preceded past) =
      preceding past ((within environment files).lines floor lineStart tokens state) := by
  induction measured : environment.config.maxIncludeDepth - files.length using Nat.strongRecOn
    generalizing files floor lineStart tokens state with
  | ind size ih =>
      apply lines_preceding files _ floor lineStart tokens state numbers
      intro path text inner below numbers
      have deeper : environment.config.maxIncludeDepth - (path :: files).length < size := by
        rw [List.length_cons, ← measured]
        omega
      exact includeWithin_preceding files path text inner numbers
        fun floor tokens reached numbers =>
          ih _ deeper (path :: files) floor true tokens reached numbers rfl

end

end Engine

end CPreprocessor
