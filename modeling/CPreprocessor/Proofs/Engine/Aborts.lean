import CPreprocessor.Proofs.Engine.Restoration

/-!
Aborts and what is reported. An include that cannot be read ends the run, however deep it stands,
and its report is the last one. Blocks that a file leaves open are reported in every file, but only
those of the root make the run fail.
-/

set_option autoImplicit false

namespace CPreprocessor

open Conditional (Frame Stack)

def Diagnostic.Fatal (diagnostic : Diagnostic) : Prop :=
  diagnostic.level = .error ∧ diagnostic.code = some .includeNotFound

def Failure.missing? : Failure → Option Location
  | .includeNotFound _ location _ => some location
  | .systemIncludeNotFound _ location => some location
  | .unterminatedConditional _ _ => none
  | .invalidMacroName _ => none

inductive Failure.Told (config : Config) : Failure → Diagnostic → Prop
  | quoted (path : Path) (written : Text) (location : Location) (reason : LoadError) :
      Told config (.includeNotFound path location reason)
        ((Problem.includeNotFound written reason.message).located location)
  | system (path : Text) (location : Location)
      (fatal : config.missingSystemIncludeIsFatal = true) :
      Told config (.systemIncludeNotFound path location)
        ((Problem.systemIncludeNotFound path true).located location)

theorem Failure.Told.fatal {config : Config} {failure : Failure} {diagnostic : Diagnostic}
    (told : failure.Told config diagnostic) :
    diagnostic.Fatal ∧ ∃ location, failure.missing? = some location ∧
      diagnostic.location = some location := by
  cases told with
  | quoted path written location reason => exact ⟨⟨rfl, rfl⟩, location, rfl, rfl⟩
  | system path location fatal => exact ⟨⟨rfl, rfl⟩, location, rfl, rfl⟩

theorem Problem.located_notFatal (problem : Problem) (location : Location)
    (own : problem.code ≠ .includeNotFound) : ¬ (problem.located location).Fatal :=
  fun fatal => own (Option.some.inj fatal.2)

namespace Log

def Harmless (before after : Log) : Prop :=
  ∃ told, after = before.reportAll told ∧ ∀ diagnostic ∈ told, ¬ diagnostic.Fatal

theorem harmless_refl (log : Log) : Harmless log log :=
  ⟨[], (reportAll_nil log).symm, by simp⟩

theorem harmless_report (log : Log) (diagnostic : Diagnostic) (harmless : ¬ diagnostic.Fatal) :
    Harmless log (log.report diagnostic) :=
  ⟨[diagnostic], report_eq log diagnostic, by simpa using harmless⟩

theorem Harmless.trans {first second third : Log} (left : Harmless first second)
    (right : Harmless second third) : Harmless first third := by
  obtain ⟨told, rfl, early⟩ := left
  obtain ⟨more, rfl, late⟩ := right
  refine ⟨told ++ more, (reportAll_append first told more).symm, ?_⟩
  intro diagnostic member
  exact (List.mem_append.mp member).elim (early diagnostic) (late diagnostic)

theorem harmless_of_moves (before after : Log) (moves : Moves before after) :
    Harmless before after := by
  cases moves with
  | same => exact harmless_refl before
  | reported token problem own =>
      exact harmless_report before _ (problem.located_notFatal token.location own)

end Log

namespace Expansion

def ReportsCalls (expansion : Expansion) : Prop :=
  ∀ diagnostic ∈ expansion.diagnostics,
    diagnostic.code = some .unterminatedMacroCall ∨ diagnostic.code = some .macroArity

theorem ReportsCalls.append {first second : Expansion} (left : first.ReportsCalls)
    (right : second.ReportsCalls) : (first.append second).ReportsCalls := by
  intro diagnostic member
  rcases List.mem_append.mp member with inside | inside
  · exact left diagnostic inside
  · exact right diagnostic inside

theorem ReportsCalls.notFatal {expansion : Expansion} (calls : expansion.ReportsCalls) :
    ∀ diagnostic ∈ expansion.diagnostics, ¬ diagnostic.Fatal := by
  intro diagnostic member fatal
  rcases calls diagnostic member with code | code <;>
    exact absurd (Option.some.inj (code.symm.trans fatal.2)) (by decide)

end Expansion

namespace MacroTable

theorem expandAll_reportsCalls (table : MacroTable) (guard : List Text) (tokens : List Token) :
    (table.expandAll guard tokens).ReportsCalls := by
  fun_induction expandAll table guard tokens with
  | case1 guard => simp [Expansion.ReportsCalls, Expansion.empty]
  | case2 guard token tail use ih =>
      exact .append (by simp [Expansion.ReportsCalls, Expansion.verbatim]) ih
  | case3 guard token tail definition use ih =>
      exact .append (fun diagnostic member => .inl (List.mem_singleton.mp member ▸ rfl)) ih
  | case4 guard token tail definition given rest use ih =>
      exact .append (fun diagnostic member => .inr (List.mem_singleton.mp member ▸ rfl)) ih
  | case5 guard token tail definition replacement rest use inner ih => exact .append inner ih

theorem expandHead_reportsCalls (table : MacroTable) (guard : List Text) (token : Token)
    (tail : List Token) : (table.expandHead guard token tail).1.ReportsCalls := by
  have whole := table.expandAll_reportsCalls guard (token :: tail)
  rw [expandAll_cons] at whole
  exact fun diagnostic member => whole diagnostic (List.mem_append_left _ member)

end MacroTable

theorem Lexed.diagnostics_notFatal (lexed : Lexed) :
    ∀ diagnostic ∈ lexed.diagnostics, ¬ diagnostic.Fatal := by
  rw [diagnostics]
  cases lexed.openComment with
  | none => simp
  | some offset =>
      simpa using Problem.unterminatedComment.located_notFatal (lexed.source.file.locate offset)
        (by decide)

namespace Operand

theorem quotedTarget_problem (body : Text) (problem : Problem)
    (failed : quotedTarget body = .error problem) : problem.code = .directiveSyntax := by
  rw [quotedTarget] at failed
  split at failed
  · split at failed
    · cases failed
      rfl
    · cases failed
  · cases failed
    rfl

theorem angleTarget_problem (tokens : List Token) (problem : Problem)
    (failed : angleTarget tokens = .error problem) : problem.code = .directiveSyntax := by
  rw [angleTarget] at failed
  split at failed
  · cases failed
    rfl
  · split at failed
    · cases failed
      rfl
    · split at failed
      · cases failed
      · cases failed
        rfl

theorem includeTarget_problem (operands : List Token) (problem : Problem)
    (failed : includeTarget operands = .error problem) : problem.code = .directiveSyntax := by
  rw [includeTarget] at failed
  split at failed
  · cases failed
    rfl
  · split at failed
    · exact quotedTarget_problem _ problem failed
    · split at failed
      · exact angleTarget_problem _ problem failed
      · cases failed
        rfl

end Operand

namespace Inclusion

def Answers (config : Config) (location : Location) : Inclusion → Prop
  | .refused problem none => ¬ (problem.located location).Fatal
  | .refused problem (some failure) => failure.Told config (problem.located location)
  | .entered _ _ => True

theorem ofFound_answers (config : Config) (files : List Path) (path : Path) (text : Text)
    (location : Location) : (ofFound config files path text).Answers config location := by
  rw [ofFound]
  split
  · exact Problem.located_notFatal _ _ (show Code.recursiveInclude ≠ _ by decide)
  · split
    · exact Problem.located_notFatal _ _ (show Code.recursiveInclude ≠ _ by decide)
    · trivial

theorem ofTarget_answers (environment : Environment) (files : List Path) (name : Token)
    (target : Operand.IncludeTarget) :
    (ofTarget environment files name target).Answers environment.config name.location := by
  cases target with
  | quoted path =>
      rw [ofTarget]
      split
      · exact ofFound_answers ..
      · exact .quoted _ path name.location _
  | system path =>
      rw [ofTarget]
      split
      · exact ofFound_answers ..
      · cases fatal : environment.config.missingSystemIncludeIsFatal with
        | true => exact .system path name.location fatal
        | false => exact fun wrong => absurd wrong.1 (show Level.warning ≠ _ by decide)

theorem ofOperands_answers (environment : Environment) (files : List Path) (name : Token)
    (operands : List Token) :
    (ofOperands environment files name operands).Answers environment.config name.location := by
  rw [ofOperands]
  cases found : Operand.includeTarget operands with
  | error problem =>
      have malformed := Operand.includeTarget_problem operands problem found
      exact problem.located_notFatal name.location (by rw [malformed]; decide)
  | ok target => exact ofTarget_answers environment files name target

end Inclusion

namespace Engine

inductive Reports (config : Config) (before : Log) : State × Option Failure → Prop
  | passed (after : State) (harmless : before.Harmless after.log) :
      Reports config before (after, none)
  | failed (after : State) (failure : Failure) (middle : Log) (last : Diagnostic)
      (harmless : before.Harmless middle) (told : failure.Told config last)
      (ends : after.log = middle.report last) : Reports config before (after, some failure)

theorem reports_later (config : Config) (before middle : Log) (outcome : State × Option Failure)
    (harmless : before.Harmless middle) (later : Reports config middle outcome) :
    Reports config before outcome := by
  cases later with
  | passed after rest => exact .passed after (harmless.trans rest)
  | failed after failure between last rest told ends =>
      exact .failed after failure between last (harmless.trans rest) told ends

def leftReports (frames : List Frame) : List Diagnostic :=
  frames.map fun frame =>
    Problem.unterminatedConditional.withLocation (frame.opener.map Token.location)

theorem leftReports_notFatal (frames : List Frame) :
    ∀ diagnostic ∈ leftReports frames, ¬ diagnostic.Fatal := by
  intro diagnostic member
  obtain ⟨frame, _, rfl⟩ := List.mem_map.mp member
  exact fun fatal => absurd (Option.some.inj fatal.2)
    (show Code.unterminatedConditional ≠ _ by decide)

theorem finish_reports (config : Config) (before : Log) (floor : Nat)
    (outcome : State × Option Failure) (reported : Reports config before outcome) :
    Reports config before ((finish floor outcome).1, failureOf (finish floor outcome).2) := by
  cases reported with
  | passed after harmless =>
      exact .passed _ (harmless.trans ⟨_, rfl, leftReports_notFatal (after.stack.closeAbove floor).1⟩)
  | failed after failure middle last harmless told ends =>
      exact .failed _ failure middle last harmless told ends

section

variable (environment : Environment) (files : List Path)
  (included : ∀ path text state, files.length < environment.config.maxIncludeDepth →
    Reports environment.config state.log (includeWithin environment files path text state))
include included

theorem directive_reports (floor : Nat) (name : Token) (operands : List Token) (state : State) :
    Reports environment.config state.log
      ((within environment files).directive floor name operands state) := by
  rw [directive_within]
  by_cases includes : state.includes name = true
  · rw [if_pos includes]
    have answers := Inclusion.ofOperands_answers environment files name operands
    cases found : Inclusion.ofOperands environment files name operands with
    | entered path text =>
        exact included path text (state.sought environment files operands)
          (Inclusion.entered_fresh environment files name operands path text found).2
    | refused problem failure =>
        rw [found] at answers
        cases failure with
        | none => exact .passed _ (Log.harmless_report _ _ answers)
        | some failure => exact .failed _ failure _ _ (Log.harmless_refl _) answers rfl
  · rw [if_neg includes]
    exact .passed _ (Log.harmless_of_moves _ _ (State.obey_obeys state floor name operands).log)

theorem lines_reports_of_included (floor : Nat) (lineStart : Bool) (tokens : List Token)
    (state : State) :
    Reports environment.config state.log
      ((within environment files).lines floor lineStart tokens state) := by
  fun_induction Context.lines (within environment files) floor lineStart tokens state with
  | case1 lineStart state => exact .passed state (Log.harmless_refl _)
  | case2 lineStart state token tail line found after failure stopped =>
      have reported := directive_reports environment files included floor line.name line.operands
        state
      rwa [stopped] at reported
  | case3 lineStart state token tail line found after passed ih =>
      have reported := directive_reports environment files included floor line.name line.operands
        state
      rw [passed] at reported
      cases reported with
      | passed after harmless => exact reports_later _ _ _ _ harmless ih
  | case4 lineStart state token tail plain active step ih =>
      refine reports_later _ _ _ _ ⟨_, rfl, ?_⟩ ih
      exact (state.macros.expandHead_reportsCalls [] token tail).notFatal
  | case5 lineStart state token tail plain inactive ih => exact ih

end

-- A failure crosses every file that is being processed, and none of them reports anything more.
theorem lines_reports (environment : Environment) (files : List Path) (floor : Nat)
    (lineStart : Bool) (tokens : List Token) (state : State) :
    Reports environment.config state.log
      ((within environment files).lines floor lineStart tokens state) := by
  induction measured : environment.config.maxIncludeDepth - files.length using Nat.strongRecOn
    generalizing files floor lineStart tokens state with
  | ind size ih =>
      apply lines_reports_of_included environment files
      intro path text inner below
      have deeper : environment.config.maxIncludeDepth - (path :: files).length < size := by
        rw [List.length_cons, ← measured]
        omega
      have entered : inner.log.Harmless (inner.entered environment path text).log :=
        ⟨_, rfl, (inner.nextText environment path.text text).diagnostics_notFatal⟩
      rw [includeWithin, enterWith_failureOf, processFile_finish]
      exact finish_reports _ _ _ _ (reports_later _ _ _ _ entered
        (ih _ deeper (path :: files) _ true _ _ rfl))

end Engine

namespace Conditional.Stack

def OpenOver (base : List Frame) (left : List Frame) (stack : Stack) : Prop :=
  stack.frames = left ++ base ∧ ∀ frame ∈ left, frame.opener.isSome = true

theorem openOver_cons (base left : List Frame) (floor : Nat) (frame : Frame) (below : List Frame)
    (outer : base.length = floor + 1) (above : floor < below.length)
    (opened : OpenOver base left ⟨frame :: below⟩) :
    frame.opener.isSome = true ∧ ∃ rest, OpenOver base rest ⟨below⟩ := by
  obtain ⟨frames, openers⟩ := opened
  rcases List.cons_eq_append_iff.mp frames with ⟨_, whole⟩ | ⟨rest, rfl, same⟩
  · rw [whole, List.length_cons] at outer
    omega
  · exact ⟨openers frame List.mem_cons_self, rest, same,
      fun other member => openers other (List.mem_cons_of_mem frame member)⟩

theorem openOver_push (base left : List Frame) (frame : Frame) (below : List Frame)
    (opener : frame.opener.isSome = true) (opened : OpenOver base left ⟨below⟩) :
    OpenOver base (frame :: left) ⟨frame :: below⟩ := by
  refine ⟨congrArg (frame :: ·) opened.1, ?_⟩
  intro other member
  rcases List.mem_cons.mp member with rfl | inside
  · exact opener
  · exact opened.2 other inside

theorem moves_openOver (base left : List Frame) (floor : Nat) (before after : Stack)
    (outer : base.length = floor + 1) (moves : Moves floor before after)
    (opened : OpenOver base left before) : ∃ later, OpenOver base later after := by
  cases moves with
  | same => exact ⟨left, opened⟩
  | opened state opener frames nested => exact ⟨_, openOver_push base left _ frames rfl opened⟩
  | changed frame next below above advances settled =>
      obtain ⟨opener, rest, under⟩ := openOver_cons base left floor frame below outer above opened
      exact ⟨_, openOver_push base rest next below (advances.opener ▸ opener) under⟩
  | closed frame below above => exact (openOver_cons base left floor frame below outer above opened).2

theorem closeAbove_openOver (base left : List Frame) (floor : Nat) (stack : Stack)
    (outer : base.length = floor + 1) (opened : OpenOver base left stack) :
    (stack.closeAbove floor).1 = left.reverse := by
  have extra : stack.depth - floor = left.length := by
    rw [depth, opened.1, List.length_append, outer]
    omega
  rw [closeAbove, extra, opened.1, List.take_left]

end Conditional.Stack

namespace Engine

theorem includeWithin_stack (environment : Environment) (files : List Path) (path : Path)
    (text : Text) (state : State) (rooted : state.stack.frames ≠ []) :
    (includeWithin environment files path text state).1.stack = state.stack := by
  have follows := Machine.processIncluded_follows environment path text ⟨state, files, []⟩ rfl
  have restored := Machine.processIncluded_restores environment path text ⟨state, files, []⟩ rooted
  have same := restored.stack
  rwa [follows.expander] at same

section

variable (environment : Environment) (files : List Path) (base : List Frame) (floor : Nat)
  (outer : base.length = floor + 1)
include outer

theorem directive_openOver (name : Token) (operands : List Token) (left : List Frame)
    (state : State) (opened : Stack.OpenOver base left state.stack) :
    ∃ later, Stack.OpenOver base later
      ((within environment files).directive floor name operands state).1.stack := by
  have rooted : state.stack.frames ≠ [] := by
    intro empty
    have length := congrArg List.length (empty.symm.trans opened.1)
    rw [List.length_append, outer, List.length_nil] at length
    omega
  rw [directive_within]
  split
  · split
    · exact ⟨left, opened⟩
    · rw [includeWithin_stack environment files _ _ (state.sought environment files operands) rooted]
      exact ⟨left, opened⟩
  · exact Stack.moves_openOver base left floor _ _ outer
      (State.obey_obeys state floor name operands).stack opened

theorem lines_openOver (lineStart : Bool) (tokens : List Token) (left : List Frame)
    (state : State) (opened : Stack.OpenOver base left state.stack) :
    ∃ later, Stack.OpenOver base later
      ((within environment files).lines floor lineStart tokens state).1.stack := by
  fun_induction Context.lines (within environment files) floor lineStart tokens state
    generalizing left with
  | case1 lineStart state => exact ⟨left, opened⟩
  | case2 lineStart state token tail line found after failure stopped =>
      have later := directive_openOver environment files base floor outer line.name line.operands
        left state opened
      rwa [stopped] at later
  | case3 lineStart state token tail line found after passed ih =>
      have later := directive_openOver environment files base floor outer line.name line.operands
        left state opened
      rw [passed] at later
      obtain ⟨next, opened⟩ := later
      exact ih next opened
  | case4 lineStart state token tail plain active step ih => exact ih left opened
  | case5 lineStart state token tail plain inactive ih => exact ih left opened

end

def rootLines (environment : Environment) (root : Lexed) (state : State) :
    State × Option Failure :=
  (within environment [⟨root.file⟩]).lines state.stack.depth true root.tokens
    (state.reportAll root.diagnostics)

theorem preprocess_rootLines (environment : Environment) (root : Lexed) (state : State) :
    preprocess environment root state =
      ((finish state.stack.depth (rootLines environment root state)).1,
        rootFailure root.file
          (finish state.stack.depth (rootLines environment root state)).2) := by
  rw [preprocess_within, processFile_finish]
  rfl

theorem rootLines_reports (environment : Environment) (root : Lexed) (state : State) :
    Reports environment.config state.log (rootLines environment root state) :=
  reports_later _ _ _ _ ⟨_, rfl, root.diagnostics_notFatal⟩
    (lines_reports environment _ _ true root.tokens (state.reportAll root.diagnostics))

theorem rootLines_openOver (environment : Environment) (root : Lexed) (state : State)
    (rooted : state.stack.frames ≠ []) :
    ∃ left, Stack.OpenOver state.stack.frames left (rootLines environment root state).1.stack := by
  exact lines_openOver environment _ state.stack.frames state.stack.depth
    (state.stack.length_rooted rooted) true root.tokens [] (state.reportAll root.diagnostics)
    ⟨rfl, by simp⟩

-- How the result of a run belongs to what was reported and to the blocks that the root left open,
-- innermost first.
structure Accounts (config : Config) (file : Text) (told : List Diagnostic) (left : List Frame)
    (result : Option Failure) : Prop where
  missing : (∃ failure ∈ result, failure.missing?.isSome = true) ↔
    ∃ diagnostic ∈ told, diagnostic.Fatal
  last : ∀ failure ∈ result, ∀ location ∈ failure.missing?,
    ∃ earlier last, told = earlier ++ [last] ∧ last.Fatal ∧ last.location = some location ∧
      ∀ diagnostic ∈ earlier, ¬ diagnostic.Fatal
  system : ∀ path location, result = some (.systemIncludeNotFound path location) →
    config.missingSystemIncludeIsFatal = true
  unterminated : ∀ named count, result = some (.unterminatedConditional named count) ↔
    (∀ diagnostic ∈ told, ¬ diagnostic.Fatal) ∧ 0 < left.length ∧ named = file ∧
      count = left.length
  openers : ∀ named count, result = some (.unterminatedConditional named count) →
    ∃ earlier reports, told = earlier ++ reports ∧ reports.length = count ∧
      (∀ report ∈ reports, report.level = .error ∧ report.code = some .unterminatedConditional) ∧
      reports.map Diagnostic.location =
        left.reverse.map fun frame => frame.opener.map Token.location
  macros : ∀ name, result ≠ some (.invalidMacroName name)
  passed : result = none ↔ (∀ diagnostic ∈ told, ¬ diagnostic.Fatal) ∧ left = []

theorem accounts_failed (config : Config) (file : Text) (told : List Diagnostic)
    (left : List Frame) (failure : Failure) (last : Diagnostic)
    (harmless : ∀ diagnostic ∈ told, ¬ diagnostic.Fatal) (names : failure.Told config last) :
    Accounts config file (told ++ [last]) left (some failure) := by
  obtain ⟨fatal, location, missing, located⟩ := names.fatal
  have member : last ∈ told ++ [last] := List.mem_append_right told List.mem_cons_self
  have reported : ¬ ∀ diagnostic ∈ told ++ [last], ¬ diagnostic.Fatal :=
    fun none => none last member fatal
  have other : ∀ wrong : Failure, wrong.missing? = none → some failure ≠ some wrong := by
    rintro wrong none ⟨⟩
    rw [missing] at none
    cases none
  exact {
    missing := ⟨fun _ => ⟨last, member, fatal⟩, fun _ => ⟨failure, rfl, by simp [missing]⟩⟩
    last := by
      rintro _ ⟨⟩ place same
      exact ⟨told, last, rfl, fatal, located.trans (missing.symm.trans same), harmless⟩
    system := by
      rintro path place ⟨⟩
      cases names with
      | system path location allowed => exact allowed
    unterminated := fun named count =>
      ⟨fun wrong => absurd wrong (other _ rfl), fun none => absurd none.1 reported⟩
    openers := fun named count wrong => absurd wrong (other _ rfl)
    macros := fun name => other _ rfl
    passed := ⟨nofun, fun none => absurd none.1 reported⟩ }

theorem accounts_finished (config : Config) (file : Text) (told : List Diagnostic)
    (left : List Frame) (quiet : ∀ diagnostic ∈ told, ¬ diagnostic.Fatal) :
    Accounts config file (told ++ leftReports left.reverse) left
      (rootFailure file (.ok left.length)) := by
  have harmless : ∀ diagnostic ∈ told ++ leftReports left.reverse, ¬ diagnostic.Fatal := by
    intro diagnostic member
    exact (List.mem_append.mp member).elim (quiet diagnostic) (leftReports_notFatal _ diagnostic)
  have result : rootFailure file (.ok left.length) =
      if left.length = 0 then none else some (.unterminatedConditional file left.length) := rfl
  have present : ∀ failure ∈ rootFailure file (.ok left.length),
      0 < left.length ∧ failure = .unterminatedConditional file left.length := by
    intro failure found
    rw [result] at found
    split at found
    · cases found
    · cases found
      exact ⟨by omega, rfl⟩
  exact {
    missing := by
      constructor
      · rintro ⟨failure, found, missing⟩
        rw [(present failure found).2] at missing
        cases missing
      · rintro ⟨diagnostic, member, fatal⟩
        exact absurd fatal (harmless diagnostic member)
    last := by
      intro failure found place missing
      rw [(present failure found).2] at missing
      cases missing
    system := fun path place found => nomatch (present _ found).2
    unterminated := by
      intro named count
      constructor
      · intro found
        obtain ⟨some, same⟩ := present _ found
        cases same
        exact ⟨harmless, some, rfl, rfl⟩
      · rintro ⟨_, some, rfl, rfl⟩
        rw [result, if_neg (by omega)]
    openers := by
      intro named count found
      obtain ⟨_, same⟩ := present _ found
      cases same
      refine ⟨told, leftReports left.reverse, rfl, by simp [leftReports], ?_, ?_⟩
      · intro report member
        obtain ⟨frame, _, rfl⟩ := List.mem_map.mp member
        exact ⟨rfl, rfl⟩
      · rw [leftReports, List.map_map]
        rfl
    macros := fun name found => nomatch (present _ found).2
    passed := by
      rw [result]
      split
      · exact ⟨fun _ => ⟨harmless, List.length_eq_zero_iff.mp ‹_›⟩, fun _ => rfl⟩
      · exact ⟨nofun, fun none => absurd (List.length_eq_zero_iff.mpr none.2) ‹_›⟩ }

theorem preprocess_accounts (environment : Environment) (root : Lexed) (state : State)
    (rooted : state.stack.frames ≠ []) :
    ∃ told left,
      (preprocess environment root state).1.log = state.log.reportAll told ∧
      (rootLines environment root state).1.stack.frames = left ++ state.stack.frames ∧
      (∀ frame ∈ left, frame.opener.isSome = true) ∧
      Accounts environment.config root.file told left (preprocess environment root state).2 := by
  obtain ⟨left, opened⟩ := rootLines_openOver environment root state rooted
  have closed := Stack.closeAbove_openOver state.stack.frames left state.stack.depth _
    (state.stack.length_rooted rooted) opened
  have reported := rootLines_reports environment root state
  rw [preprocess_rootLines]
  generalize rootLines environment root state = ended at opened closed reported ⊢
  cases reported with
  | failed after failure middle last harmless names ends =>
      obtain ⟨told, rfl, quiet⟩ := harmless
      refine ⟨told ++ [last], left, ?_, opened.1, opened.2,
        accounts_failed _ _ told left failure last quiet names⟩
      rw [Log.reportAll_append, ← Log.report_eq]
      exact ends
  | passed after harmless =>
      obtain ⟨told, same, quiet⟩ := harmless
      have count : (after.stack.closeAbove state.stack.depth).1.length = left.length := by
        rw [closed, List.length_reverse]
      refine ⟨told ++ leftReports left.reverse, left, ?_, opened.1, opened.2, ?_⟩
      · rw [Log.reportAll_append, ← same, ← closed]
        rfl
      · rw [finish, count]
        exact accounts_finished _ _ told left quiet

namespace Accounts.Sample

def environment : Environment :=
  ⟨.default, ((MemoryFiles.empty.insert ⟨"open.h".toList⟩ "#ifndef B\n".toList).insert
    ⟨"lost.h".toList⟩ "#ifndef B\n#include \"gone.h\"\n".toList).loader, .fromOne⟩

def root : Lexed :=
  lex "main.c".toList "#ifndef A\n#include \"open.h\"\n#include \"lost.h\"\n".toList

end Accounts.Sample

open Accounts in
theorem preprocess_accounts_sample :
    State.initial.stack.frames ≠ [] ∧
      ∃ told left,
        Accounts .default Sample.root.file told left
          (preprocess Sample.environment Sample.root .initial).2 ∧
        told.map (fun report => (report.code, report.location.map fun place => place.line)) =
          [(some .unterminatedConditional, some 1), (some .includeNotFound, some 2)] ∧
        left.length = 1 := by
  have rooted : State.initial.stack.frames ≠ [] := by decide
  obtain ⟨told, left, log, frames, _, accounts⟩ :=
    preprocess_accounts Sample.environment Sample.root .initial rooted
  refine ⟨rooted, told, left, accounts, ?_, ?_⟩
  · have entries : (preprocess Sample.environment Sample.root .initial).1.log.entries.toList =
        told := by
      rw [log]
      simp [State.initial, Log.empty]
    rw [← entries]
    decide +kernel
  · have length := congrArg List.length frames
    rw [show (rootLines Sample.environment Sample.root .initial).1.stack.frames.length = 2 by
      decide +kernel, List.length_append, show State.initial.stack.frames.length = 1 from rfl]
      at length
    omega

end Engine

end CPreprocessor
