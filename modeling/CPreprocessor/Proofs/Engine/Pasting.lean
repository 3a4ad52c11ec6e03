import CPreprocessor.Proofs.Engine.Blocks
import CPreprocessor.Proofs.Engine.Dependencies
import CPreprocessor.Proofs.Engine.Pages
import CPreprocessor.Proofs.Engine.Restoration

/-!
An include line stands for the lines of its file. A file that ends its lines, closes its parentheses
and its blocks and includes nothing is processed with a floor, an include stack and a token list of
its own; the file that has its lines in place of the include line gives the same, but for the
dependency, the paths that are read to find the file, and its number.
-/

set_option autoImplicit false

namespace CPreprocessor

open Conditional (Frame Stack)

namespace Numbering

def drop (numbering : Numbering) (count : Nat) : Numbering where
  serial index := numbering.serial (index + count)
  distinct _ _ same := Nat.add_right_cancel (numbering.distinct _ _ same)

def without (numbering : Numbering) (place : Nat) : Numbering where
  serial index := numbering.serial (if index < place then index else index + 1)
  distinct first second same := by
    have alike := numbering.distinct _ _ same
    split at alike <;> split at alike <;> omega

theorem without_before (numbering : Numbering) (place index : Nat) (before : index < place) :
    (numbering.without place).serial index = numbering.serial index :=
  congrArg numbering.serial (if_pos before)

theorem without_after (numbering : Numbering) (place index : Nat) :
    (numbering.without place).serial (index + place) =
      (numbering.drop (place + 1)).serial index :=
  congrArg numbering.serial (if_neg (by omega))

end Numbering

namespace Engine

theorem lines_bottom (environment : Environment) (files : List Path) (base : List Frame)
    (floor : Nat) (lineStart : Bool) (tokens : List Token) (state : State)
    (outer : base.length = floor + 1) (bottom : base <:+ state.stack.frames) :
    base <:+ ((within environment files).lines floor lineStart tokens state).1.stack.frames := by
  have follows := Machine.lines_follows environment
    (fun path text inner _ _ => Machine.processIncluded environment path text inner)
    (fun path text inner here _ guard =>
      here ▸ Machine.processIncluded_follows environment path text inner guard)
    floor lineStart tokens ⟨state, files, []⟩ rfl rfl
  have keeps := Machine.lines_keeps environment
    (fun path text inner _ _ => Machine.processIncluded environment path text inner)
    (fun path text inner _ _ rooted =>
      Machine.processIncluded_restores environment path text inner rooted)
    base floor outer lineStart tokens ⟨state, files, []⟩ rfl bottom
  have kept := keeps.state.frames bottom
  rwa [follows.expander] at kept

theorem lines_depth_le (environment : Environment) (files : List Path) (lineStart : Bool)
    (tokens : List Token) (state : State) :
    state.stack.depth ≤ ((within environment files).lines state.stack.depth lineStart tokens
      state).1.stack.depth := by
  by_cases rooted : state.stack.frames = []
  · rw [Stack.depth, rooted]
    exact Nat.zero_le _
  · have bottom := lines_bottom environment files state.stack.frames state.stack.depth lineStart tokens
      state (state.stack.length_rooted rooted) (List.suffix_refl _)
    have longer := bottom.length_le
    simp only [Stack.depth] at longer ⊢
    omega

end Engine

namespace Directive

def depthAfter (depth : Nat) : Directive → Option Nat
  | .ifdef => some (depth + 1)
  | .ifndef => some (depth + 1)
  | .ifExpression => some (depth + 1)
  | .elifExpression => if depth = 0 then none else some depth
  | .elseBranch => if depth = 0 then none else some depth
  | .endif => if depth = 0 then none else some (depth - 1)
  | _ => some depth

def ofLines (lines : List (List Token)) : List Directive :=
  lines.filterMap fun line => (DirectiveLine.ofLine? line).map fun found => .ofName found.name.text

theorem ofLines_text (line : List Token) (lines : List (List Token))
    (plain : DirectiveLine.ofLine? line = none) : ofLines (line :: lines) = ofLines lines := by
  simp [ofLines, plain]

theorem ofLines_directive (line : List Token) (lines : List (List Token)) (found : DirectiveLine)
    (written : DirectiveLine.ofLine? line = some found) :
    ofLines (line :: lines) = .ofName found.name.text :: ofLines lines := by
  simp [ofLines, written]

end Directive

namespace State

theorem openTest_length (state : State) (defined : Bool) (name : Token) (operands : List Token) :
    (state.openTest defined name operands).stack.frames.length = state.stack.frames.length + 1 := by
  rw [openTest]
  cases Operand.macroName? operands with
  | some operand => rfl
  | none =>
      by_cases active : state.isActive = true
      · simp only [if_pos active]
        rfl
      · simp only [if_neg active]
        rfl

theorem openUnsupported_length (state : State) (name : Token) :
    (state.openUnsupported name).stack.frames.length = state.stack.frames.length + 1 := by
  rw [openUnsupported]
  by_cases active : state.isActive = true
  · simp only [if_pos active]
    rfl
  · simp only [if_neg active]
    rfl

section

variable (state : State) (name : Token) (frame : Frame) (below : List Frame) (high : Nat)
  (frames : state.stack.frames = frame :: below)
  (reach : ∀ floor ≤ high, state.stack.topAbove? floor = some (frame, below))
include frames reach

theorem suppressBlock_reach :
    (∀ floor ≤ high, state.suppressBlock floor name = state.suppressBlock high name) ∧
      (state.suppressBlock high name).stack.frames.length = state.stack.frames.length := by
  have result : ∀ floor ≤ high, state.suppressBlock floor name =
      if frame.state = .taken then { state with stack := ⟨{ frame with state := .taken } :: below⟩ }
      else State.report { state with stack := ⟨{ frame with state := .taken } :: below⟩ } name
        .unsupportedElif := by
    intro floor low
    rw [suppressBlock, Stack.suppress, reach floor low]
  refine ⟨fun floor low => (result floor low).trans (result high (Nat.le_refl high)).symm, ?_⟩
  rw [result high (Nat.le_refl high), frames]
  by_cases taken : frame.state = .taken
  · rw [if_pos taken]
    rfl
  · rw [if_neg taken]
    rfl

theorem flipBlock_reach :
    (∀ floor ≤ high, state.flipBlock floor name = state.flipBlock high name) ∧
      (state.flipBlock high name).stack.frames.length = state.stack.frames.length := by
  have result : ∀ floor ≤ high, state.stack.flipElse floor =
      if frame.sawElse then (.error .duplicateElse, state.stack)
      else (.ok frame.state.afterElse,
        ⟨{ frame with state := frame.state.afterElse, sawElse := true } :: below⟩) := by
    intro floor low
    rw [Stack.flipElse, reach floor low]
  refine ⟨fun floor low => ?_, ?_⟩
  · rw [flipBlock, flipBlock, result floor low, result high (Nat.le_refl high)]
  · rw [flipBlock, result high (Nat.le_refl high), frames]
    by_cases again : frame.sawElse = true
    · rw [if_pos again]
      exact congrArg List.length frames
    · rw [if_neg again]
      rfl

theorem closeBlock_reach :
    (∀ floor ≤ high, state.closeBlock floor name = state.closeBlock high name) ∧
      (state.closeBlock high name).stack.frames.length + 1 = state.stack.frames.length := by
  have result : ∀ floor ≤ high,
      state.closeBlock floor name = { state with stack := ⟨below⟩ } := by
    intro floor low
    rw [closeBlock, Stack.pop, reach floor low]
    rfl
  refine ⟨fun floor low => (result floor low).trans (result high (Nat.le_refl high)).symm, ?_⟩
  rw [result high (Nat.le_refl high), frames]
  rfl

end

theorem topAbove_reach (state : State) (high depth : Nat)
    (length : state.stack.frames.length = high + 1 + depth) (inside : depth ≠ 0) :
    ∃ frame below, state.stack.frames = frame :: below ∧
      ∀ floor ≤ high, state.stack.topAbove? floor = some (frame, below) := by
  cases frames : state.stack.frames with
  | nil =>
      rw [frames, List.length_nil] at length
      omega
  | cons frame below =>
      refine ⟨frame, below, rfl, fun floor low => ?_⟩
      rw [frames, List.length_cons] at length
      have above := Stack.topAbove_cons frame below floor (by omega)
      rwa [← frames] at above

-- Directives that nest are out of reach of the floor, and the frames count the open blocks.
theorem obey_nested (state : State) (name : Token) (operands : List Token) (high depth next : Nat)
    (nested : Directive.depthAfter depth (.ofName name.text) = some next)
    (length : state.stack.frames.length = high + 1 + depth) :
    (∀ floor ≤ high, state.obey floor name operands = state.obey high name operands) ∧
      (state.obey high name operands).stack.frames.length = high + 1 + next := by
  simp only [obey]
  cases directive : Directive.ofName name.text with
  | ifdef =>
      rw [directive] at nested
      cases nested
      exact ⟨fun _ _ => rfl, by rw [openTest_length, length]; rfl⟩
  | ifndef =>
      rw [directive] at nested
      cases nested
      exact ⟨fun _ _ => rfl, by rw [openTest_length, length]; rfl⟩
  | ifExpression =>
      rw [directive] at nested
      cases nested
      exact ⟨fun _ _ => rfl, by rw [openUnsupported_length, length]; rfl⟩
  | elifExpression =>
      by_cases inside : depth = 0
      · simp [directive, Directive.depthAfter, inside] at nested
      · obtain ⟨frame, below, frames, reach⟩ := topAbove_reach state high depth length inside
        simp only [directive, Directive.depthAfter, if_neg inside] at nested
        cases nested
        rw [← length]
        exact suppressBlock_reach state name frame below high frames reach
  | elseBranch =>
      by_cases inside : depth = 0
      · simp [directive, Directive.depthAfter, inside] at nested
      · obtain ⟨frame, below, frames, reach⟩ := topAbove_reach state high depth length inside
        simp only [directive, Directive.depthAfter, if_neg inside] at nested
        cases nested
        rw [← length]
        exact flipBlock_reach state name frame below high frames reach
  | endif =>
      by_cases inside : depth = 0
      · simp [directive, Directive.depthAfter, inside] at nested
      · obtain ⟨frame, below, frames, reach⟩ := topAbove_reach state high depth length inside
        obtain ⟨same, shorter⟩ := closeBlock_reach state name frame below high frames reach
        simp only [directive, Directive.depthAfter, if_neg inside] at nested
        cases nested
        exact ⟨same, by dsimp only; omega⟩
  | define =>
      rw [directive] at nested
      cases nested
      refine ⟨fun _ _ => rfl, ?_⟩
      rw [← length, defineMacro]
      cases Operand.definition name operands <;> cases state.isActive <;> rfl
  | undef =>
      rw [directive] at nested
      cases nested
      refine ⟨fun _ _ => rfl, ?_⟩
      rw [← length, undefineMacro]
      cases Operand.macroName? operands <;> cases state.isActive <;> rfl
  | inclusion =>
      rw [directive] at nested
      cases nested
      exact ⟨fun _ _ => rfl, length⟩
  | unknown =>
      rw [directive] at nested
      cases nested
      refine ⟨fun _ _ => rfl, ?_⟩
      rw [← length]
      cases state.isActive <;> rfl

end State

namespace Inclusion

def resolve? (environment : Environment) (files : List Path) (operands : List Token) :
    Option (Path × Text) :=
  match Operand.includeTarget operands with
  | .error _ => none
  | .ok (.quoted path) =>
      let candidate := (files.headD ⟨[]⟩).beside ⟨path⟩
      match environment.loader candidate with
      | .ok text => some (candidate, text)
      | .error _ => none
  | .ok (.system path) => findSystem? environment.loader path environment.config.systemIncludeDirs

theorem ofOperands_resolved (environment : Environment) (files : List Path) (name : Token)
    (operands : List Token) (path : Path) (text : Text)
    (resolved : resolve? environment files operands = some (path, text)) :
    ofOperands environment files name operands =
      ofFound environment.config files path text := by
  rw [resolve?] at resolved
  rw [ofOperands]
  cases target : Operand.includeTarget operands with
  | error problem => simp [target] at resolved
  | ok target' =>
      cases target' with
      | quoted quoted =>
          simp only [target] at resolved
          dsimp only [ofTarget]
          cases loaded : environment.loader ((files.headD ⟨[]⟩).beside ⟨quoted⟩) with
          | error reason =>
              rw [loaded] at resolved
              cases resolved
          | ok read =>
              rw [loaded] at resolved
              cases resolved
              rfl
      | system system =>
          simp only [target] at resolved
          dsimp only [ofTarget]
          rw [resolved]

end Inclusion

-- A file whose lines can stand in place of the line that includes it. How many `#else` a block has
-- does not matter.
structure Lexed.Pastable (lexed : Lexed) : Prop where
  commented : lexed.openComment = none
  ended : Token.Ended lexed.tokens
  balanced : ∀ line ∈ Token.splitLines lexed.tokens,
    DirectiveLine.ofLine? line = none → Call.Balanced line
  nested : (Directive.ofLines (Token.splitLines lexed.tokens)).foldlM Directive.depthAfter 0 = some 0
  includesNone : Directive.inclusion ∉ Directive.ofLines (Token.splitLines lexed.tokens)

theorem State.isActive_of_head (state : State)
    (active : state.stack.frames.head?.map Frame.state = some .active) : state.isActive = true := by
  rw [isActive, Stack.isActive, Stack.top]
  cases frames : state.stack.frames with
  | nil => rfl
  | cons frame below =>
      simp only [frames, List.head?_cons, Option.map_some, Option.some.injEq] at active
      simp only [active]
      rfl

namespace Engine

-- Lines that nest and include nothing do the same whatever files are being processed, wherever the
-- floor is and whatever came before, and leave the frames that they found.
theorem page_nested (high : Nat) (base : List Frame) (lines : List (List Token)) (depth : Nat)
    (state : State) (outer : base.length = high + 1)
    (nested : (Directive.ofLines lines).foldlM Directive.depthAfter depth = some 0)
    (includesNone : Directive.inclusion ∉ Directive.ofLines lines)
    (length : state.stack.frames.length = high + 1 + depth)
    (bottom : base <:+ state.stack.frames) :
    ∃ after : State, after.stack.frames = base ∧
      ∀ environment files earlier, ∀ floor ≤ high,
        (within environment files).page floor lines (state.preceded earlier) =
          (after.preceded earlier, none) := by
  induction lines generalizing depth state with
  | nil =>
      cases nested
      exact ⟨state, (bottom.eq_of_length (by omega)).symm, fun _ _ _ _ _ => rfl⟩
  | cons line lines ih =>
      cases written : DirectiveLine.ofLine? line with
      | none =>
          rw [Directive.ofLines_text line lines written] at nested includesNone
          let read := if state.isActive then state.emit (state.macros.expandAll [] line) else state
          have stack : read.stack = state.stack := by
            dsimp only [read]
            cases state.isActive <;> rfl
          obtain ⟨after, frames, same⟩ := ih depth read nested includesNone (stack ▸ length)
            (stack ▸ bottom)
          refine ⟨after, frames, fun environment files earlier floor low => ?_⟩
          rw [Context.page, Context.line, written, ← same environment files earlier floor low]
          dsimp only [read, andThen]
          rw [show (state.preceded earlier).isActive = state.isActive from rfl]
          cases state.isActive <;> rfl
      | some found =>
          rw [Directive.ofLines_directive line lines found written] at nested includesNone
          rw [List.foldlM_cons] at nested
          obtain ⟨next, step, later⟩ := Option.bind_eq_some_iff.mp nested
          obtain ⟨alike, deeper⟩ := State.obey_nested state found.name found.operands high depth next
            step length
          have kept := (State.extends_obey base high outer state found.name found.operands).frames
            bottom
          obtain ⟨after, frames, same⟩ := ih next (state.obey high found.name found.operands) later
            (List.not_mem_of_not_mem_cons includesNone) deeper kept
          refine ⟨after, frames, fun environment files earlier floor low => ?_⟩
          have stays : ¬ (state.preceded earlier).includes found.name = true := by
            intro includes
            rw [State.includes, Bool.and_eq_true, beq_iff_eq] at includes
            exact includesNone (includes.1 ▸ List.mem_cons_self)
          rw [Context.page, Context.line, written]
          dsimp only
          rw [directive_within, if_neg stays, State.obey_preceded, alike floor low]
          exact same environment files earlier floor low

theorem finish_level (floor : Nat) (after : State)
    (level : after.stack.frames.length = floor + 1) :
    finish floor (after, none) = (after, .ok 0) := by
  have none : after.stack.closeAbove floor = ([], after.stack) := by
    simp [Stack.closeAbove, Stack.depth, level]
  simp [finish, none, State.reportAll, Log.reportAll]

theorem lines_pastable (lexed : Lexed) (state : State) (pastable : lexed.Pastable)
    (rooted : state.stack.frames ≠ []) :
    ∃ after : State, after.stack.frames = state.stack.frames ∧
      ∀ environment files, ∀ floor ≤ state.stack.depth, ∀ earlier rest,
        (within environment files).lines floor true (lexed.tokens ++ rest)
            (state.preceded earlier) =
          (within environment files).lines floor true rest (after.preceded earlier) := by
  have outer := state.stack.length_rooted rooted
  obtain ⟨after, frames, same⟩ := page_nested state.stack.depth state.stack.frames _ 0 state outer
    pastable.nested pastable.includesNone outer (List.suffix_refl _)
  refine ⟨after, frames, fun environment files floor low earlier rest => ?_⟩
  have run := Context.lines_page (within environment files) floor lexed.tokens rest
    (state.preceded earlier) (.inl pastable.ended)
    fun line member plain => ⟨0, pastable.balanced line member plain⟩
  rwa [same environment files earlier floor low] at run

theorem lines_arrived (context : Context) (floor : Nat) (before rest : List Token)
    (state reached : State) (ended : Token.Ended before)
    (balanced : ∀ line ∈ Token.splitLines before,
      DirectiveLine.ofLine? line = none → Call.Balanced line)
    (arrives : context.lines floor true before state = (reached, none)) :
    context.lines floor true (before ++ rest) state = context.lines floor true rest reached := by
  have closing : ∀ line ∈ Token.splitLines before,
      DirectiveLine.ofLine? line = none → Call.Closing line :=
    fun line member plain => ⟨0, balanced line member plain⟩
  have whole := context.lines_page floor before [] state (.inr rfl) closing
  rw [List.append_nil, Context.lines_nil, andThen_pure, arrives] at whole
  rw [context.lines_page floor before rest state (.inl ended) closing, ← whole]
  rfl

theorem includeWithin_pastable (environment : Environment) (files : List Path) (path : Path)
    (text : Text) (state left : State)
    (commented : (state.nextText environment path.text text).openComment = none)
    (level : left.stack.frames.length = state.stack.depth + 1)
    (run : ∀ earlier, (within environment (path :: files)).lines state.stack.depth true
      (state.nextText environment path.text text).tokens (state.bare.preceded earlier) =
        (left.preceded earlier, none)) :
    includeWithin environment files path text state =
      (left.preceded (state.entered environment path text).past, none) := by
  have entered : state.entered environment path text =
      state.bare.preceded (state.entered environment path text).past := by
    simp [State.entered, State.lexNext, State.past, State.addDependency, State.preceded,
      State.bare, State.reportAll, Lexed.diagnostics, commented]
  have depth : (state.entered environment path text).stack.depth = state.stack.depth := rfl
  have ran := run (state.entered environment path text).past
  rw [← entered] at ran
  rw [includeWithin, enterWith_failureOf, processFile_finish, depth, ran,
    finish_level state.stack.depth (left.preceded _) level]
  rfl

theorem directive_included (environment : Environment) (files : List Path) (floor : Nat)
    (name : Token) (operands : List Token) (path : Path) (text : Text) (state : State)
    (includes : Directive.ofName name.text = .inclusion)
    (active : state.stack.frames.head?.map Frame.state = some .active)
    (resolved : Inclusion.resolve? environment files operands = some (path, text))
    (fresh : files.any (·.sameFile path) = false)
    (shallow : files.length < environment.config.maxIncludeDepth) :
    (within environment files).directive floor name operands state =
      includeWithin environment files path text (state.sought environment files operands) := by
  have awake : state.includes name = true := by
    rw [State.includes, includes, State.isActive_of_head state active]
    rfl
  have found : Inclusion.ofOperands environment files name operands = .entered path text := by
    rw [Inclusion.ofOperands_resolved environment files name operands path text resolved,
      Inclusion.ofFound, if_neg (by rw [fresh]; exact Bool.false_ne_true), if_neg (by omega)]
  rw [directive_within, if_pos awake, found]

theorem process_arrived (environment : Environment) (numbering : Numbering) (files : List Path)
    (tokens after : List Token) (state left : State) (earlier : Past)
    (numbers : ∀ index,
      numbering.serial (index + earlier.lexings) = environment.numbering.serial index)
    (arrives : (within (environment.numbered numbering) files).lines state.stack.depth true tokens
        state =
      (within (environment.numbered numbering) files).lines state.stack.depth true after
        (left.preceded earlier)) :
    process (environment.numbered numbering)
        (environment.config.maxIncludeDepth - files.length) files tokens state =
      preceding earlier (finish state.stack.depth
        ((within environment files).lines state.stack.depth true after left)) := by
  have same : process (environment.numbered numbering)
      (environment.config.maxIncludeDepth - files.length) files =
        (within (environment.numbered numbering) files).processFile := process_within _ files
  rw [same, processFile_finish, arrives,
    lines_preceded files _ _ _ _ fun index _ _ => numbers index, finish_preceding]

-- A number that is skipped after a run makes no difference to it.
theorem lines_without (environment : Environment) (files : List Path) (floor : Nat)
    (tokens : List Token) (state reached : State)
    (arrives : (within environment files).lines floor true tokens state = (reached, none)) :
    (within (environment.numbered (environment.numbering.without reached.lexings)) files).lines floor
      true tokens state = (reached, none) := by
  have numbers : Renumbers environment (environment.numbering.without reached.lexings)
      ⟨#[], #[], 0⟩ state reached :=
    fun index _ high => environment.numbering.without_before reached.lexings index high
  have renumbered := lines_preceded files floor true tokens state (by rwa [arrives])
  rwa [arrives, State.preceded_none, preceding, State.preceded_none] at renumbered

theorem process_pasted (environment : Environment) (files : List Path) (before : List Token)
    (line : HashLine) (after : List Token) (path : Path) (text : Text) (state reached : State)
    (ended : Token.Ended before)
    (balanced : ∀ line ∈ Token.splitLines before,
      DirectiveLine.ofLine? line = none → Call.Balanced line)
    (includes : line.directive = .inclusion) (fits : line.Before after)
    (pastable : (reached.nextText environment path.text text).Pastable)
    (arrives : (within environment files).lines state.stack.depth true before state =
      (reached, none))
    (active : reached.stack.frames.head?.map Frame.state = some .active)
    (resolved : Inclusion.resolve? environment files line.operands = some (path, text))
    (fresh : files.any (·.sameFile path) = false)
    (shallow : files.length < environment.config.maxIncludeDepth) :
    let lexed := reached.nextText environment path.text text
    let skipping := environment.numbered (environment.numbering.without reached.lexings)
    let depth := environment.config.maxIncludeDepth - files.length
    let included := process environment depth files (before ++ (line.tokens ++ after)) state
    let pasted := process skipping depth files (before ++ (lexed.tokens ++ after)) state
    included.2 = pasted.2 ∧ included.1.output = pasted.1.output ∧
      included.1.macros = pasted.1.macros ∧ included.1.stack = pasted.1.stack ∧
      included.1.log = pasted.1.log ∧ included.1.lexings = pasted.1.lexings + 1 ∧
      (∃ later, included.1.dependencies = reached.dependencies.push lexed ++ later ∧
        pasted.1.dependencies = reached.dependencies ++ later) ∧
      ∃ later, included.1.reads =
          reached.reads ++ (Inclusion.asks environment files line.operands).toArray ++ later ∧
        pasted.1.reads = reached.reads ++ later := by
  intro lexed skipping depth included pasted
  have low : state.stack.depth ≤ reached.stack.depth := by
    have deeper := lines_depth_le environment files true before state
    rwa [arrives] at deeper
  have rooted : reached.stack.frames ≠ [] := by
    intro empty
    simp [empty] at active
  obtain ⟨left, frames, same⟩ := lines_pastable lexed reached.bare pastable rooted
  let found := reached.sought environment files line.operands
  have entered : includeWithin environment files path text found =
      (left.preceded (found.entered environment path text).past, none) := by
    apply includeWithin_pastable environment files path text found left pastable.commented
    · rw [frames]
      exact reached.stack.length_rooted rooted
    · intro earlier
      have alone := same environment (path :: files) reached.stack.depth (Nat.le_refl _) earlier []
      rwa [List.append_nil, Context.lines_nil] at alone
  have directive := directive_included environment files state.stack.depth line.name line.operands
    path text reached includes active resolved fresh shallow
  let later := environment.numbered (environment.numbering.drop (reached.lexings + 1))
  have includedRun : included = preceding (found.entered environment path text).past _ :=
    process_arrived later environment.numbering files _ after state left _ (fun _ => rfl) (by
      have written := Context.lines_hash _ state.stack.depth line after reached _ fits
        (directive.trans entered)
      exact (lines_arrived _ _ before _ state reached ended balanced arrives).trans written)
  have skips := lines_without environment files state.stack.depth before state reached arrives
  have pastedRun : pasted = preceding reached.past _ :=
    process_arrived later skipping.numbering files _ after state left _
      (fun index => environment.numbering.without_after reached.lexings index) (by
      have pasted := same skipping files state.stack.depth low reached.past after
      rw [State.bare_preceded] at pasted
      exact (lines_arrived _ _ before _ state reached ended balanced skips).trans pasted)
  rw [includedRun, pastedRun]
  exact ⟨rfl, rfl, rfl, rfl, rfl, rfl, ⟨_, rfl, rfl⟩, _, rfl, rfl⟩

namespace Sample

def header : Text := "#ifndef A\n#define C c\n#endif\nx\n".toList

def path : Path := ⟨"h.h".toList⟩

def environment : Environment :=
  ⟨.default, ((MemoryFiles.empty.insert path header).insert ⟨"k.h".toList⟩ "z\n".toList).loader,
    .fromOne⟩

def files : List Path := [⟨"main.c".toList⟩]

def textLine (name : String) : List Token := [.spelled .name name, .spelled .newline "\n"]

def includeLine (name : String) : HashLine :=
  Program.Sample.line "include" [.spelled .string name] (by simp [Token.spelled, Token.isNewline])

def after : List Token :=
  (Program.Sample.whether "C").tokens ++ (textLine "y" ++
    (Program.Sample.close.val.tokens ++ (includeLine "\"k.h\"").tokens))

def reached : State :=
  ((within environment files).lines State.initial.stack.depth true (textLine "B") .initial).1

def lexed : Lexed := reached.nextText environment path.text header

def skipping : Environment := environment.numbered (environment.numbering.without reached.lexings)

theorem lexed_pastable : lexed.Pastable where
  commented := by decide +kernel
  ended := by
    rw [Token.Ended]
    decide +kernel
  balanced := by
    simp only [Call.Balanced]
    decide +kernel
  nested := by decide +kernel
  includesNone := by decide +kernel

end Sample

theorem process_pasted_sample :
    Sample.lexed.Pastable ∧
      ∃ included pasted : State,
        process Sample.environment 63 Sample.files
          (Sample.textLine "B" ++ ((Sample.includeLine "\"h.h\"").tokens ++ Sample.after))
            .initial = (included, .ok 0) ∧
        process Sample.skipping 63 Sample.files
          (Sample.textLine "B" ++ (Sample.lexed.tokens ++ Sample.after)) .initial =
            (pasted, .ok 0) ∧
        included.output = pasted.output ∧
        pasted.output.toList.flatMap Token.text = "B\nx\ny\nz\n".toList ∧
        included.dependencies.toList.map (·.source.serial) = [1, 2] ∧
        pasted.dependencies.toList.map (·.source.serial) = [2] := by
  have arrives : (within Sample.environment Sample.files).lines State.initial.stack.depth true
      (Sample.textLine "B") .initial = (Sample.reached, none) := Prod.ext rfl (by decide +kernel)
  obtain ⟨result, output, _⟩ := process_pasted Sample.environment
    Sample.files (Sample.textLine "B") (Sample.includeLine "\"h.h\"") Sample.after Sample.path
    Sample.header .initial Sample.reached (by rw [Token.Ended]; decide)
    (by simp only [Call.Balanced]; decide +kernel) (by decide) (by intro ends; cases ends)
    Sample.lexed_pastable arrives (by decide +kernel) (by decide +kernel) (by decide +kernel)
    (by decide +kernel)
  have closed : (process Sample.skipping 63 Sample.files
    (Sample.textLine "B" ++ (Sample.lexed.tokens ++ Sample.after)) .initial).2 = .ok 0 := by
    decide +kernel
  refine ⟨Sample.lexed_pastable, _, _, Prod.ext rfl (result.trans closed), Prod.ext rfl closed,
    output, ?_, ?_, ?_⟩
  · decide +kernel
  · decide +kernel
  · decide +kernel

end Engine

end CPreprocessor
