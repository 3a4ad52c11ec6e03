import CPreprocessor.Proofs.Engine.Aborts
import CPreprocessor.Proofs.Engine.Blocks
import CPreprocessor.Proofs.Engine.Pages

/-!
Which blocks are open, and which directives are misplaced, as the names of the directives alone tell
it. A machine that reads these names and nothing else reports on blocks what the engine reports,
whatever macros are defined and whether lines are read or skipped.
-/

set_option autoImplicit false

namespace CPreprocessor

namespace DirectiveLine

def names (lines : List (List Token)) : List Token :=
  lines.filterMap fun line => (ofLine? line).map DirectiveLine.name

theorem names_text (line : List Token) (lines : List (List Token)) (plain : ofLine? line = none) :
    names (line :: lines) = names lines := by
  simp [names, plain]

theorem names_directive (line : List Token) (lines : List (List Token)) (found : DirectiveLine)
    (written : ofLine? line = some found) : names (line :: lines) = found.name :: names lines := by
  simp [names, written]

theorem names_cons (line : List Token) (lines : List (List Token)) :
    names (line :: lines) = names [line] ++ names lines := by
  rw [names, names, names, ← List.filterMap_append, List.singleton_append]

end DirectiveLine

namespace Conditional

structure Block where
  opener : Token
  sawElse : Bool
deriving DecidableEq, Repr

def Block.next (blocks : List Block) (name : Token) : Except Misuse (List Block) :=
  match Directive.ofName name.text, blocks with
  | .ifdef, _ => .ok (⟨name, false⟩ :: blocks)
  | .ifndef, _ => .ok (⟨name, false⟩ :: blocks)
  | .ifExpression, _ => .ok (⟨name, false⟩ :: blocks)
  | .elifExpression, [] => .error .elifWithoutIf
  | .elseBranch, [] => .error .elseWithoutIf
  | .elseBranch, ⟨_, true⟩ :: _ => .error .duplicateElse
  | .elseBranch, ⟨opener, false⟩ :: outer => .ok (⟨opener, true⟩ :: outer)
  | .endif, [] => .error .endifWithoutIf
  | .endif, _ :: outer => .ok outer
  | _, _ => .ok blocks

structure Balance where
  blocks : List Block
  reports : List Diagnostic
deriving DecidableEq, Repr

namespace Balance

def misplaced (balance : Balance) (name : Token) (misuse : Misuse) : Balance :=
  { balance with
    reports := balance.reports ++ [(Problem.misplacedConditional misuse).located name.location] }

def read (balance : Balance) (name : Token) : Balance :=
  match Block.next balance.blocks name with
  | .ok blocks => { balance with blocks := blocks }
  | .error misuse => balance.misplaced name misuse

def ofNames (names : List Token) : Balance := names.foldl read ⟨[], []⟩

-- All that is reported by the end of the file: last the blocks left open, outermost first.
def verdict (balance : Balance) : List Diagnostic :=
  balance.reports ++ balance.blocks.reverse.map fun block =>
    Problem.unterminatedConditional.located block.opener.location

end Balance

end Conditional

def Diagnostic.isOnBlocks (diagnostic : Diagnostic) : Bool :=
  diagnostic.code == some .unbalancedConditional || diagnostic.code == some .unterminatedConditional

theorem Problem.isOnBlocks_located (problem : Problem) (location : Location) :
    (problem.located location).isOnBlocks =
      (problem.code == .unbalancedConditional || problem.code == .unterminatedConditional) := rfl

namespace Conditional

namespace Block

def Shows (block : Block) (frame : Frame) : Prop :=
  frame.opener = some block.opener ∧ frame.sawElse = block.sawElse

section

variable {blocks : List Block} {left : List Frame} (shown : List.Forall₂ Shows blocks left)
include shown

theorem opener_shown : ∀ frame ∈ left, frame.opener.isSome = true := by
  induction shown with
  | nil => simp
  | cons shows shown ih => simpa [shows.1] using ih

theorem leftReports_shown :
    Engine.leftReports left = blocks.map fun block =>
      Problem.unterminatedConditional.located block.opener.location := by
  induction shown with
  | nil => rfl
  | cons shows shown ih =>
      rw [Engine.leftReports, List.map_cons, List.map_cons, ← ih, shows.1]
      rfl

end

end Block

-- The frames above those of outer files are the machine's blocks, whatever their states, and the
-- reports on blocks since an earlier log are the machine's.
structure Balance.Tracks (balance : Balance) (base : List Frame) (before : Log) (state : State) :
    Prop where
  frames : ∃ left, state.stack.frames = left ++ base ∧ List.Forall₂ Block.Shows balance.blocks left
  log : ∃ told, state.log = before.reportAll told ∧
    told.filter Diagnostic.isOnBlocks = balance.reports

namespace Balance

section

variable {balance : Balance} {base : List Frame} {before : Log} {state : State}

theorem tracks_start (state : State) : Tracks ⟨[], []⟩ state.stack.frames state.log state :=
  ⟨⟨[], rfl, .nil⟩, [], (Log.reportAll_nil _).symm, rfl⟩

theorem Tracks.reportAll (tracks : balance.Tracks base before state) (diagnostics : List Diagnostic) :
    Tracks { balance with
        reports := balance.reports ++ diagnostics.filter Diagnostic.isOnBlocks }
      base before { state with log := state.log.reportAll diagnostics } := by
  obtain ⟨told, grown, same⟩ := tracks.log
  refine ⟨tracks.frames, told ++ diagnostics, ?_, ?_⟩
  · rw [Log.reportAll_append, ← grown]
  · rw [List.filter_append, same]

theorem Tracks.misplaced (tracks : balance.Tracks base before state) (name : Token) (misuse : Misuse) :
    (balance.misplaced name misuse).Tracks base before
      (state.report name (.misplacedConditional misuse)) := by
  have told := tracks.reportAll [(Problem.misplacedConditional misuse).located name.location]
  rw [State.report, Log.report_eq]
  exact told

theorem Tracks.quiet (tracks : balance.Tracks base before state) (diagnostics : List Diagnostic)
    (others : ∀ diagnostic ∈ diagnostics, diagnostic.isOnBlocks = false) :
    balance.Tracks base before { state with log := state.log.reportAll diagnostics } := by
  have told := tracks.reportAll diagnostics
  have none : diagnostics.filter Diagnostic.isOnBlocks = [] := by
    simpa using others
  rwa [none, List.append_nil] at told

theorem Tracks.report (tracks : balance.Tracks base before state) (token : Token) (problem : Problem)
    (other : (problem.located token.location).isOnBlocks = false) :
    balance.Tracks base before (state.report token problem) := by
  rw [State.report, Log.report_eq]
  exact tracks.quiet _ (by simpa using other)

theorem Tracks.move (tracks : balance.Tracks base before state) (blocks : List Block)
    (left : List Frame) (shown : List.Forall₂ Block.Shows blocks left) :
    Tracks { balance with blocks := blocks } base before { state with stack := ⟨left ++ base⟩ } :=
  ⟨⟨left, rfl, shown⟩, tracks.log⟩

theorem Tracks.push (tracks : balance.Tracks base before state) (branch : FrameState) (name : Token) :
    Tracks { balance with blocks := ⟨name, false⟩ :: balance.blocks } base before
      { state with stack := state.stack.pushState branch name } := by
  obtain ⟨left, frames, shown⟩ := tracks.frames
  rw [Stack.pushState, frames]
  exact tracks.move _ (⟨branch, false, some name⟩ :: left) (.cons ⟨rfl, rfl⟩ shown)

theorem Tracks.openTest (tracks : balance.Tracks base before state) (defined : Bool) (name : Token)
    (operands : List Token) :
    Tracks { balance with blocks := ⟨name, false⟩ :: balance.blocks } base before
      (state.openTest defined name operands) := by
  rw [State.openTest]
  cases Operand.macroName? operands with
  | some operand => exact tracks.push _ name
  | none =>
      cases state.isActive with
      | true => exact (tracks.report name (.missingMacroName name.text) rfl).push .taken name
      | false => exact tracks.push .taken name

theorem Tracks.openUnsupported (tracks : balance.Tracks base before state) (name : Token) :
    Tracks { balance with blocks := ⟨name, false⟩ :: balance.blocks } base before
      (state.openUnsupported name) := by
  rw [State.openUnsupported]
  cases state.isActive with
  | true => exact (tracks.report name .unsupportedIf rfl).push .taken name
  | false => exact tracks.push .taken name

theorem Tracks.top (tracks : balance.Tracks base before state) (floor : Nat)
    (outer : base.length = floor + 1) :
    (balance.blocks = [] ∧ state.stack.topAbove? floor = none) ∨
      ∃ block blocks frame left, balance.blocks = block :: blocks ∧ block.Shows frame ∧
        List.Forall₂ Block.Shows blocks left ∧
        state.stack.topAbove? floor = some (frame, left ++ base) := by
  obtain ⟨frames, opened, shown⟩ := tracks.frames
  have whole : state.stack = ⟨frames ++ base⟩ := by rw [← opened]
  cases listed : balance.blocks with
  | nil =>
      rw [listed, List.forall₂_nil_left_iff] at shown
      refine .inl ⟨rfl, ?_⟩
      rw [whole, shown, Stack.topAbove?, Stack.depth, if_neg (by simp [outer])]
  | cons block blocks =>
      rw [listed, List.forall₂_cons_left_iff] at shown
      obtain ⟨frame, left, shows, inner, rfl⟩ := shown
      refine .inr ⟨block, blocks, frame, left, rfl, shows, inner, ?_⟩
      have above : floor < (left ++ base).length := by
        rw [List.length_append, outer]
        omega
      rw [whole, List.cons_append, Stack.topAbove_cons frame _ floor above]

theorem read_next (balance : Balance) (name : Token) (blocks : List Block)
    (next : Block.next balance.blocks name = .ok blocks) :
    balance.read name = { balance with blocks := blocks } := by
  simp [read, next]

theorem read_misplaced (balance : Balance) (name : Token) (misuse : Misuse)
    (next : Block.next balance.blocks name = .error misuse) :
    balance.read name = balance.misplaced name misuse := by
  simp [read, next]

section

variable (tracks : balance.Tracks base before state) (floor : Nat)
  (outer : base.length = floor + 1) (name : Token)
include tracks outer

theorem Tracks.suppressBlock (named : Directive.ofName name.text = .elifExpression) :
    (balance.read name).Tracks base before (state.suppressBlock floor name) := by
  rw [State.suppressBlock, Stack.suppress]
  rcases tracks.top floor outer with
    ⟨closed, nothing⟩ | ⟨block, blocks, frame, left, listed, shows, shown, top⟩
  · rw [nothing, read_misplaced balance name .elifWithoutIf (by simp [Block.next, named, closed])]
    exact tracks.misplaced name .elifWithoutIf
  · rw [top, read_next balance name balance.blocks (by simp [Block.next, named, listed]), listed]
    have moved := tracks.move (block :: blocks) ({ frame with state := .taken } :: left)
      (.cons shows shown)
    dsimp only
    split
    · exact moved
    · exact moved.report name .unsupportedElif rfl

theorem Tracks.flipBlock (named : Directive.ofName name.text = .elseBranch) :
    (balance.read name).Tracks base before (state.flipBlock floor name) := by
  rw [State.flipBlock, Stack.flipElse]
  rcases tracks.top floor outer with
    ⟨closed, nothing⟩ | ⟨⟨opener, sawElse⟩, blocks, frame, left, listed, shows, shown, top⟩
  · rw [nothing, read_misplaced balance name .elseWithoutIf (by simp [Block.next, named, closed])]
    exact tracks.misplaced name .elseWithoutIf
  · rw [top]
    dsimp only
    rw [shows.2]
    cases sawElse with
    | true =>
        rw [read_misplaced balance name .duplicateElse (by simp [Block.next, named, listed])]
        exact tracks.misplaced name .duplicateElse
    | false =>
        rw [read_next balance name (⟨opener, true⟩ :: blocks) (by simp [Block.next, named, listed])]
        exact tracks.move _ ({ frame with state := frame.state.afterElse, sawElse := true } :: left)
          (.cons ⟨shows.1, rfl⟩ shown)

theorem Tracks.closeBlock (named : Directive.ofName name.text = .endif) :
    (balance.read name).Tracks base before (state.closeBlock floor name) := by
  rw [State.closeBlock, Stack.pop]
  rcases tracks.top floor outer with
    ⟨closed, nothing⟩ | ⟨block, blocks, frame, left, listed, shows, shown, top⟩
  · rw [nothing, read_misplaced balance name .endifWithoutIf (by simp [Block.next, named, closed])]
    exact tracks.misplaced name .endifWithoutIf
  · rw [top, read_next balance name blocks (by simp [Block.next, named, listed])]
    exact tracks.move blocks left shown

theorem Tracks.obey (operands : List Token) :
    (balance.read name).Tracks base before (state.obey floor name operands) := by
  have opens (next : Block.next balance.blocks name = .ok (⟨name, false⟩ :: balance.blocks)) :=
    read_next balance name _ next
  have stays (next : Block.next balance.blocks name = .ok balance.blocks) :
      (balance.read name).Tracks base before state := read_next balance name _ next ▸ tracks
  rw [State.obey]
  cases named : Directive.ofName name.text with
  | ifdef =>
      rw [opens (by simp [Block.next, named])]
      exact tracks.openTest true name operands
  | ifndef =>
      rw [opens (by simp [Block.next, named])]
      exact tracks.openTest false name operands
  | ifExpression =>
      rw [opens (by simp [Block.next, named])]
      exact tracks.openUnsupported name
  | elifExpression => exact tracks.suppressBlock floor outer name named
  | elseBranch => exact tracks.flipBlock floor outer name named
  | endif => exact tracks.closeBlock floor outer name named
  | define =>
      have same := stays (by simp [Block.next, named])
      dsimp only
      rw [State.defineMacro]
      cases written : Operand.definition name operands with
      | ok definition =>
          split
          · exact ⟨same.frames, same.log⟩
          · exact same
      | error fault =>
          have malformed := Operand.definition_fault name operands fault written
          split
          · exact same.report fault.1 fault.2 (by rw [Problem.isOnBlocks_located, malformed]; rfl)
          · exact same
  | undef =>
      have same := stays (by simp [Block.next, named])
      dsimp only
      rw [State.undefineMacro]
      cases Operand.macroName? operands with
      | some operand =>
          split
          · exact ⟨same.frames, same.log⟩
          · exact same
      | none =>
          split
          · exact same.report name (.missingMacroName name.text) rfl
          · exact same
  | inclusion => exact stays (by simp [Block.next, named])
  | unknown =>
      have same := stays (by simp [Block.next, named])
      dsimp only
      split
      · exact same.report name (.unknownDirective name.text) rfl
      · exact same

end

theorem Tracks.emit (tracks : balance.Tracks base before state) (expansion : Expansion)
    (calls : expansion.ReportsCalls) : balance.Tracks base before (state.emit expansion) := by
  have quiet := tracks.quiet expansion.diagnostics fun diagnostic member => by
    rcases calls diagnostic member with code | code <;> rw [Diagnostic.isOnBlocks, code] <;> rfl
  exact ⟨quiet.frames, quiet.log⟩

-- The induction is on the lines; the invariant is that the machine and the engine show the same.
theorem Tracks.page (context : Engine.Context) (floor : Nat) (outer : base.length = floor + 1)
    (lines : List (List Token)) (tracks : balance.Tracks base before state)
    (stays : ∀ name ∈ DirectiveLine.names lines, Directive.ofName name.text ≠ .inclusion) :
    ∃ after, context.page floor lines state = (after, none) ∧
      ((DirectiveLine.names lines).foldl read balance).Tracks base before after := by
  induction lines generalizing balance state with
  | nil => exact ⟨state, rfl, tracks⟩
  | cons line lines ih =>
      rw [Engine.Context.page, Engine.Context.line]
      cases written : DirectiveLine.ofLine? line with
      | none =>
          rw [DirectiveLine.names_text line lines written] at stays ⊢
          dsimp only
          split
          · exact ih (tracks.emit _ (state.macros.expandAll_reportsCalls [] line)) stays
          · exact ih tracks stays
      | some found =>
          rw [DirectiveLine.names_directive line lines found written] at stays ⊢
          have here : state.includes found.name = false := by
            simp [State.includes, stays found.name List.mem_cons_self]
          dsimp only
          rw [context.directive_obey floor found.name found.operands state here]
          exact ih (tracks.obey floor outer found.name found.operands)
            fun name member => stays name (List.mem_cons_of_mem _ member)

theorem Tracks.finish (tracks : balance.Tracks base before state) (floor : Nat)
    (outer : base.length = floor + 1) :
    (Engine.finish floor (state, none)).2 = .ok balance.blocks.length ∧
      ∃ told, (Engine.finish floor (state, none)).1.log = before.reportAll told ∧
        told.filter Diagnostic.isOnBlocks = balance.verdict := by
  obtain ⟨left, frames, shown⟩ := tracks.frames
  obtain ⟨told, grown, reports⟩ := tracks.log
  have closed := Stack.closeAbove_openOver base left floor state.stack outer
    ⟨frames, Block.opener_shown shown⟩
  have unclosed : Engine.leftReports (state.stack.closeAbove floor).1 =
      balance.blocks.reverse.map fun block =>
        Problem.unterminatedConditional.located block.opener.location := by
    rw [closed, Engine.leftReports, List.map_reverse, List.map_reverse]
    exact congrArg List.reverse (Block.leftReports_shown shown)
  constructor
  · rw [Engine.finish, closed, List.length_reverse, shown.length_eq]
  · refine ⟨told ++ Engine.leftReports (state.stack.closeAbove floor).1, ?_, ?_⟩
    · rw [Log.reportAll_append, ← grown]
      rfl
    · rw [List.filter_append, reports, unclosed, verdict]
      simp [Diagnostic.isOnBlocks, Problem.located, Problem.withLocation, Problem.code,
        List.filter_eq_self]

end

end Balance

end Conditional

namespace Engine

open Conditional (Balance)

theorem processFile_balance (context : Context) (tokens : List Token) (state : State)
    (rooted : state.stack.frames ≠ [])
    (closing : ∀ line ∈ Token.splitLines tokens,
      DirectiveLine.ofLine? line = none → Call.Closing line)
    (stays : ∀ name ∈ DirectiveLine.names (Token.splitLines tokens),
      Directive.ofName name.text ≠ .inclusion) :
    let balance := Balance.ofNames (DirectiveLine.names (Token.splitLines tokens))
    (context.processFile tokens state).2 = .ok balance.blocks.length ∧
      ∃ told, (context.processFile tokens state).1.log = state.log.reportAll told ∧
        told.filter Diagnostic.isOnBlocks = balance.verdict := by
  have outer := state.stack.length_rooted rooted
  obtain ⟨after, paged, tracks⟩ := (Balance.tracks_start state).page context state.stack.depth outer
    (Token.splitLines tokens) stays
  have read := context.lines_page state.stack.depth tokens [] state (.inr rfl) closing
  rw [List.append_nil, Context.lines_nil, andThen_pure, paged] at read
  rw [processFile_finish, read]
  exact tracks.finish state.stack.depth outer

theorem blocks_tracked_alike (context other : Context) (tokens : List Token) (state second : State)
    (rooted : state.stack.frames ≠ []) (secondRooted : second.stack.frames ≠ [])
    (closing : ∀ line ∈ Token.splitLines tokens,
      DirectiveLine.ofLine? line = none → Call.Closing line)
    (stays : ∀ name ∈ DirectiveLine.names (Token.splitLines tokens),
      Directive.ofName name.text ≠ .inclusion) :
    let balance := Balance.ofNames (DirectiveLine.names (Token.splitLines tokens))
    (context.processFile tokens state).2 = .ok balance.blocks.length ∧
      (other.processFile tokens second).2 = .ok balance.blocks.length ∧
      ∃ told others, (context.processFile tokens state).1.log = state.log.reportAll told ∧
        (other.processFile tokens second).1.log = second.log.reportAll others ∧
        told.filter Diagnostic.isOnBlocks = balance.verdict ∧
        others.filter Diagnostic.isOnBlocks = balance.verdict := by
  obtain ⟨left, told, grown, reports⟩ := processFile_balance context tokens state rooted closing stays
  obtain ⟨alsoLeft, others, alsoGrown, alsoReports⟩ :=
    processFile_balance other tokens second secondRooted closing stays
  exact ⟨left, alsoLeft, told, others, grown, alsoGrown, reports, alsoReports⟩

namespace BalanceSample

def tokens : List Token :=
  (lex "b.c".toList "#ifdef A\n#else\nA (x)\n#else\n#endif\n#endif\n#ifndef\n".toList).tokens

def skipped : State :=
  { State.initial with
    macros := MacroTable.empty.define ⟨.spelled .name "A", none, []⟩
    stack := ⟨[⟨.waiting, false, some (.spelled .name "ifdef")⟩, .root]⟩ }

end BalanceSample

theorem blocks_tracked_alike_sample :
    let context := within ⟨.default, MemoryFiles.empty.loader, .fromOne⟩ []
    let read := context.processFile BalanceSample.tokens .initial
    let skipped := context.processFile BalanceSample.tokens BalanceSample.skipped
    let verdict := (Balance.ofNames (DirectiveLine.names
      (Token.splitLines BalanceSample.tokens))).verdict
    verdict.map (·.message) = ["#else after #else", "#endif without #ifdef",
        "conditional block not closed (missing #endif)"] ∧
      read.2 = .ok 1 ∧ skipped.2 = .ok 1 ∧
      ∃ told others, read.1.log = State.initial.log.reportAll told ∧
        skipped.1.log = BalanceSample.skipped.log.reportAll others ∧
        told.filter Diagnostic.isOnBlocks = verdict ∧
        others.filter Diagnostic.isOnBlocks = verdict := by
  intro context read skipped verdict
  have balanced : ∀ line ∈ Token.splitLines BalanceSample.tokens,
      DirectiveLine.ofLine? line = none → Call.closesAll 0 line = true := by decide +kernel
  have counted : (Balance.ofNames (DirectiveLine.names
      (Token.splitLines BalanceSample.tokens))).blocks.length = 1 := by decide +kernel
  obtain ⟨left, alsoLeft, logs⟩ := blocks_tracked_alike context context BalanceSample.tokens .initial
    BalanceSample.skipped (by decide) (by decide)
    (fun line member plain => ⟨0, balanced line member plain⟩) (by decide +kernel)
  exact ⟨by decide +kernel, counted ▸ left, counted ▸ alsoLeft, logs⟩

end Engine

end CPreprocessor
