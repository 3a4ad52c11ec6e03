import CPreprocessor.Proofs.Engine.Balance

/-!
Skipped lines. Whatever they hold, lines that are skipped change nothing, as long as their own
blocks are well nested: the frames of these blocks come and go, and the loader is asked for no path.
-/

set_option autoImplicit false

namespace CPreprocessor

open Conditional (Block Frame Stack)

def Conditional.Block.taken (block : Block) : Frame := ⟨.taken, block.sawElse, some block.opener⟩

-- Every block is closed by its own `#endif` and has one `#else` at most, and no `#else`, `#elif` or
-- `#endif` stands outside a block.
def Conditional.WellNested (names : List Token) : Prop := names.foldlM Block.next [] = .ok []

def State.inside (state : State) (blocks : List Block) : State :=
  { state with stack := ⟨blocks.map Block.taken ++ state.stack.frames⟩ }

namespace Engine

section

variable (context : Context) (floor : Nat) (state : State) (skipped : state.isActive = false)
  (reach : floor ≤ state.stack.depth)
include skipped

theorem inside_inactive (blocks : List Block) : (state.inside blocks).isActive = false := by
  cases blocks with
  | nil => exact skipped
  | cons block blocks => rfl

theorem inside_rooted : state.stack.frames ≠ [] := by
  intro empty
  rw [State.isActive, Stack.isActive, Stack.top, empty] at skipped
  cases skipped

theorem openTest_inside (blocks : List Block) (defined : Bool) (name : Token)
    (operands : List Token) :
    (state.inside blocks).openTest defined name operands = state.inside (⟨name, false⟩ :: blocks) := by
  have inactive := inside_inactive state skipped blocks
  rw [State.openTest]
  cases Operand.macroName? operands with
  | some operand =>
      dsimp only
      rw [Stack.push_inactive _ _ _ inactive]
      rfl
  | none =>
      rw [inactive]
      rfl

include reach

theorem inside_top (block : Block) (blocks : List Block) :
    (state.inside (block :: blocks)).stack.topAbove? floor =
      some (block.taken, (state.inside blocks).stack.frames) := by
  have rooted := state.stack.length_rooted (inside_rooted state skipped)
  have above : floor < (blocks.map Block.taken ++ state.stack.frames).length := by
    rw [List.length_append, rooted]
    omega
  exact Stack.topAbove_cons block.taken _ floor above

theorem obey_inside (blocks next : List Block) (name : Token) (operands : List Token)
    (fits : Block.next blocks name = .ok next) :
    (state.inside blocks).obey floor name operands = state.inside next := by
  have inactive := inside_inactive state skipped blocks
  have top := inside_top floor state skipped reach
  rw [State.obey]
  cases named : Directive.ofName name.text with
  | ifdef =>
      obtain rfl : _ = next := by simpa [Block.next, named] using fits
      exact openTest_inside state skipped blocks true name operands
  | ifndef =>
      obtain rfl : _ = next := by simpa [Block.next, named] using fits
      exact openTest_inside state skipped blocks false name operands
  | ifExpression =>
      obtain rfl : _ = next := by simpa [Block.next, named] using fits
      dsimp only
      rw [State.openUnsupported, inactive]
      rfl
  | elifExpression =>
      cases blocks with
      | nil => simp [Block.next, named] at fits
      | cons block blocks =>
          obtain rfl : _ = next := by simpa [Block.next, named] using fits
          dsimp only
          rw [State.suppressBlock, Stack.suppress, top]
          rfl
  | elseBranch =>
      cases blocks with
      | nil => simp [Block.next, named] at fits
      | cons block blocks =>
          obtain ⟨opener, sawElse⟩ := block
          cases sawElse with
          | true => simp [Block.next, named] at fits
          | false =>
              obtain rfl : _ = next := by simpa [Block.next, named] using fits
              dsimp only
              rw [State.flipBlock, Stack.flipElse, top]
              rfl
  | endif =>
      cases blocks with
      | nil => simp [Block.next, named] at fits
      | cons block blocks =>
          obtain rfl : _ = next := by simpa [Block.next, named] using fits
          dsimp only
          rw [State.closeBlock, Stack.pop, top]
          rfl
  | define | undef | inclusion | unknown =>
      obtain rfl : _ = next := by simpa [Block.next, named] using fits
      simp [inactive]

theorem line_inside (line : List Token) (blocks next : List Block)
    (fits : (DirectiveLine.names [line]).foldlM Block.next blocks = .ok next) :
    context.line floor line (state.inside blocks) = (state.inside next, none) := by
  have inactive := inside_inactive state skipped blocks
  rw [Context.line]
  cases written : DirectiveLine.ofLine? line with
  | none =>
      rw [DirectiveLine.names_text line [] written] at fits
      cases fits
      simp [inactive]
  | some found =>
      rw [DirectiveLine.names_directive line [] found written, List.foldlM_cons] at fits
      have passed : Block.next blocks found.name = .ok next := by
        simpa [DirectiveLine.names] using fits
      dsimp only
      rw [context.directive_obey floor _ _ _ (by simp [State.includes, inactive]),
        obey_inside floor state skipped reach blocks next found.name found.operands passed]

-- The induction is on the lines; the invariant is which of their own blocks are open.
theorem lines_inside (block rest : List Token) (blocks final : List Block)
    (fits : Token.Ended block ∨ rest = [])
    (nested : (DirectiveLine.names (Token.splitLines block)).foldlM Block.next blocks = .ok final) :
    context.lines floor true (block ++ rest) (state.inside blocks) =
      context.lines floor true rest (state.inside final) := by
  induction block using Token.lines_induction generalizing blocks with
  | nil =>
      cases nested
      rfl
  | last body unbroken filled =>
      have atEnd := Token.rest_of_unended body rest unbroken filled fits
      rw [Token.splitLines_last body unbroken filled] at nested
      rw [atEnd, List.append_nil, context.lines_last floor body _ unbroken, context.lines_nil floor,
        line_inside context floor state skipped reach body blocks final nested]
  | line body newline later unbroken ends ih =>
      rw [Token.splitLines_line body newline later unbroken ends, DirectiveLine.names_cons,
        List.foldlM_append] at nested
      cases first : (DirectiveLine.names [body ++ [newline]]).foldlM Block.next blocks with
      | error misuse =>
          rw [first] at nested
          cases nested
      | ok middle =>
          rw [first] at nested
          have inactive := inside_inactive state skipped blocks
          rw [List.append_assoc, List.cons_append, context.lines_line floor body newline
            (later ++ rest) _ unbroken ends (by simp [inactive]),
            line_inside context floor state skipped reach _ blocks middle first]
          exact ih middle (fits.imp_left (Token.ended_rest body newline later)) nested

end

theorem skipped_inert (floor : Nat) (block : List Token) (state : State)
    (skipped : state.isActive = false) (reach : floor ≤ state.stack.depth)
    (nested : Conditional.WellNested (DirectiveLine.names (Token.splitLines block))) :
    (∀ context : Context,
      let run := context.lines floor true block state
      run = (state, none) ∧ run.1.reads = state.reads) ∧
      (∀ (context : Context) (rest : List Token), Token.Ended block →
        context.lines floor true (block ++ rest) state = context.lines floor true rest state) ∧
      ∀ (environment : Environment) (files : List Path),
        let run := Machine.lines environment
          (fun path text inner _ _ => Machine.processIncluded environment path text inner)
          floor true block ⟨state, files, []⟩ rfl
        run.expander = ⟨state, files, []⟩ ∧ run.expander.state.reads = state.reads ∧
          run.result = none := by
  have whole (context : Context) : context.lines floor true block state = (state, none) := by
    have inert := lines_inside context floor state skipped reach block [] [] [] (.inr rfl) nested
    rw [List.append_nil, context.lines_nil floor] at inert
    exact inert
  refine ⟨fun context => ⟨whole context, by rw [whole]⟩, ?_, ?_⟩
  · intro context rest ended
    exact lines_inside context floor state skipped reach block rest [] [] (.inl ended) nested
  · intro environment files
    have follows := Machine.lines_follows environment
      (fun path text inner _ _ => Machine.processIncluded environment path text inner)
      (fun path text inner here _ guard =>
        here ▸ Machine.processIncluded_follows environment path text inner guard)
      floor true block ⟨state, files, []⟩ rfl rfl
    rw [whole] at follows
    exact ⟨follows.expander, congrArg (·.state.reads) follows.expander, follows.result⟩

namespace SuppressionSample

def block : List Token :=
  (lex "s.c".toList ("#define A 1\nA(((\n#ifdef\n#elif x\n#else\n#include \"gone.h\"\n" ++
    "#elif\n#endif\n#include \"gone.h\"\n#bogus\n# 3\n)").toList).tokens

end SuppressionSample

-- The same lines ask for a file where they are not skipped.
theorem skipped_inert_sample :
    Conditional.WellNested (DirectiveLine.names (Token.splitLines SuppressionSample.block)) ∧
      (∀ context : Context,
        let run := context.lines 0 true SuppressionSample.block BalanceSample.skipped
        run = (BalanceSample.skipped, none) ∧ run.1.reads = #[]) ∧
      ((within ⟨.default, MemoryFiles.empty.loader, .fromOne⟩ []).lines 0 true
        SuppressionSample.block .initial).1.reads = #[⟨"gone.h".toList⟩] := by
  have nested : Conditional.WellNested
      (DirectiveLine.names (Token.splitLines SuppressionSample.block)) := by
    rw [Conditional.WellNested]
    decide +kernel
  refine ⟨nested, (skipped_inert 0 SuppressionSample.block BalanceSample.skipped (by decide)
    (by decide) nested).1, ?_⟩
  decide +kernel

end Engine

end CPreprocessor
