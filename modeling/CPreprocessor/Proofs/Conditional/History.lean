import Mathlib.Data.List.Chain
import CPreprocessor.Engine.Effect

/-!
How the stack of conditional blocks changes. An operation opens a frame, moves the innermost one on
or closes frames, and a misuse changes nothing. A frame stores its own state only; that no frame is
active inside one that is not, and that a frame never goes back, holds over every history.
-/

set_option autoImplicit false

namespace CPreprocessor

namespace Conditional

def FrameState.rank : FrameState → Nat
  | .waiting => 0
  | .active => 1
  | .taken => 2

structure Frame.Advances (before after : Frame) : Prop where
  opener : after.opener = before.opener
  state : before.state.rank ≤ after.state.rank
  sawElse : before.sawElse = true → after.sawElse = true

theorem Frame.advances_refl (frame : Frame) : frame.Advances frame :=
  ⟨rfl, Nat.le_refl _, id⟩

theorem Frame.Advances.trans {first second third : Frame} (left : first.Advances second)
    (right : second.Advances third) : first.Advances third :=
  ⟨right.opener.trans left.opener, Nat.le_trans left.state right.state,
    right.sawElse ∘ left.sawElse⟩

theorem FrameState.rank_afterElse (state : FrameState) :
    state.rank ≤ state.afterElse.rank ∧ state.afterElse ≠ .waiting := by
  cases state <;> decide

theorem FrameState.active_between (early state late : FrameState) (begins : early = .active)
    (ends : late = .active) (rose : early.rank ≤ state.rank) (rises : state.rank ≤ late.rank) :
    state = .active := by
  subst begins ends
  cases state with
  | active => rfl
  | waiting => exact absurd rose (by decide)
  | taken => exact absurd rises (by decide)

theorem FrameState.rank_le_taken (state : FrameState) : state.rank ≤ FrameState.taken.rank := by
  cases state <;> decide

namespace Stack

theorem length_rooted (stack : Stack) (rooted : stack.frames ≠ []) :
    stack.frames.length = stack.depth + 1 := by
  have some := List.length_pos_of_ne_nil rooted
  rw [depth]
  omega

inductive Moves (floor : Nat) : Stack → Stack → Prop
  | same (stack : Stack) : Moves floor stack stack
  | opened (state : FrameState) (opener : Token) (frames : List Frame)
      (nested : state ≠ .taken → isActive ⟨frames⟩ = true) :
      Moves floor ⟨frames⟩ ⟨⟨state, false, some opener⟩ :: frames⟩
  | changed (frame next : Frame) (below : List Frame) (above : floor < below.length)
      (advances : frame.Advances next) (settled : next.state ≠ .waiting) :
      Moves floor ⟨frame :: below⟩ ⟨next :: below⟩
  | closed (frame : Frame) (below : List Frame) (above : floor < below.length) :
      Moves floor ⟨frame :: below⟩ ⟨below⟩

theorem push_moves (stack : Stack) (floor : Nat) (condition : Bool) (opener : Token) :
    Moves floor stack (stack.push condition opener) := by
  apply Moves.opened
  intro alive
  by_contra dead
  exact alive (by simp [dead])

theorem pushSuppressed_moves (stack : Stack) (floor : Nat) (opener : Token) :
    Moves floor stack (stack.pushSuppressed opener) :=
  .opened .taken opener stack.frames fun alive => absurd rfl alive

theorem topAbove_some (stack : Stack) (floor : Nat) (frame : Frame) (below : List Frame)
    (found : stack.topAbove? floor = some (frame, below)) :
    stack = ⟨frame :: below⟩ ∧ floor < below.length := by
  obtain ⟨frames⟩ := stack
  rw [topAbove?] at found
  by_cases above : floor < depth ⟨frames⟩
  · rw [if_pos above] at found
    cases frames with
    | nil => cases found
    | cons top rest =>
        cases found
        exact ⟨rfl, above⟩
  · rw [if_neg above] at found
    cases found

theorem suppress_moves (stack : Stack) (floor : Nat) :
    Moves floor stack (stack.suppress floor).2 := by
  rw [suppress]
  cases found : stack.topAbove? floor with
  | none => exact .same stack
  | some top =>
      obtain ⟨rfl, above⟩ := topAbove_some stack floor top.1 top.2 found
      exact .changed _ _ _ above ⟨rfl, FrameState.rank_le_taken _, id⟩ (by simp)

theorem flipElse_moves (stack : Stack) (floor : Nat) :
    Moves floor stack (stack.flipElse floor).2 := by
  rw [flipElse]
  cases found : stack.topAbove? floor with
  | none => exact .same stack
  | some top =>
      obtain ⟨rfl, above⟩ := topAbove_some stack floor top.1 top.2 found
      dsimp only
      by_cases again : top.1.sawElse = true
      · rw [if_pos again]
        exact .same _
      · rw [if_neg again]
        obtain ⟨order, settled⟩ := FrameState.rank_afterElse top.1.state
        exact .changed _ _ _ above ⟨rfl, order, fun _ => rfl⟩ settled

theorem pop_moves (stack : Stack) (floor : Nat) : Moves floor stack (stack.pop floor).2 := by
  rw [pop]
  cases found : stack.topAbove? floor with
  | none => exact .same stack
  | some top =>
      obtain ⟨rfl, above⟩ := topAbove_some stack floor top.1 top.2 found
      exact .closed _ _ above

structure Sound (stack : Stack) : Prop where
  root : stack.frames.getLast? = some .root
  openers : ∀ frame ∈ stack.frames.dropLast, frame.opener.isSome = true
  nested : stack.frames.IsChain fun inner outer => inner.state ≠ .taken → outer.state = .active
  waiting : ∀ frame ∈ stack.frames, frame.state = .waiting → frame.sawElse = false

theorem sound_empty : Sound empty :=
  ⟨rfl, by simp [empty], .singleton _, by simp [empty, Frame.root]⟩

theorem sound_cons (frame outer : Frame) (rest : List Frame) :
    Sound ⟨frame :: outer :: rest⟩ ↔
      Sound ⟨outer :: rest⟩ ∧ frame.opener.isSome = true ∧
        (frame.state ≠ .taken → outer.state = .active) ∧
        (frame.state = .waiting → frame.sawElse = false) := by
  constructor
  · intro sound
    obtain ⟨here, nested⟩ := List.isChain_cons_cons.mp sound.nested
    refine ⟨⟨?_, ?_, nested, ?_⟩, sound.openers frame List.mem_cons_self, here,
      sound.waiting frame List.mem_cons_self⟩
    · have root := sound.root
      rwa [List.getLast?_cons_cons] at root
    · exact fun other member => sound.openers other (List.mem_cons_of_mem _ member)
    · exact fun other member => sound.waiting other (List.mem_cons_of_mem _ member)
  · rintro ⟨sound, opener, nested, waiting⟩
    refine ⟨?_, ?_, List.isChain_cons_cons.mpr ⟨nested, sound.nested⟩, ?_⟩
    · rw [List.getLast?_cons_cons]
      exact sound.root
    · intro other member
      rcases List.mem_cons.mp member with same | below
      · rw [same]
        exact opener
      · exact sound.openers other below
    · intro other member
      rcases List.mem_cons.mp member with same | below
      · rw [same]
        exact waiting
      · exact sound.waiting other below

theorem sound_filled (stack : Stack) (sound : Sound stack) : stack.frames ≠ [] := by
  intro none
  have root := sound.root
  rw [none] at root
  cases root

theorem moves_sound (floor : Nat) (before after : Stack) (moves : Moves floor before after)
    (sound : Sound before) : Sound after := by
  cases moves with
  | same => exact sound
  | opened state opener frames nested =>
      cases frames with
      | nil => exact absurd rfl (sound_filled _ sound)
      | cons outer rest =>
          refine (sound_cons _ outer rest).mpr ⟨sound, rfl, ?_, fun _ => rfl⟩
          intro alive
          simpa [isActive, top, FrameState.isActive] using nested alive
  | changed frame next below above advances settled =>
      cases below with
      | nil => cases above
      | cons outer rest =>
          obtain ⟨inner, opener, nested, _⟩ := (sound_cons frame outer rest).mp sound
          refine (sound_cons next outer rest).mpr
            ⟨inner, advances.opener ▸ opener, ?_, fun waits => absurd waits settled⟩
          -- A frame that is not taken now was not taken before.
          intro alive
          apply nested
          intro taken
          have order := advances.state
          rw [taken] at order
          cases state : next.state with
          | taken => exact alive state
          | active => rw [state] at order; exact absurd order (by decide)
          | waiting => exact settled state
  | closed frame below above =>
      cases below with
      | nil => cases above
      | cons outer rest => exact ((sound_cons frame outer rest).mp sound).1

theorem sound_drop (frames : List Frame) (count : Nat) (inside : count < frames.length)
    (sound : Sound ⟨frames⟩) : Sound ⟨frames.drop count⟩ := by
  induction count generalizing frames with
  | zero => exact sound
  | succ count ih =>
      match frames with
      | [] => cases inside
      | [_] => simp at inside
      | frame :: outer :: rest =>
          exact ih (outer :: rest) (Nat.lt_of_succ_lt_succ inside)
            ((sound_cons frame outer rest).mp sound).1

theorem closeAbove_sound (stack : Stack) (floor : Nat) (sound : Sound stack) :
    Sound (stack.closeAbove floor).2 := by
  have filled := List.length_pos_iff.mpr (sound_filled stack sound)
  apply sound_drop stack.frames _ _ sound
  rw [depth]
  omega

theorem isActive_iff (stack : Stack) (sound : Sound stack) :
    stack.isActive = true ↔ ∀ frame ∈ stack.frames, frame.state = .active := by
  obtain ⟨frames⟩ := stack
  induction frames with
  | nil => exact absurd rfl (sound_filled _ sound)
  | cons frame below ih =>
      have here : isActive ⟨frame :: below⟩ = true ↔ frame.state = .active := by
        simp [isActive, top, FrameState.isActive]
      rw [here]
      refine ⟨?_, fun all => all frame List.mem_cons_self⟩
      intro active other member
      rcases List.mem_cons.mp member with same | inside
      · rw [same]
        exact active
      · cases below with
        | nil => cases inside
        | cons outer rest =>
            obtain ⟨lower, _, nested, _⟩ := (sound_cons frame outer rest).mp sound
            have outerActive : outer.state = .active := nested (by rw [active]; decide)
            exact (ih lower).mp (by simp [isActive, top, FrameState.isActive, outerActive]) other inside

def level? (stack : Stack) (level : Nat) : Option Frame := stack.frames.reverse[level]?

theorem level_suffix (lower upper : List Frame) (below : lower <:+ upper) (level : Nat) (frame : Frame)
    (found : level? ⟨lower⟩ level = some frame) : level? ⟨upper⟩ level = some frame := by
  obtain ⟨above, same⟩ := below
  have inside := (List.getElem?_eq_some_iff.mp found).1
  rw [level?, ← same, List.reverse_append, List.getElem?_append_left inside]
  exact found

theorem moves_level (floor : Nat) (before after : Stack) (moves : Moves floor before after)
    (level : Nat) (early late : Frame) (was : before.level? level = some early)
    (remains : after.level? level = some late) : early.Advances late := by
  have unmoved : before.level? level = some late → early.Advances late := by
    intro same
    cases was.symm.trans same
    exact early.advances_refl
  cases moves with
  | same => exact unmoved remains
  | opened state opener frames nested =>
      have still := level_suffix frames (⟨state, false, some opener⟩ :: frames)
        (List.suffix_cons _ frames) level early was
      cases still.symm.trans remains
      exact early.advances_refl
  | closed frame below above =>
      exact unmoved (level_suffix below _ (List.suffix_cons frame below) level late remains)
  | changed frame next below above advances settled =>
      rw [level?, List.reverse_cons] at was remains
      by_cases inner : level < below.reverse.length
      · rw [List.getElem?_append_left inner] at was remains
        cases was.symm.trans remains
        exact early.advances_refl
      · have outer := Nat.le_of_not_lt inner
        rw [List.getElem?_append_right outer] at was remains
        obtain ⟨top, same⟩ := List.getElem?_eq_some_iff.mp was
        have here : level - below.reverse.length = 0 := by simpa using top
        rw [here] at was remains
        cases was
        cases remains
        exact advances

end Stack

inductive Operation where
  | push (condition : Bool) (opener : Token)
  | pushSuppressed (opener : Token)
  | flipElse (floor : Nat)
  | suppress (floor : Nat)
  | pop (floor : Nat)
  | closeAbove (floor : Nat)

namespace Stack

def noting {α : Type} (outcome : Except Misuse α × Stack) : Stack × Option Misuse :=
  (outcome.2, match outcome.1 with | .ok _ => none | .error misuse => some misuse)

def perform (stack : Stack) : Operation → Stack × Option Misuse
  | .push condition opener => (stack.push condition opener, none)
  | .pushSuppressed opener => (stack.pushSuppressed opener, none)
  | .flipElse floor => noting (stack.flipElse floor)
  | .suppress floor => noting (stack.suppress floor)
  | .pop floor => noting (stack.pop floor)
  | .closeAbove floor => ((stack.closeAbove floor).2, none)

def after (operations : List Operation) : Stack :=
  operations.foldl (fun stack operation => (stack.perform operation).1) empty

theorem flipElse_misuse (stack : Stack) (floor : Nat) (misuse : Misuse)
    (failed : (stack.flipElse floor).1 = .error misuse) : (stack.flipElse floor).2 = stack := by
  rw [flipElse] at failed ⊢
  cases found : stack.topAbove? floor with
  | none => rfl
  | some top =>
      rw [found] at failed
      dsimp only at failed ⊢
      by_cases again : top.1.sawElse = true
      · rw [if_pos again]
      · rw [if_neg again] at failed
        cases failed

theorem suppress_misuse (stack : Stack) (floor : Nat) (misuse : Misuse)
    (failed : (stack.suppress floor).1 = .error misuse) : (stack.suppress floor).2 = stack := by
  rw [suppress] at failed ⊢
  cases found : stack.topAbove? floor with
  | none => rfl
  | some top =>
      rw [found] at failed
      cases failed

theorem pop_misuse (stack : Stack) (floor : Nat) (misuse : Misuse)
    (failed : (stack.pop floor).1 = .error misuse) : (stack.pop floor).2 = stack := by
  rw [pop] at failed ⊢
  cases found : stack.topAbove? floor with
  | none => rfl
  | some top =>
      rw [found] at failed
      cases failed

theorem noting_misuse {α : Type} (outcome : Except Misuse α × Stack) (misuse : Misuse) :
    (noting outcome).2 = some misuse ↔ outcome.1 = .error misuse := by
  obtain ⟨answer, stack⟩ := outcome
  cases answer <;> simp [noting]

theorem perform_misuse (stack : Stack) (operation : Operation) (misuse : Misuse)
    (failed : (stack.perform operation).2 = some misuse) : (stack.perform operation).1 = stack := by
  cases operation with
  | push condition opener => cases failed
  | pushSuppressed opener => cases failed
  | flipElse floor => exact flipElse_misuse stack floor misuse ((noting_misuse _ _).mp failed)
  | suppress floor => exact suppress_misuse stack floor misuse ((noting_misuse _ _).mp failed)
  | pop floor => exact pop_misuse stack floor misuse ((noting_misuse _ _).mp failed)
  | closeAbove floor => cases failed

theorem perform_moves (stack : Stack) (operation : Operation) :
    (∃ floor, Moves floor stack (stack.perform operation).1) ∨
      ∃ floor, (stack.perform operation).1 = (stack.closeAbove floor).2 := by
  cases operation with
  | push condition opener => exact .inl ⟨0, push_moves stack 0 condition opener⟩
  | pushSuppressed opener => exact .inl ⟨0, pushSuppressed_moves stack 0 opener⟩
  | flipElse floor => exact .inl ⟨floor, flipElse_moves stack floor⟩
  | suppress floor => exact .inl ⟨floor, suppress_moves stack floor⟩
  | pop floor => exact .inl ⟨floor, pop_moves stack floor⟩
  | closeAbove floor => exact .inr ⟨floor, rfl⟩

theorem perform_sound (stack : Stack) (operation : Operation) (sound : Sound stack) :
    Sound (stack.perform operation).1 := by
  rcases perform_moves stack operation with ⟨floor, moves⟩ | ⟨floor, closed⟩
  · exact moves_sound floor _ _ moves sound
  · rw [closed]
    exact closeAbove_sound stack floor sound

theorem perform_level (stack : Stack) (operation : Operation) (level : Nat) (early late : Frame)
    (was : stack.level? level = some early)
    (remains : (stack.perform operation).1.level? level = some late) : early.Advances late := by
  rcases perform_moves stack operation with ⟨floor, moves⟩ | ⟨floor, closed⟩
  · exact moves_level floor _ _ moves level early late was remains
  · rw [closed] at remains
    have same := level_suffix _ stack.frames (List.drop_suffix _ _) level late remains
    cases was.symm.trans same
    exact early.advances_refl

theorem after_take_succ (operations : List Operation) (time : Nat) (operation : Operation)
    (found : operations[time]? = some operation) :
    after (operations.take (time + 1)) =
      ((after (operations.take time)).perform operation).1 := by
  rw [after, List.take_add_one, found, List.foldl_append]
  rfl

theorem after_take_end (operations : List Operation) (time : Nat) (ended : operations[time]? = none) :
    after (operations.take (time + 1)) = after (operations.take time) := by
  rw [List.take_add_one, ended, Option.toList_none, List.append_nil]

theorem after_sound (operations : List Operation) (time : Nat) :
    Sound (after (operations.take time)) := by
  induction time with
  | zero => exact sound_empty
  | succ time ih =>
      cases found : operations[time]? with
      | none => exact after_take_end operations time found ▸ ih
      | some operation =>
          rw [after_take_succ operations time operation found]
          exact perform_sound _ operation ih

def StaysOpen (operations : List Operation) (level first last : Nat) : Prop :=
  ∀ time, first ≤ time → time ≤ last → ∃ frame, (after (operations.take time)).level? level = some frame

-- The induction is on the later time; the frame that was there one step before links the two.
theorem level_advances (operations : List Operation) (level first last : Nat) (ordered : first ≤ last)
    (stays : StaysOpen operations level first last) (early late : Frame)
    (was : (after (operations.take first)).level? level = some early)
    (remains : (after (operations.take last)).level? level = some late) : early.Advances late := by
  induction last, ordered using Nat.le_induction generalizing late with
  | base =>
      cases was.symm.trans remains
      exact early.advances_refl
  | succ last reached ih =>
      obtain ⟨middle, between⟩ := stays last reached (Nat.le_succ last)
      have sofar := ih (fun time from_ upTo => stays time from_ (Nat.le_succ_of_le upTo)) middle between
      cases found : operations[last]? with
      | none =>
          rw [after_take_end operations last found] at remains
          cases between.symm.trans remains
          exact sofar
      | some operation =>
          rw [after_take_succ operations last operation found] at remains
          exact sofar.trans (perform_level _ operation level middle late between remains)

end Stack

end Conditional

@[simp] theorem State.settle_stack {α : Type} (state : State) (name : Token)
    (outcome : Except Conditional.Misuse α × Conditional.Stack) :
    (state.settle name outcome).stack = outcome.2 := by
  obtain ⟨answer, stack⟩ := outcome
  cases answer <;> rfl

theorem State.blocks_perform (state : State) (floor : Nat) (name : Token) :
    (state.suppressBlock floor name).stack = (state.stack.perform (.suppress floor)).1 ∧
      (state.flipBlock floor name).stack = (state.stack.perform (.flipElse floor)).1 ∧
      (state.closeBlock floor name).stack = (state.stack.perform (.pop floor)).1 := by
  refine ⟨?_, state.settle_stack name _, state.settle_stack name _⟩
  rw [suppressBlock, Conditional.Stack.perform]
  rcases state.stack.suppress floor with ⟨misuse | before, stack⟩
  · rfl
  · dsimp only
    split <;> rfl

namespace Conditional.Stack

theorem history_sound (operations : List Operation) :
    (∀ time, (after (operations.take time)).Sound ∧
      ((after (operations.take time)).isActive = true ↔
        ∀ frame ∈ (after (operations.take time)).frames, frame.state = .active)) ∧
    (∀ level first last, first ≤ last → StaysOpen operations level first last →
      ∀ early late, (after (operations.take first)).level? level = some early →
        (after (operations.take last)).level? level = some late →
        early.Advances late ∧
          (early.state = .active → late.state = .active →
            ∀ time frame, first ≤ time → time ≤ last →
              (after (operations.take time)).level? level = some frame → frame.state = .active)) ∧
    (∀ time operation misuse, operations[time]? = some operation →
      ((after (operations.take time)).perform operation).2 = some misuse →
      after (operations.take (time + 1)) = after (operations.take time)) ∧
    ∀ (state : State) floor name,
      (state.suppressBlock floor name).stack = (state.stack.perform (.suppress floor)).1 ∧
        (state.flipBlock floor name).stack = (state.stack.perform (.flipElse floor)).1 ∧
        (state.closeBlock floor name).stack = (state.stack.perform (.pop floor)).1 := by
  refine ⟨?_, ?_, ?_, fun state floor name => state.blocks_perform floor name⟩
  · intro time
    have sound := after_sound operations time
    exact ⟨sound, isActive_iff _ sound⟩
  · intro level first last ordered stays early late was remains
    refine ⟨level_advances operations level first last ordered stays early late was remains, ?_⟩
    intro begins ends time frame from_ upTo found
    have rose := level_advances operations level first time from_
      (fun other low high => stays other low (Nat.le_trans high upTo)) early frame was found
    have rises := level_advances operations level time last upTo
      (fun other low high => stays other (Nat.le_trans from_ low) high) frame late found remains
    exact FrameState.active_between _ _ _ begins ends rose.state rises.state
  · intro time operation misuse found failed
    rw [after_take_succ operations time operation found]
    exact perform_misuse _ operation misuse failed

theorem history_sound_sample :
    let opener := Token.mk ⟨0, .make [] [], [], .empty⟩ .name [] ⟨0, 5⟩ ⟨0, 5⟩
    let operations : List Operation := [.push false opener, .pop 1, .flipElse 0, .flipElse 0]
    StaysOpen operations 1 1 4 ∧
      (after (operations.take 1)).level? 1 = some ⟨.waiting, false, some opener⟩ ∧
      (after (operations.take 4)).level? 1 = some ⟨.active, true, some opener⟩ ∧
      Frame.Advances ⟨.waiting, false, some opener⟩ ⟨.active, true, some opener⟩ ∧
      ((after (operations.take 3)).perform (.flipElse 0)).2 = some .duplicateElse ∧
      after (operations.take 4) = after (operations.take 3) := by
  intro opener operations
  have stays : StaysOpen operations 1 1 4 := by
    intro time from_ upTo
    have each : time = 1 ∨ time = 2 ∨ time = 3 ∨ time = 4 := by omega
    rcases each with rfl | rfl | rfl | rfl <;> exact ⟨_, rfl⟩
  obtain ⟨_, levels, misuses, _⟩ := history_sound operations
  exact ⟨stays, rfl, rfl, (levels 1 1 4 (by decide) stays _ _ rfl rfl).1, rfl,
    misuses 3 _ .duplicateElse rfl rfl⟩

end Conditional.Stack

end CPreprocessor
