import CPreprocessor.Conditional.Misuse
import CPreprocessor.Lexing.Token

/-!
The stack of open conditional blocks over a root frame that is always active. A frame waits for its
branch, is active, or has had its branch; it never goes back. Operations that change or close
frames take a floor, the number of frames that belong to outer files and are out of reach.
-/

set_option autoImplicit false

namespace CPreprocessor.Conditional

inductive FrameState where
  | active
  | waiting
  | taken
deriving DecidableEq, Repr

namespace FrameState

def all : List FrameState := [.active, .waiting, .taken]

def isActive (state : FrameState) : Bool := state == .active

def afterElse : FrameState → FrameState
  | .waiting => .active
  | .active => .taken
  | .taken => .taken

end FrameState

-- The opener is the directive name that opened the block; only the root has none.
structure Frame where
  state : FrameState
  sawElse : Bool
  opener : Option Token
deriving DecidableEq, Repr

def Frame.root : Frame := ⟨.active, false, none⟩

-- Innermost frame first, the root last.
structure Stack where
  frames : List Frame
deriving DecidableEq, Repr

namespace Stack

def empty : Stack := ⟨[.root]⟩

def depth (stack : Stack) : Nat := stack.frames.length - 1

def top (stack : Stack) : FrameState :=
  match stack.frames with
  | [] => .active
  | frame :: _ => frame.state

def isActive (stack : Stack) : Bool := stack.top.isActive

def pushState (stack : Stack) (state : FrameState) (opener : Token) : Stack :=
  ⟨⟨state, false, some opener⟩ :: stack.frames⟩

/-- Opens a block whose condition has a truth value. In a block that is not active it never
becomes active. -/
def push (stack : Stack) (condition : Bool) (opener : Token) : Stack :=
  stack.pushState
    (if !stack.isActive then .taken else if condition then .active else .waiting) opener

def pushSuppressed (stack : Stack) (opener : Token) : Stack := stack.pushState .taken opener

def topAbove? (stack : Stack) (floor : Nat) : Option (Frame × List Frame) :=
  if floor < stack.depth then
    match stack.frames with
    | [] => none
    | frame :: below => some (frame, below)
  else none

def flipElse (stack : Stack) (floor : Nat) : Except Misuse FrameState × Stack :=
  match stack.topAbove? floor with
  | none => (.error .elseWithoutIf, stack)
  | some (frame, below) =>
      if frame.sawElse then (.error .duplicateElse, stack)
      else
        let state := frame.state.afterElse
        (.ok state, ⟨{ frame with state := state, sawElse := true } :: below⟩)

def suppress (stack : Stack) (floor : Nat) : Except Misuse FrameState × Stack :=
  match stack.topAbove? floor with
  | none => (.error .elifWithoutIf, stack)
  | some (frame, below) => (.ok frame.state, ⟨{ frame with state := .taken } :: below⟩)

def pop (stack : Stack) (floor : Nat) : Except Misuse Frame × Stack :=
  match stack.topAbove? floor with
  | none => (.error .endifWithoutIf, stack)
  | some (frame, below) => (.ok frame, ⟨below⟩)

/-- Closes every frame above the floor; gives them outermost first. -/
def closeAbove (stack : Stack) (floor : Nat) : List Frame × Stack :=
  let extra := stack.depth - floor
  ((stack.frames.take extra).reverse, ⟨stack.frames.drop extra⟩)

end Stack

end CPreprocessor.Conditional
