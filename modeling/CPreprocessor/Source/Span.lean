set_option autoImplicit false

namespace CPreprocessor

structure Span where
  start : Nat
  stop : Nat
deriving DecidableEq, Repr

namespace Span

def isEmpty (span : Span) : Bool := span.start == span.stop

def length (span : Span) : Nat := span.stop - span.start

def join? (left right : Span) : Option Span :=
  if left.stop = right.start then some ⟨left.start, right.stop⟩ else none

end Span

end CPreprocessor
