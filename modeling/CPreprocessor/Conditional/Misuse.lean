set_option autoImplicit false

namespace CPreprocessor.Conditional

inductive Misuse where
  | elseWithoutIf
  | duplicateElse
  | elifWithoutIf
  | endifWithoutIf
deriving DecidableEq, Repr

def Misuse.message : Misuse → String
  | .elseWithoutIf => "#else without #ifdef"
  | .duplicateElse => "#else after #else"
  | .elifWithoutIf => "#elif without #ifdef"
  | .endifWithoutIf => "#endif without #ifdef"

end CPreprocessor.Conditional
