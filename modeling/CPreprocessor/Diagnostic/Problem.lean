import CPreprocessor.Diagnostic.Basic
import CPreprocessor.Conditional.Misuse

/-!
Everything that lexing and preprocessing report, by cause. Level, code and wording are decided
here and nowhere else.
-/

set_option autoImplicit false

namespace CPreprocessor

inductive Problem where
  | unterminatedComment
  | missingMacroName (directive : Text)
  | missingParameterName
  | duplicateParameter (name : Text)
  | malformedParameterList
  | missingIncludeOperand
  | emptyIncludeName
  | unterminatedQuotedName
  | unterminatedAngleName
  | malformedIncludeName
  | unsupportedIf
  | unsupportedElif
  | misplacedConditional (misuse : Conditional.Misuse)
  | unknownDirective (name : Text)
  | unterminatedConditional
  | wrongArity (name : Text) (given expected : Nat)
  | unterminatedCall (name : Text)
  | includeNotFound (path : Text) (reason : String)
  | systemIncludeNotFound (path : Text) (fatal : Bool)
  | recursiveInclude (path : Text)
  | nestedTooDeep (limit : Nat) (path : Text)
  | invalidMacroName (name : Text)
deriving DecidableEq, Repr

namespace Problem

def level : Problem → Level
  | .unknownDirective _ => .warning
  | .systemIncludeNotFound _ fatal => if fatal then .error else .warning
  | _ => .error

def code : Problem → Code
  | .unterminatedComment => .unterminatedComment
  | .missingMacroName _ => .directiveSyntax
  | .missingParameterName => .directiveSyntax
  | .duplicateParameter _ => .directiveSyntax
  | .malformedParameterList => .directiveSyntax
  | .missingIncludeOperand => .directiveSyntax
  | .emptyIncludeName => .directiveSyntax
  | .unterminatedQuotedName => .directiveSyntax
  | .unterminatedAngleName => .directiveSyntax
  | .malformedIncludeName => .directiveSyntax
  | .unsupportedIf => .unsupportedDirective
  | .unsupportedElif => .unsupportedDirective
  | .misplacedConditional _ => .unbalancedConditional
  | .unknownDirective _ => .unknownDirective
  | .unterminatedConditional => .unterminatedConditional
  | .wrongArity _ _ _ => .macroArity
  | .unterminatedCall _ => .unterminatedMacroCall
  | .includeNotFound _ _ => .includeNotFound
  | .systemIncludeNotFound _ _ => .includeNotFound
  | .recursiveInclude _ => .recursiveInclude
  | .nestedTooDeep _ _ => .recursiveInclude
  | .invalidMacroName _ => .directiveSyntax

def message : Problem → String
  | .unterminatedComment => "unexpected end of file in block comment"
  | .missingMacroName directive => "expected macro name after #" ++ String.ofList directive
  | .missingParameterName => "expected parameter name in macro parameter list"
  | .duplicateParameter name => "duplicate macro parameter '" ++ String.ofList name ++ "'"
  | .malformedParameterList => "expected ',' or ')' in macro parameter list"
  | .missingIncludeOperand => "expected \"file\" or <file> after #include"
  | .emptyIncludeName => "empty file name in #include"
  | .unterminatedQuotedName => "missing terminating '\"' in #include"
  | .unterminatedAngleName => "missing terminating '>' in #include"
  | .malformedIncludeName => "malformed file name in #include"
  | .unsupportedIf => "#if is not supported; the block is skipped"
  | .unsupportedElif => "#elif is not supported; the rest of the block is skipped"
  | .misplacedConditional misuse => misuse.message
  | .unknownDirective name => "unknown directive '#" ++ String.ofList name ++ "' ignored"
  | .unterminatedConditional => "conditional block not closed (missing #endif)"
  | .wrongArity name given expected =>
      "macro '" ++ String.ofList name ++ "' called with " ++ toString given ++
        " argument(s), expected " ++ toString expected
  | .unterminatedCall name => "unterminated call to macro '" ++ String.ofList name ++ "'"
  | .includeNotFound path reason =>
      "cannot open include file '" ++ String.ofList path ++ "': " ++ reason
  | .systemIncludeNotFound path _ => "system include <" ++ String.ofList path ++ "> not found"
  | .recursiveInclude path => "'" ++ String.ofList path ++ "' includes itself; skipped"
  | .nestedTooDeep limit path =>
      "#include nested deeper than " ++ toString limit ++ "; '" ++ String.ofList path ++
        "' skipped"
  | .invalidMacroName name => "invalid macro name '" ++ String.ofList name ++ "'"

def withLocation (problem : Problem) (location : Option Location) : Diagnostic :=
  ⟨problem.level, problem.message, location, some problem.code⟩

def located (problem : Problem) (location : Location) : Diagnostic :=
  problem.withLocation (some location)

def unlocated (problem : Problem) : Diagnostic := problem.withLocation none

end Problem

end CPreprocessor
