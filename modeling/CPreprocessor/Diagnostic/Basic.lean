import CPreprocessor.Source.File

/-!
Diagnostics: what was found, how grave it is, where, and under which code. A log keeps them in the
order in which they were reported.
-/

set_option autoImplicit false

namespace CPreprocessor

structure Code where
  series : String
  number : Nat
deriving DecidableEq, Repr

namespace Code

def render (code : Code) : String :=
  let digits := toString code.number
  code.series ++ String.ofList (List.replicate (4 - digits.length) '0') ++ digits

def describe (code : Code) : String := "DiagnosticCode(" ++ code.render ++ ")"

def unterminatedComment : Code := ⟨"E", 101⟩
def directiveSyntax : Code := ⟨"E", 201⟩
def unbalancedConditional : Code := ⟨"E", 202⟩
def unsupportedDirective : Code := ⟨"E", 203⟩
def unknownDirective : Code := ⟨"W", 204⟩
def unterminatedConditional : Code := ⟨"E", 205⟩
def macroArity : Code := ⟨"E", 301⟩
def unterminatedMacroCall : Code := ⟨"E", 302⟩
def includeNotFound : Code := ⟨"E", 401⟩
def recursiveInclude : Code := ⟨"E", 402⟩

end Code

inductive Level where
  | error
  | warning
deriving DecidableEq, Repr

def Level.render : Level → String
  | .error => "error"
  | .warning => "warning"

structure Diagnostic where
  level : Level
  message : String
  location : Option Location
  code : Option Code
deriving DecidableEq, Repr

def Diagnostic.render (diagnostic : Diagnostic) : String :=
  let place :=
    match diagnostic.location with
    | some location => location.render ++ ": "
    | none => ""
  place ++ diagnostic.level.render ++ ": " ++ diagnostic.message

structure Log where
  entries : Array Diagnostic
deriving DecidableEq, Repr

namespace Log

def empty : Log := ⟨#[]⟩

def report (log : Log) (diagnostic : Diagnostic) : Log := ⟨log.entries.push diagnostic⟩

def reportAll (log : Log) (diagnostics : List Diagnostic) : Log := ⟨log.entries ++ diagnostics⟩

@[simp] theorem reportAll_nil (log : Log) : log.reportAll [] = log := by
  simp [reportAll]

@[simp] theorem reportAll_append (log : Log) (first second : List Diagnostic) :
    log.reportAll (first ++ second) = (log.reportAll first).reportAll second := by
  rw [reportAll, reportAll, reportAll]
  congr 1
  apply Array.ext'
  simp [List.append_assoc]

@[simp] theorem entries_reportAll (log : Log) (diagnostics : List Diagnostic) :
    (log.reportAll diagnostics).entries.toList = log.entries.toList ++ diagnostics := by
  simp [reportAll]

@[simp] theorem entries_report (log : Log) (diagnostic : Diagnostic) :
    (log.report diagnostic).entries.toList = log.entries.toList ++ [diagnostic] := by
  simp [report]

theorem report_eq (log : Log) (diagnostic : Diagnostic) :
    log.report diagnostic = log.reportAll [diagnostic] := by
  simp [report, reportAll]

def count (log : Log) (level : Level) : Nat :=
  (log.entries.toList.filter fun diagnostic => diagnostic.level == level).length

def hasErrors (log : Log) : Bool :=
  log.entries.toList.any fun diagnostic => diagnostic.level == .error

def hasCode (log : Log) (code : Code) : Bool :=
  log.entries.toList.any fun diagnostic => diagnostic.code == some code

def render (log : Log) : String :=
  String.join (log.entries.toList.map fun diagnostic => diagnostic.render ++ "\n")

end Log

end CPreprocessor
