import CPreprocessor.Engine.Run

set_option autoImplicit false

namespace CPreprocessor

structure Session where
  environment : Environment
  state : State

namespace Session

def predefinedFile : Text := "<predefined>".toList

def lexPredefined (session : Session) (content : Text) : Lexed × Session :=
  let (lexed, state) := session.state.lexNext session.environment predefinedFile content
  (lexed, { session with state := state })

def addMacro (session : Session) (definition : Macro) : Session :=
  { session with
    state := { session.state with macros := session.state.macros.define definition } }

def define (session : Session) (name body : Text) : Session × Option Failure :=
  if isIdentifier name then
    let (nameText, named) := session.lexPredefined name
    let (bodyText, ready) := named.lexPredefined body
    match nameText.tokens with
    | [] => (session, some (.invalidMacroName name))
    | token :: _ => (ready.addMacro ⟨token, none, Token.trim bodyText.tokens⟩, none)
  else (session, some (.invalidMacroName name))

def removeMacro (session : Session) (name : Text) : Session :=
  { session with
    state := { session.state with macros := session.state.macros.erase name } }

def isDefined (session : Session) (name : Text) : Bool := session.state.macros.contains name

def lookup (session : Session) (name : Text) : Option Macro := session.state.macros.lookup name

def predefine (session : Session) (entry : Text × Text) : Session :=
  match session.define entry.1 entry.2 with
  | (defined, none) => defined
  | (same, some _) =>
      { same with
        state := same.state.reportAll [(Problem.invalidMacroName entry.1).unlocated] }

def start (environment : Environment) : Session :=
  environment.config.defines.foldl predefine ⟨environment, .initial⟩

def run (session : Session) (root : Lexed) : Session × Option Failure :=
  let (state, failure) := Engine.preprocess session.environment root session.state
  ({ session with state := state }, failure)

def outputText (session : Session) : Text := session.state.output.toList.flatMap Token.text

end Session

end CPreprocessor
