import CPreprocessor.Config.Basic
import CPreprocessor.Files.Tree
import CPreprocessor.Toml.Document
import CPreprocessor.Toml.Writer

/-!
Configurations in TOML. Keys that mean nothing here are ignored and missing ones take their
defaults, but a key of the wrong type is refused, and so is a defined name that is no identifier.
-/

set_option autoImplicit false

namespace CPreprocessor

inductive ConfigError where
  | unreadable (path : Path) (reason : String)
  | malformed
  | unwritable
  | invalidDefineName (name : Text)
deriving DecidableEq, Repr

def ConfigError.message : ConfigError → String
  | .unreadable path reason =>
      "failed to read config file " ++ String.ofList path.text ++ ": " ++ reason
  | .malformed => "invalid config"
  | .unwritable => "failed to serialize config"
  | .invalidDefineName name => "invalid macro name '" ++ String.ofList name ++ "' in defines"

namespace Config

open Toml (Value)

def string? : Value → Option Text
  | .string text => some text
  | _ => none

def paths? : Value → Option (List Path)
  | .array items => items.mapM fun item => (string? item).map Path.mk
  | _ => none

def boolean? : Value → Option Bool
  | .boolean value => some value
  | _ => none

def size? : Value → Option Nat
  | .integer value => if 0 ≤ value then some value.toNat else none
  | _ => none

-- The one key that a date has when it is read as a table.
def dateKey : Text := "$__toml_private_datetime".toList

def defines? : Value → Option (Entries Text)
  | .table _ entries => entries.mapM fun (name, value) => (string? value).map (name, ·)
  | .datetime text => some [(dateKey, text)]
  | _ => none

def keyOr {α : Type} (table : Toml.Table) (key : String) (missing : α) (read : Value → Option α) :
    Option α :=
  match table.find? key.toList with
  | some value => read value
  | none => some missing

def ofTable? (table : Toml.Table) : Option Config := do
  let directories ← keyOr table "system_include_dirs" default.systemIncludeDirs paths?
  let fatal ← keyOr table "missing_system_include_is_fatal" default.missingSystemIncludeIsFatal
    boolean?
  let depth ← keyOr table "max_include_depth" default.maxIncludeDepth size?
  let defines ← keyOr table "defines" default.defines defines?
  some ⟨directories, fatal, depth, defines⟩

def validate (config : Config) : Except ConfigError Unit :=
  match config.invalidDefine? with
  | some name => .error (.invalidDefineName name)
  | none => .ok ()

def ofToml (text : Text) : Except ConfigError Config :=
  match (Toml.read? text).bind ofTable? with
  | none => .error .malformed
  | some config =>
      match config.validate with
      | .ok () => .ok config
      | .error error => .error error

def load (tree : FileTree) (path : Path) : Except ConfigError Config :=
  match tree.read path with
  | .error error => .error (.unreadable path error.message)
  | .ok bytes =>
      match Utf8.decode? bytes with
      | none => .error (.unreadable path "stream did not contain valid UTF-8")
      | some text => ofToml text

def writeBoolean (value : Bool) : Text := (if value then "true" else "false").toList

-- Integers are written up to 2 ^ 63 - 1.
def toToml (config : Config) : Except ConfigError Text :=
  if config.maxIncludeDepth < Nat.pow 2 63 then
    .ok <|
      Toml.writeLine "system_include_dirs".toList
        (Toml.writeArray (config.systemIncludeDirs.map fun path => Toml.writeString path.text)) ++
      Toml.writeLine "missing_system_include_is_fatal".toList
        (writeBoolean config.missingSystemIncludeIsFatal) ++
      Toml.writeLine "max_include_depth".toList (toString config.maxIncludeDepth).toList ++
      "\n[defines]\n".toList ++
      config.defines.flatMap fun (name, body) =>
        Toml.writeLine (Toml.writeKey name) (Toml.writeString body)
  else .error .unwritable

def sameEntries (left right : Entries Text) : Bool :=
  left.length == right.length && left.all fun entry => right.lookup entry.1 == some entry.2

/-- Configurations are alike if their directories are the same files in the same order and their
definitions agree, in whatever order. -/
def isLike (left right : Config) : Bool :=
  left.systemIncludeDirs.map Path.components == right.systemIncludeDirs.map Path.components &&
    left.missingSystemIncludeIsFatal == right.missingSystemIncludeIsFatal &&
    left.maxIncludeDepth == right.maxIncludeDepth &&
    sameEntries left.defines right.defines

def survivesToml (config : Config) : Except ConfigError Bool :=
  match config.toToml with
  | .error error => .error error
  | .ok text =>
      match ofToml text with
      | .error error => .error error
      | .ok again => .ok (again.isLike config)

end Config

end CPreprocessor
