import CPreprocessor.Toml.Value

/-!
Written forms of TOML keys, strings and arrays. A string takes the plainest form that can hold it.
-/

set_option autoImplicit false

namespace CPreprocessor.Toml

structure Features where
  backslash : Bool
  newline : Bool
  control : Bool
  doubleQuote : Bool
  singleQuote : Bool
  doubleRun : Nat
  singleRun : Nat
deriving DecidableEq, Repr

def isControl (c : Char) : Bool :=
  (c.toNat < 0x20 && c != '\t' && c != '\n') || c.toNat == 0x7F

def longestRun (wanted : Char) (current : Nat) : Text → Nat
  | [] => current
  | c :: rest =>
      if c = wanted then longestRun wanted (current + 1) rest
      else max current (longestRun wanted 0 rest)

def Features.of (text : Text) : Features where
  backslash := text.contains '\\'
  newline := text.contains '\n'
  control := text.any isControl
  doubleQuote := text.contains '"'
  singleQuote := text.contains '\''
  doubleRun := longestRun '"' 0 text
  singleRun := longestRun '\'' 0 text

inductive Form where
  | basic
  | literal
  | multiBasic
  | multiLiteral
deriving DecidableEq, Repr

def Form.ofValue (text : Text) : Form :=
  let f := Features.of text
  if !f.backslash && !f.doubleQuote && !f.newline && !f.control then .basic
  else if !f.control && !f.singleQuote && !f.newline then .literal
  else if !f.control && !f.backslash && f.doubleRun < 3 then .multiBasic
  else if !f.control && f.singleRun < 3 then .multiLiteral
  else if f.newline then .multiBasic
  else .basic

def hexEscape (c : Char) : Text :=
  let digits := (Nat.toDigits 16 c.toNat).map Char.toUpper
  ['\\', 'u'] ++ List.replicate (4 - digits.length) '0' ++ digits

def escape? (multi : Bool) (c : Char) : Option Text :=
  if c = '\x08' then some ['\\', 'b']
  else if c = '\t' then some ['\\', 't']
  else if c = '\n' then if multi then none else some ['\\', 'n']
  else if c = '\x0c' then some ['\\', 'f']
  else if c = '\r' then some ['\\', 'r']
  else if c = '\\' then some ['\\', '\\']
  else if isControl c then some (hexEscape c)
  else none

-- Escapes a text for double quotes. A run of `allowed` quotes may stand unescaped; `run` of them
-- have just been written.
def escapeWith (multi : Bool) (allowed run : Nat) : Text → Text
  | [] => []
  | c :: rest =>
      if c = '"' then
        if run < allowed then '"' :: escapeWith multi allowed (run + 1) rest
        else '\\' :: '"' :: escapeWith multi allowed 0 rest
      else
        match escape? multi c with
        | some escaped => escaped ++ escapeWith multi allowed 0 rest
        | none => c :: escapeWith multi allowed 0 rest

def quoteWith (quotes content : Text) : Text := quotes ++ content ++ quotes

def lead (text : Text) : Text := if text.contains '\n' then ['\n'] else []

def writeIn (text : Text) : Form → Text
  | .basic => quoteWith ['"'] (escapeWith false 0 0 text)
  | .literal => quoteWith ['\''] text
  | .multiBasic => quoteWith ['"', '"', '"'] (lead text ++ escapeWith true 2 0 text)
  | .multiLiteral => quoteWith ['\'', '\'', '\''] (lead text ++ text)

def writeString (text : Text) : Text := writeIn text (Form.ofValue text)

def writeKey (key : Text) : Text :=
  let f := Features.of key
  let control := f.control || f.newline
  if !key.isEmpty && key.all isBareKey then key
  else if !f.backslash && !f.doubleQuote && !control then writeIn key .basic
  else if !control && !f.singleQuote then writeIn key .literal
  else writeIn key .basic

def writeArray : List Text → Text
  | [] => ['[', ']']
  | [item] => '[' :: item ++ [']']
  | items =>
      ['[', '\n'] ++ items.flatMap (fun item => List.replicate 4 ' ' ++ item ++ [',', '\n']) ++ [']']

def writeLine (key value : Text) : Text := key ++ [' ', '=', ' '] ++ value ++ ['\n']

end CPreprocessor.Toml
