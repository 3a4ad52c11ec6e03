import CPreprocessor.Files.Path
import CPreprocessor.Text.CharClass
import CPreprocessor.Text.Entries

set_option autoImplicit false

namespace CPreprocessor

def isIdentifier : Text → Bool
  | [] => false
  | c :: rest => CharClass.isNameStart c && rest.all CharClass.isNameContinue

structure Config where
  systemIncludeDirs : List Path
  missingSystemIncludeIsFatal : Bool
  maxIncludeDepth : Nat
  defines : Entries Text
deriving DecidableEq, Repr

namespace Config

def defaultMaxIncludeDepth : Nat := 64

def default : Config := ⟨[], false, defaultMaxIncludeDepth, []⟩

def withSystemIncludeDir (config : Config) (directory : Path) : Config :=
  { config with systemIncludeDirs := config.systemIncludeDirs ++ [directory] }

def withDefine (config : Config) (name body : Text) : Config :=
  { config with defines := config.defines.put name body }

def invalidDefine? (config : Config) : Option Text :=
  (config.defines.map Prod.fst).find? (!isIdentifier ·)

end Config

end CPreprocessor
