import CPreprocessor.Files.Tree

set_option autoImplicit false

namespace CPreprocessor

inductive LoadError where
  | missing (path : Path)
  | system (error : SystemError)
  | other (message : String)
deriving DecidableEq, Repr

def LoadError.message : LoadError → String
  | .missing path => String.ofList path.text ++ " not found"
  | .system error => error.message
  | .other message => message

abbrev Loader := Path → Except LoadError Text

structure MemoryFiles where
  files : List (Path × Text)
deriving DecidableEq, Repr

namespace MemoryFiles

def empty : MemoryFiles := ⟨[]⟩

def insert (memory : MemoryFiles) (path : Path) (text : Text) : MemoryFiles :=
  ⟨(path, text) :: memory.files.filter fun entry => !entry.1.sameFile path⟩

def find? (memory : MemoryFiles) (path : Path) : Option Text :=
  (memory.files.find? fun entry => entry.1.sameFile path).map Prod.snd

def size (memory : MemoryFiles) : Nat := memory.files.length

def loader (memory : MemoryFiles) : Loader := fun path =>
  match memory.find? path with
  | some text => .ok text
  | none => .error (.missing path)

end MemoryFiles

def FileTree.loader (tree : FileTree) : Loader := fun path =>
  match tree.read path with
  | .ok bytes => .ok (Utf8.decodeLossy bytes)
  | .error error => .error (.system error)

end CPreprocessor
