import TagRegistry.Tree

namespace TagRegistry

-- What can be seen of files without changing them.
structure View where
  read : String → Except Tree.Error Bytes
  isDirectory : String → Bool

namespace View

def readText (view : View) (path : String) : Except Tree.Error String := do
  match Text.ofUtf8? (← view.read path) with
  | some text => .ok text
  | none => .error .notText

end View

def Tree.view (tree : Tree) : View where
  read := tree.read
  isDirectory := tree.isDirectory

end TagRegistry
