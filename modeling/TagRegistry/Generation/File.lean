import TagRegistry.Report
import TagRegistry.Tree.View

namespace TagRegistry

def readRegistry (view : View) (path : String) : Except CompileError String :=
  (view.readText path).mapError (.unreadable path)

def compileFile (view : View) (path : String) : Except CompileError (List Tag) := do
  compileSource (.ofText (← readRegistry view path))

-- The declaration names the registry by the path as it is given.
def generateFile (view : View) (path : String) (format : Format) : Except Report String :=
  match readRegistry view path with
  | .error error => .error { message := error.message }
  | .ok registry => (generate registry path format).mapError (Report.ofError · path registry)

end TagRegistry
