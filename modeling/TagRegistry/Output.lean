import TagRegistry.Generation.File

namespace TagRegistry

-- A text that is meant for a file.
structure Write where
  path : String
  text : String
  deriving DecidableEq, Repr

namespace Write

def failure (write : Write) (cause : Tree.Error) : Report where
  message := "error writing '" ++ write.path ++ "': " ++ cause.message

def run (write : Write) (tree : Tree) : Except Report Tree :=
  (tree.write write.path (Text.utf8 write.text)).mapError write.failure

-- Writes in order, up to the first that fails. What is written before it stays.
def runAll (tree : Tree) : List Write → Option Report × Tree
  | [] => (none, tree)
  | write :: rest =>
    match write.run tree with
    | .error report => (some report, tree)
    | .ok tree => runAll tree rest

end Write

-- Nothing is written unless the whole declaration can be generated.
def generateTo (view : View) (source target : String) (format : Format) : Except Report Write := do
  return { path := target, text := ← generateFile view source format }

end TagRegistry
