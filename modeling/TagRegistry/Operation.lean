import TagRegistry.Command

namespace TagRegistry

-- What can be asked of a tree.
inductive Operation where
  | read (path : String)
  | compile (path : String)
  | generate (source : String) (format : Format)
  | generateTo (source target : String) (format : Format)
  | write (write : Write)
  | command (args : List String)
  deriving DecidableEq, Repr

namespace Operation

inductive Answer where
  | text (result : Except CompileError String)
  | tags (result : Except CompileError (List Tag))
  | code (result : Except Report String)
  | written (failure : Option Report)
  | outcome (outcome : Command.Outcome)

def runWrite (tree : Tree) (write : Except Report Write) : Answer × Tree :=
  match write >>= (·.run tree) with
  | .error report => (.written (some report), tree)
  | .ok tree => (.written none, tree)

def run (tree : Tree) : Operation → Answer × Tree
  | .read path => (.text (readRegistry tree.view path), tree)
  | .compile path => (.tags (compileFile tree.view path), tree)
  | .generate source format => (.code (generateFile tree.view source format), tree)
  | .generateTo source target format =>
    runWrite tree (TagRegistry.generateTo tree.view source target format)
  | .write job => runWrite tree (.ok job)
  | .command args =>
    let (outcome, tree) := Command.run args tree
    (.outcome outcome, tree)

-- The tree after all operations.
def runAll (tree : Tree) (operations : List Operation) : Tree :=
  operations.foldl (fun tree operation => (operation.run tree).2) tree

end Operation
end TagRegistry
