import TagRegistry.Command.Job

namespace TagRegistry.Command

inductive Outcome where
  | done (stdout : String)
  | failed (message : String)
  | stopped (stop : Stop)
  deriving DecidableEq, Repr

namespace Outcome

def exitCode : Outcome → Nat
  | .done _ | .stopped (.notice _) => 0
  | .failed _ => 1
  | .stopped .usage => 2

-- The text of a notice is left out. It is the argument parser's own, as is what it says on usage.
def stdout : Outcome → String
  | .done stdout => stdout
  | .failed _ | .stopped _ => ""

def message? : Outcome → Option String
  | .failed message => some message
  | .done _ | .stopped _ => none

end Outcome

def run (args : List String) (tree : Tree) : Outcome × Tree :=
  match Arguments.parse args with
  | .error stop => (.stopped stop, tree)
  | .ok args =>
    match prepare tree.view args with
    | .error failure => (.failed failure.message, tree)
    | .ok job =>
      match Write.runAll tree job.writes with
      | (none, tree) => (.done job.stdout, tree)
      | (some report, tree) => (.failed report.message, tree)

end TagRegistry.Command
