import TagRegistry.Command.Arguments
import TagRegistry.Output
import TagRegistry.Plan

namespace TagRegistry.Command

-- What a command is about to do. It is made from what can be seen before anything is written, so a
-- plan generates all of its declarations first.
structure Job where
  stdout : String := ""
  writes : List Write := []
  deriving DecidableEq, Repr

inductive Failure where
  | report (report : Report)
  | workingDirectory
  | planSyntax
  | format (target : String) (unknown : Format.Unknown)
  deriving DecidableEq, Repr

-- The reason why a text is no plan is left out. It is told in the words of the TOML reader.
def Failure.message : Failure → String
  | .report shown => shown.message
  | .workingDirectory => "codegen tool must be run from the root of the workspace"
  | .planSyntax => "failed to parse plan"
  | .format target unknown => "bad format for '" ++ target ++ "': " ++ unknown.message

-- Directories that the working directory of a plan holds.
def landmarks : List String :=
  ["feature-registry", "resources"]

def isPlan (input : String) : Bool :=
  (Tree.Path.ofText input).extension? == some "toml"

def readPlan (view : View) (path : String) : Except Failure Plan := do
  unless landmarks.all view.isDirectory do throw .workingDirectory
  let text ← (view.readText path).mapError fun cause =>
    .report { message := "error reading '" ++ path ++ "': " ++ cause.message }
  (Plan.parse? text).elim (throw .planSyntax) pure

def prepareEntry (view : View) (entry : Plan.Entry) : Except Failure Write := do
  let format ← entry.outputFormat.mapError (.format entry.target)
  (generateTo view entry.source entry.target format).mapError .report

-- A plan has formats and targets of its own, which those of the arguments do not touch.
def prepare (view : View) (args : Arguments) : Except Failure Job := do
  if isPlan args.input then
    return { writes := ← (← readPlan view args.input).mapM (prepareEntry view) }
  else
    match args.output with
    | none => return { stdout := ← (generateFile view args.input args.format).mapError .report }
    | some target =>
      return { writes := [← (generateTo view args.input target args.format).mapError .report] }

-- The registries that a command reads.
def sources (view : View) (args : Arguments) : List String :=
  if isPlan args.input then
    match readPlan view args.input with
    | .ok plan => plan.map (·.source)
    | .error _ => []
  else
    [args.input]

end TagRegistry.Command
