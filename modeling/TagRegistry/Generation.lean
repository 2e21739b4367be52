import TagRegistry.Compilation
import TagRegistry.Declaration

namespace TagRegistry

inductive GenerateError where
  | compile (error : CompileError)
  | render (error : Code.Error)
  deriving DecidableEq, Repr

namespace GenerateError

-- The line of the registry that is to blame, if one is known. Tags are rendered without their rows,
-- so a tag that cannot be rendered has none.
def line? : GenerateError → Option Nat
  | .compile error => error.line?
  | .render _ => none

def message : GenerateError → String
  | .compile error => error.message
  | .render error => error.message

end GenerateError

def generateFrom (source : Table.Source) (name : String) (format : Format) :
    Except GenerateError String := do
  let tags ← (compileSource source).mapError .compile
  (render format name tags).mapError .render

-- `name` is what the declaration calls its registry.
def generate (registry : String) (name : String) (format : Format) : Except GenerateError String :=
  generateFrom (.ofText registry) name format

end TagRegistry
