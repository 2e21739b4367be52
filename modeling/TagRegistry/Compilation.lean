import TagRegistry.Table
import TagRegistry.Tree.Error

namespace TagRegistry

inductive CompileError where
  | unreadable (path : String) (cause : Tree.Error)
  | table (error : Table.Error)
  | row (error : Row.Error)
  deriving DecidableEq, Repr

namespace CompileError

-- The line of the registry that the error comes from.
def line? : CompileError → Option Nat
  | .unreadable .. => none
  | .table error => error.line?
  | .row error => some error.line

def message : CompileError → String
  | .unreadable path cause => "Unable to read feature registry '" ++ path ++ "': " ++ cause.message
  | .table error => "Malformed feature registry table: " ++ error.message
  | .row error => error.message

end CompileError

-- The tags of one row as it was read.
def tagsOf : Except Table.Error Row → Except CompileError (List Tag)
  | .error error => .error (.table error)
  | .ok row => row.tags.mapError .row

-- The tags of all rows in their order. The first row that cannot be read or classified ends it.
def compileItems : List (Except Table.Error Row) → Except CompileError (List Tag)
  | [] => .ok []
  | item :: rest => do
    let tags ← tagsOf item
    return tags ++ (← compileItems rest)

def compile (rows : List Row) : Except CompileError (List Tag) :=
  compileItems (rows.map .ok)

def compileSource (source : Table.Source) : Except CompileError (List Tag) :=
  compileItems (Table.read source)

end TagRegistry
