import TagRegistry.Declaration.Format
import TagRegistry.Toml.Document

namespace TagRegistry

-- `format` is a name, which need not be that of a format.
structure Plan.Entry where
  source : String
  target : String
  format : Option String
  deriving DecidableEq, Repr

-- The declarations to generate, each with the registry that it comes from.
abbrev Plan := List Plan.Entry

namespace Plan

open Toml

def Entry.outputFormat (entry : Entry) : Except Format.Unknown Format :=
  Format.choose entry.format

def text? : Value → Option String
  | .string text => some text
  | _ => none

-- An entry is a table, or a list of its values in the order source, target, format. What else
-- stands in either is not looked at.
def Entry.ofValue? : Value → Option Entry
  | .table _ entries => do
    return {
      source := ← text? (← entries.lookup "source")
      target := ← text? (← entries.lookup "target")
      format := ← (entries.lookup "format").mapM text? }
  | .array (source :: target :: more) => do
    return {
      source := ← text? source
      target := ← text? target
      format := ← more.head?.mapM text? }
  | _ => none

def ofEntries? (entries : Entries) : Option Plan :=
  match entries.lookup "generate" with
  | some (.array values) => values.mapM Entry.ofValue?
  | some (.tables earlier last) =>
    (earlier ++ [last]).mapM fun entries => Entry.ofValue? (.table .header entries)
  | _ => none

def parse? (text : String) : Option Plan := do
  ofEntries? (← Document.parse? text)

end Plan
end TagRegistry
