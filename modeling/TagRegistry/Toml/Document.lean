import TagRegistry.Toml.Grammar

namespace TagRegistry.Toml

-- `current` leads to the table that assignments go to.
structure Document where
  root : Entries := []
  current : List String := []
  deriving Repr

namespace Document

def add (d : Document) : Statement → Option Document
  | .table path => do
    return { root := ← d.root.openTable path, current := path.keys }
  | .tables path => do
    return { root := ← d.root.appendTable path, current := path.keys }
  | .assign path value => do
    let put := Entries.assign path value
    return { d with root := ← Entries.edit .implied put d.current .header d.root }

def ofStatements? (statements : List Statement) : Option Document :=
  statements.foldlM add {}

def parse? (text : String) : Option Entries := do
  return (← ofStatements? (← statements? text.toList)).root

end Document
end TagRegistry.Toml
