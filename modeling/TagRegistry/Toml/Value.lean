namespace TagRegistry.Toml

-- How a table came about: by a header of its own, on the way to a header or to a dotted key, or in
-- braces. It depends on this which keys and headers may still enter the table.
inductive Kind where
  | header
  | implied
  | dotted
  | closed
  deriving DecidableEq, Repr

-- Numbers with a fraction and dates keep the text they are written as. A list of `tables` is never
-- empty, and only its last table can still be filled.
inductive Value where
  | string (text : String)
  | integer (value : Int)
  | float (written : String)
  | boolean (value : Bool)
  | moment (written : String)
  | array (items : List Value)
  | table (kind : Kind) (entries : List (String × Value))
  | tables (earlier : List (List (String × Value))) (last : List (String × Value))
  deriving Repr

abbrev Entries := List (String × Value)

-- A dotted key: the keys before the last dot, and the key after it.
structure Path where
  parents : List String
  key : String
  deriving DecidableEq, Repr

namespace Path

def keys (path : Path) : List String :=
  path.parents ++ [path.key]

def under (path : Path) (key : String) : Path :=
  { path with parents := key :: path.parents }

end Path

namespace Entries

def insert (entries : Entries) (key : String) (value : Value) : Entries :=
  entries ++ [(key, value)]

def replace (entries : Entries) (key : String) (value : Value) : Entries :=
  entries.map fun (key', value') => if key' = key then (key, value) else (key', value')

-- A table in braces is complete. A dotted key stays out of tables that have a header, while a
-- header may go through any of them.
def enters (made : Kind) : Kind → Bool
  | .closed => false
  | .header => made ≠ .dotted
  | .implied | .dotted => true

-- Changes the table that `parents` lead to. Tables missing on the way are made, and are of the kind
-- `made`.
def edit (made : Kind) (change : Kind → Entries → Option Entries) :
    List String → Kind → Entries → Option Entries
  | [], kind, entries => change kind entries
  | key :: parents, _, entries =>
    match entries.lookup key with
    | none => (edit made change parents made []).map (entries.insert key <| .table made ·)
    | some (.table kind inner) =>
      if enters made kind then
        (edit made change parents kind inner).map (entries.replace key <| .table kind ·)
      else
        none
    | some (.tables earlier last) =>
      (edit made change parents .header last).map (entries.replace key <| .tables earlier ·)
    | some _ => none

-- A dotted key ends in a table that dotted keys have made, a plain key in one that they have not.
def assign (path : Path) (value : Value) (kind : Kind) (entries : Entries) : Option Entries :=
  edit .dotted put path.parents kind entries
where
  put (kind : Kind) (entries : Entries) : Option Entries :=
    if (kind == .dotted) == path.parents.isEmpty then none
    else if (entries.lookup path.key).isSome then none
    else some (entries.insert path.key value)

-- A header opens a table once. Tables on the way to earlier headers count as not opened yet.
def openTable (path : Path) (entries : Entries) : Option Entries :=
  edit .implied put path.parents .header entries
where
  put (_ : Kind) (entries : Entries) : Option Entries :=
    match entries.lookup path.key with
    | none => some (entries.insert path.key (.table .header []))
    | some (.table .implied inner) => some (entries.replace path.key (.table .header inner))
    | some _ => none

def appendTable (path : Path) (entries : Entries) : Option Entries :=
  edit .implied put path.parents .header entries
where
  put (_ : Kind) (entries : Entries) : Option Entries :=
    match entries.lookup path.key with
    | none => some (entries.insert path.key (.tables [] []))
    | some (.tables earlier last) =>
      some (entries.replace path.key (.tables (earlier ++ [last]) []))
    | some _ => none

-- The entries of a table in braces.
def ofPairs (pairs : List (Path × Value)) : Option Entries :=
  pairs.foldlM (fun entries (path, value) => assign path value .closed entries) []

end Entries
end TagRegistry.Toml
