import TagRegistry.Flag
import TagRegistry.Tag.Cursor

namespace TagRegistry

-- `line` is where the row comes from, and `0` if it comes from no table.
structure Row where
  line : Nat
  tag : String
  description : String
  flag : Option String
  deriving DecidableEq, Repr

namespace Row

-- The first three fields count. A row without a flag is faulty only once the flag is needed.
def ofFields (line : Nat) (fields : List String) : Row where
  line
  tag := fields[0]?.getD ""
  description := fields[1]?.getD ""
  flag := fields[2]?

inductive Error where
  | malformedFlag (line : Nat) (tag value : String)
  | missingFlag (line : Nat) (tag : String)
  deriving DecidableEq, Repr

namespace Error

def line : Error → Nat
  | .malformedFlag line .. => line
  | .missingFlag line _ => line

def message : Error → String
  | .malformedFlag line tag value =>
    "Line " ++ toString line ++ ": default flag '" ++ value ++ "' for tag '" ++ tag ++
      "' is not an integer"
  | .missingFlag line tag =>
    "Line " ++ toString line ++ ": row for tag '" ++ tag ++ "' has no default flag column"

end Error

-- The header and comments, which contribute nothing whatever their other fields hold.
def isSkipped (row : Row) : Bool :=
  row.tag == "Tag" || row.tag.toList.head? == some '#'

def isDefault (row : Row) : Except Error Bool :=
  match row.flag with
  | none => .error (.missingFlag row.line row.tag)
  | some value =>
    match Flag.ofText value with
    | .default => .ok true
    | .other => .ok false
    | .malformed => .error (.malformedFlag row.line row.tag value)

-- What the row contributes to the default set, if anything.
def form? (row : Row) : Except Error (Option Form) :=
  if row.isSkipped then
    .ok none
  else
    row.isDefault.map fun isDefault => if isDefault then some (Form.ofField row.tag) else none

def cursor (row : Row) : Except Error Cursor :=
  row.form?.map fun form => form.elim Cursor.empty Form.cursor

def tags (row : Row) : Except Error (List Tag) :=
  row.form?.map fun form => form.elim [] Form.tags

end Row
end TagRegistry
