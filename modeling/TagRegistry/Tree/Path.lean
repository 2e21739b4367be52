import TagRegistry.Text.Utf8
import TagRegistry.Tree.Error

namespace TagRegistry.Tree

inductive Step where
  | stay
  | up
  | down (name : String)
  deriving DecidableEq, Repr

-- The way from the working directory. A slash at the end asks for a directory.
structure Path where
  steps : List Step
  slash : Bool
  deriving DecidableEq, Repr

-- The parts of a text between slashes.
def parts : List Char → List (List Char)
  | [] => [[]]
  | c :: text =>
    if c = '/' then [] :: parts text
    else match parts text with
      | [] => [[c]]
      | part :: rest => (c :: part) :: rest

-- Slashes without a name between them count as one.
def Step.ofPart? : List Char → Option Step
  | [] => none
  | ['.'] => some .stay
  | ['.', '.'] => some .up
  | name => some (.down (String.ofList name))

def nameLimit : Nat :=
  255

-- A path is shorter than this.
def pathLimit : Nat :=
  4096

def isLong (name : String) : Bool :=
  nameLimit < Text.utf8Length name

namespace Path

def ofText (text : String) : Path where
  steps := (parts text.toList).filterMap Step.ofPart?
  slash := text.toList.getLast? == some '/'

-- A path that is fit to be looked up.
def check (text : String) : Except Error Path :=
  if text.toList.contains '\x00' then .error .nulInName
  else if text.isEmpty then .error .notFound
  else if pathLimit ≤ Text.utf8Length text then .error .nameTooLong
  else .ok (ofText text)

-- The name that a path ends in, whatever stands after it that does not lead away.
def fileName? (path : Path) : Option String :=
  match (path.steps.filter (· ≠ .stay)).getLast? with
  | some (.down name) => some name
  | _ => none

-- What follows the last dot of the file name, if something stands before that dot.
def extension? (path : Path) : Option String := do
  let name ← path.fileName?
  match name.toList.reverse.span (· ≠ '.') with
  | (ending, '.' :: _ :: _) => some (String.ofList ending.reverse)
  | _ => none

end Path
end TagRegistry.Tree
