import TagRegistry.Declaration.Format

namespace TagRegistry.Command

structure Arguments where
  input : String
  format : Format
  output : Option String
  deriving DecidableEq, Repr

inductive Choice where
  | format
  | output
  deriving DecidableEq, Repr

def Choice.ofName? (name : List Char) : Option Choice :=
  if name = "format".toList then some .format
  else if name = "output".toList then some .output
  else none

-- What may be asked for in place of a run.
inductive Notice where
  | help
  | version
  deriving DecidableEq, Repr

def Notice.ofName? (name : List Char) : Option Notice :=
  if name = "help".toList then some .help
  else if name = "version".toList then some .version
  else none

-- Why a command does not run.
inductive Stop where
  | usage
  | notice (notice : Notice)
  deriving DecidableEq, Repr

-- What an argument is by its looks. A value may be attached to a choice, and not to a notice.
inductive Word where
  | input
  | separator
  | chosen (choice : Choice) (value : Option String)
  | notice (notice : Notice)
  | unknown
  deriving DecidableEq, Repr

namespace Word

def attached : List Char → Option String
  | [] => none
  | '=' :: value => some (String.ofList value)
  | value => some (String.ofList value)

def long (text : List Char) : Word :=
  let (name, value) := text.span (· ≠ '=')
  match Choice.ofName? name, Notice.ofName? text with
  | some choice, _ => .chosen choice (attached value)
  | none, some asked => .notice asked
  | none, none => .unknown

-- The first letter of a short argument decides.
def ofText (text : String) : Word :=
  match text.toList with
  | ['-'] => .input
  | ['-', '-'] => .separator
  | '-' :: '-' :: rest => long rest
  | '-' :: 'f' :: value => .chosen .format (attached value)
  | '-' :: 'o' :: value => .chosen .output (attached value)
  | '-' :: 'h' :: _ => .notice .help
  | '-' :: 'V' :: _ => .notice .version
  | '-' :: _ => .unknown
  | _ => .input

end Word

-- The arguments as far as they are given.
structure Given where
  input : Option String := none
  format : Option Format := none
  output : Option String := none
  deriving DecidableEq, Repr

namespace Given

-- Nothing is given twice, and no path is empty.
def addInput (given : Given) (path : String) : Except Stop Given :=
  if given.input.isSome || path.isEmpty then throw .usage
  else return { given with input := some path }

def add (given : Given) (choice : Choice) (value : String) : Except Stop Given :=
  match choice with
  | .format =>
    match given.format, Format.ofName value with
    | none, .ok format => return { given with format := some format }
    | _, _ => throw .usage
  | .output =>
    if given.output.isSome || value.isEmpty then throw .usage
    else return { given with output := some value }

-- A value that stands alone cannot look like a choice. After the separator all are inputs. A notice
-- is given as soon as it is met, so it is lost only behind a mistake.
def addAll (given : Given) : List String → Except Stop Given
  | [] => return given
  | text :: rest =>
    match Word.ofText text with
    | .input => do addAll (← given.addInput text) rest
    | .separator => rest.foldlM addInput given
    | .chosen choice (some value) => do addAll (← given.add choice value) rest
    | .chosen choice none =>
      match rest with
      | [] => throw .usage
      | value :: rest =>
        if Word.ofText value = .input then do addAll (← given.add choice value) rest
        else throw .usage
    | .notice notice => throw (.notice notice)
    | .unknown => throw .usage

def arguments (given : Given) : Except Stop Arguments :=
  match given.input with
  | none => throw .usage
  | some input => return {
    input
    format := given.format.getD Format.standard
    output := given.output }

end Given

namespace Arguments

def parse (args : List String) : Except Stop Arguments := do
  (← Given.addAll {} args).arguments

def parse? (args : List String) : Option Arguments :=
  (parse args).toOption

end Arguments
end TagRegistry.Command
