import TagRegistry.Toml.Value
import TagRegistry.Toml.Number
import TagRegistry.Toml.Moment

namespace TagRegistry.Toml

inductive Statement where
  | table (path : Path)
  | tables (path : Path)
  | assign (path : Path) (value : Value)
  deriving Repr

-- A dotted key has fewer than 80 parts, and brackets are fewer than 80 deep.
def depthLimit : Nat :=
  79

def isBare (c : Char) : Bool :=
  c.isAlphanum || c == '_' || c == '-'

def key? (text : List Char) : Option (String × List Char) :=
  match line? text with
  | some (key, rest) => some (String.ofList key, rest)
  | none =>
    match text.span isBare with
    | ([], _) => none
    | (key, rest) => some (String.ofList key, rest)

-- A key of at most `parts` parts, with blanks around each.
def path? (parts : Nat) (text : List Char) : Option (Path × List Char) :=
  match parts with
  | 0 => none
  | parts + 1 =>
    match key? (skipSpace text) with
    | none => none
    | some (key, rest) =>
      match skipSpace rest with
      | '.' :: rest => (path? parts rest).map fun (path, rest) => (path.under key, rest)
      | rest => some ({ parents := [], key }, rest)

-- What ends a value that no quote or bracket ends.
def endsWord (c : Char) : Bool :=
  isSpace c || ['\n', '\r', '#', ',', ']', '\x7d'].contains c

def word? (word : List Char) : Option Value :=
  if word == ['t', 'r', 'u', 'e'] then some (.boolean true)
  else if word == ['f', 'a', 'l', 's', 'e'] then some (.boolean false)
  else match integer? word with
    | some value => some (.integer value)
    | none => if isFloat word then some (.float (String.ofList word)) else none

def scalar? (text : List Char) : Option (Value × List Char) :=
  match string? text, moment? text with
  | some (string, rest), _ => some (.string (String.ofList string), rest)
  | none, some rest =>
    some (.moment (String.ofList (text.take (text.length - rest.length))), rest)
  | none, none =>
    let (word, rest) := text.span (!endsWord ·)
    (word? word).map (·, rest)

-- The items of an array after its bracket or a comma. Each round reads an item, so `rounds` need
-- not pass the length of the text.
def items? (item : Reader Value) : Nat → Reader (List Value)
  | 0, _ => none
  | rounds + 1, text =>
    match skipGap false text with
    | ']' :: rest => some ([], rest)
    | text =>
      match item text with
      | none => none
      | some (value, rest) =>
        match skipGap false rest with
        | ',' :: rest => (items? item rounds rest).map fun (values, rest) => (value :: values, rest)
        | ']' :: rest => some ([value], rest)
        | _ => none

-- A key, and its value after an equals sign.
def pair? (item : Reader Value) (text : List Char) : Option ((Path × Value) × List Char) :=
  match path? depthLimit text with
  | some (path, '=' :: rest) =>
    (item (skipSpace rest)).map fun (value, rest) => ((path, value), rest)
  | _ => none

-- The pairs of a table in braces, of which there is at least one.
def pairs? (item : Reader Value) : Nat → Reader (List (Path × Value))
  | 0, _ => none
  | rounds + 1, text =>
    match pair? item text with
    | none => none
    | some (pair, rest) =>
      match skipSpace rest with
      | ',' :: rest => (pairs? item rounds rest).map fun (pairs, rest) => (pair :: pairs, rest)
      | '\x7d' :: rest => some ([pair], rest)
      | _ => none

def closedTable? (item : Reader Value) (text : List Char) : Option (Value × List Char) :=
  match skipSpace text with
  | '\x7d' :: rest => some (.table .closed [], rest)
  | text => do
    let (pairs, rest) ← pairs? item (text.length + 1) text
    return (.table .closed (← Entries.ofPairs pairs), rest)

-- A value whose brackets are at most `depth` deep.
def value? : Nat → Reader Value
  | 0, text => scalar? text
  | depth + 1, text =>
    match text with
    | '[' :: rest =>
      (items? (value? depth) (rest.length + 1) rest).map fun (values, rest) => (.array values, rest)
    | '\x7b' :: rest => closedTable? (value? depth) rest
    | _ => scalar? text

def header? : List Char → Option (Statement × List Char)
  | '[' :: '[' :: rest =>
    match path? depthLimit rest with
    | some (path, ']' :: ']' :: rest) => some (.tables path, rest)
    | _ => none
  | '[' :: rest =>
    match path? depthLimit rest with
    | some (path, ']' :: rest) => some (.table path, rest)
    | _ => none
  | _ => none

def statement? (text : List Char) : Option (Statement × List Char) :=
  if text.head? == some '[' then header? text
  else (pair? (value? depthLimit) text).map fun ((path, value), rest) => (.assign path value, rest)

-- Each statement has its line. Each round reads a line, so `rounds` need not pass the length of the
-- text.
def statementsIn? : Nat → List Char → Option (List Statement)
  | 0, _ => none
  | rounds + 1, text =>
    match skipSpace text with
    | [] => some []
    | c :: rest =>
      if c == '#' || c == '\n' || c == '\r' then do
        statementsIn? rounds (← lineEnd? (c :: rest))
      else do
        let (statement, rest) ← statement? (c :: rest)
        let statements ← statementsIn? rounds (← lineEnd? rest)
        return statement :: statements

-- The statements of a document, before which a byte order mark may stand.
def statements? : List Char → Option (List Statement)
  | '\ufeff' :: text => statementsIn? (text.length + 1) text
  | text => statementsIn? (text.length + 1) text

end TagRegistry.Toml
