import TagRegistry.Toml.Layout

namespace TagRegistry.Toml

-- Whether a string ends on its line or, between three quotes, goes on over many.
inductive Extent where
  | line
  | lines
  deriving DecidableEq, Repr

-- What comes before the next character of a string between double quotes.
inductive Before where
  | text
  | escape
  | digits (missing : Nat) (value : Nat)
  | lineEnd   -- a backslash and blanks
  | gap       -- a backslash that ends its line
  deriving DecidableEq, Repr

def hexValue? (c : Char) : Option Nat :=
  if c.isDigit then some (c.toNat - '0'.toNat)
  else if 'a' ≤ c && c ≤ 'f' then some (c.toNat - 'a'.toNat + 10)
  else if 'A' ≤ c && c ≤ 'F' then some (c.toNat - 'A'.toNat + 10)
  else none

def character? (n : Nat) : Option Char :=
  if n.isValidChar then some (Char.ofNat n) else none

def escaped? : Char → Option Char
  | 'b' => some '\x08'
  | 't' => some '\t'
  | 'n' => some '\n'
  | 'f' => some '\x0C'
  | 'r' => some '\r'
  | '"' => some '"'
  | '\\' => some '\\'
  | _ => none

def startsLine (c : Char) (rest : List Char) : Bool :=
  c == '\n' || (c == '\r' && rest.head? == some '\n')

-- The rest of a string after two of three closing quotes: up to two quotes more are its own.
def closeThree (mark : Char) (rest : List Char) : List Char × List Char :=
  let own := (rest.takeWhile (· == mark)).take 2
  (own, rest.drop own.length)

def closesThree (mark : Char) (rest : List Char) : Bool :=
  [mark, mark].isPrefixOf rest

def prepend (c : Char) : Option (List Char × List Char) → Option (List Char × List Char)
  | none => none
  | some (body, rest) => some (c :: body, rest)

-- A carriage return is kept only as an escape: before a line feed it is dropped, elsewhere refused.
def basicBody (extent : Extent) (before : Before) : Reader (List Char)
  | [] => none
  | c :: rest =>
    match before with
    | .escape =>
      if c == 'u' then basicBody extent (.digits 4 0) rest
      else if c == 'U' then basicBody extent (.digits 8 0) rest
      else if extent = .lines && (isSpace c || startsLine c rest) then
        basicBody extent (if c == '\n' then .gap else .lineEnd) rest
      else match escaped? c with
        | none => none
        | some c => prepend c (basicBody extent .text rest)
    | .digits missing value =>
      match hexValue? c with
      | none => none
      | some digit =>
        if missing ≤ 1 then
          match character? (value * 16 + digit) with
          | none => none
          | some c => prepend c (basicBody extent .text rest)
        else
          basicBody extent (.digits (missing - 1) (value * 16 + digit)) rest
    | .lineEnd =>
      if c == '\n' then basicBody extent .gap rest
      else if isSpace c || startsLine c rest then basicBody extent .lineEnd rest
      else none
    | .text | .gap =>
      if before = .gap && (isSpace c || startsLine c rest) then basicBody extent .gap rest
      else if c == '\\' then basicBody extent .escape rest
      else if c == '"' && extent = .line then some ([], rest)
      else if c == '"' && closesThree '"' rest then some (closeThree '"' (rest.drop 2))
      else if extent = .lines && startsLine c rest then
        if c == '\n' then prepend c (basicBody extent .text rest) else basicBody extent .text rest
      else if isControl c then none
      else prepend c (basicBody extent .text rest)

def literalBody (extent : Extent) : Reader (List Char)
  | [] => none
  | c :: rest =>
    if c == '\'' && extent = .line then some ([], rest)
    else if c == '\'' && closesThree '\'' rest then some (closeThree '\'' (rest.drop 2))
    else if extent = .lines && startsLine c rest then
      if c == '\n' then prepend c (literalBody extent rest) else literalBody extent rest
    else if isControl c then none
    else prepend c (literalBody extent rest)

-- A line end right after three opening quotes is not part of the string.
def skipNewline (text : List Char) : List Char :=
  (newline? text).getD text

def line? : List Char → Option (List Char × List Char)
  | '"' :: rest => basicBody .line .text rest
  | '\'' :: rest => literalBody .line rest
  | _ => none

def string? : List Char → Option (List Char × List Char)
  | '"' :: '"' :: '"' :: rest => basicBody .lines .text (skipNewline rest)
  | '\'' :: '\'' :: '\'' :: rest => literalBody .lines (skipNewline rest)
  | text => line? text

end TagRegistry.Toml
