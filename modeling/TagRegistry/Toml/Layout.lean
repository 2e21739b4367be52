namespace TagRegistry.Toml

-- Reads from the front of a text, and leaves what comes after.
abbrev Reader (α : Type) := List Char → Option (α × List Char)

-- Characters that stand nowhere in a document, line ends apart.
def isControl (c : Char) : Bool :=
  (c.toNat < 0x20 && c != '\t') || c.toNat == 0x7F

def isSpace (c : Char) : Bool :=
  c == ' ' || c == '\t'

def skipSpace (text : List Char) : List Char :=
  text.dropWhile isSpace

def newline? : List Char → Option (List Char)
  | '\n' :: rest => some rest
  | '\r' :: '\n' :: rest => some rest
  | _ => none

-- The end of a line, with a comment before it or none.
def lineEnd? (text : List Char) : Option (List Char) :=
  match afterComment (skipSpace text) with
  | [] => some []
  | rest => newline? rest
where
  afterComment : List Char → List Char
    | '#' :: rest => rest.dropWhile (!isControl ·)
    | rest => rest

-- Passes over blanks, line ends and comments. A control character in a comment stays in place.
def skipGap (inComment : Bool) : List Char → List Char
  | [] => []
  | '\n' :: rest => skipGap false rest
  | '\r' :: '\n' :: rest => skipGap false rest
  | c :: rest =>
    if inComment then
      if isControl c then c :: rest else skipGap true rest
    else if isSpace c then skipGap false rest
    else if c == '#' then skipGap true rest
    else c :: rest

end TagRegistry.Toml
