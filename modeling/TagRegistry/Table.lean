import TagRegistry.Table.Scanner

namespace TagRegistry

namespace Table

-- What a table is read from: bytes, after which the source is either at its end or breaks.
structure Source where
  bytes : Bytes
  failure : Option String := none
  deriving DecidableEq, Repr

def Source.ofText (text : String) : Source where
  bytes := Text.utf8 text

-- A byte order mark, which may stand before a table and is no part of it.
def mark : Bytes :=
  [0xEF, 0xBB, 0xBF]

def scan (bytes : Bytes) : List Record × Scanner :=
  if mark.isPrefixOf bytes then
    let here := { Position.start with byte := mark.length }
    (Scanner.between .start here).run (bytes.drop mark.length)
  else
    (Scanner.between .start .start).run bytes

-- The rows in their order, with an error in the place of each record that is no text. A broken
-- source takes the record that it breaks off with it. A table that holds a mark and nothing else is
-- at its end there, and the source is not asked for more.
def read (source : Source) : List (Except Error Row) :=
  let (records, last) := scan source.bytes
  match source.failure with
  | none => (records ++ last.pending?.toList).map Record.row
  | some cause =>
    if source.bytes = mark then []
    else records.map Record.row ++ [.error (.broken cause)]

end Table
end TagRegistry
