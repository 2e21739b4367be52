import TagRegistry.Row
import TagRegistry.Text.Utf8

namespace TagRegistry.Table

-- A place in a table: a line counted from 1, and the bytes and records before it.
structure Position where
  line : Nat
  byte : Nat
  record : Nat
  deriving DecidableEq, Repr

namespace Position

def start : Position :=
  ⟨1, 0, 0⟩

def lineFeed : UInt8 := 0x0A

-- Only line feeds count lines.
def past (position : Position) (byte : UInt8) : Position where
  line := if byte = lineFeed then position.line + 1 else position.line
  byte := position.byte + 1
  record := position.record

def pastRecord (position : Position) : Position :=
  { position with record := position.record + 1 }

end Position

-- `position` is where reading stood before the record.
structure Record where
  position : Position
  fields : List Bytes
  deriving DecidableEq, Repr

inductive Error where
  | invalidText (position : Position) (field validLength : Nat)
  | broken (cause : String)
  deriving DecidableEq, Repr

namespace Error

def line? : Error → Option Nat
  | .invalidText position .. => some position.line
  | .broken _ => none

def message : Error → String
  | .invalidText position field validLength =>
    "CSV parse error: record " ++ toString position.record ++ " (line " ++ toString position.line ++
      ", field: " ++ toString field ++ ", byte: " ++ toString position.byte ++
      "): invalid utf-8: invalid UTF-8 in field " ++ toString field ++ " near byte index " ++
      toString validLength
  | .broken cause => cause

end Error

namespace Record

-- The fields as texts, up to the first that is none. Fields are counted from `field`.
def textsFrom (position : Position) (field : Nat) : List Bytes → Except Error (List String)
  | [] => .ok []
  | bytes :: rest =>
    match Text.ofUtf8? bytes with
    | none => .error (.invalidText position field (Text.validLength bytes))
    | some text => (textsFrom position (field + 1) rest).map (text :: ·)

def row (record : Record) : Except Error Row :=
  (textsFrom record.position 0 record.fields).map (Row.ofFields record.position.line)

end Record

end TagRegistry.Table
