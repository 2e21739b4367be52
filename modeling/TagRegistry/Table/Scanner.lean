import TagRegistry.Table.Record

namespace TagRegistry.Table

-- Where the scanner stands in a record. What a byte does hangs on this alone.
inductive Mode where
  | outside   -- before the first byte of a record
  | opening   -- at the start of a field
  | plain
  | quoted
  | closing   -- after a quote in a quoted field
  deriving DecidableEq, Repr

inductive Action where
  | skip
  | keep
  | endField
  | endRecord
  deriving DecidableEq, Repr

namespace Mode

def comma : UInt8 := 0x2C
def quote : UInt8 := 0x22

def endsLine (byte : UInt8) : Bool :=
  byte == 0x0A || byte == 0x0D

-- A quote opens a quoted field only where the field starts. In a quoted field two quotes are one,
-- and after the closing quote the field goes on as a plain one.
def read (mode : Mode) (byte : UInt8) : Mode × Action :=
  match mode with
  | .outside => if endsLine byte then (.outside, .skip) else atStart byte
  | .opening => atStart byte
  | .plain => unquoted byte
  | .quoted => if byte == quote then (.closing, .skip) else (.quoted, .keep)
  | .closing => if byte == quote then (.quoted, .keep) else unquoted byte
where
  atStart (byte : UInt8) : Mode × Action :=
    if byte == quote then (.quoted, .skip) else unquoted byte
  unquoted (byte : UInt8) : Mode × Action :=
    if byte == comma then (.opening, .endField)
    else if endsLine byte then (.outside, .endRecord)
    else (.plain, .keep)

end Mode

-- `fields` and `field` are what the current record holds so far, the latest first; `start` is
-- where that record begins, and `here` where the scanner stands.
structure Scanner where
  mode : Mode
  start : Position
  here : Position
  fields : List Bytes
  field : Bytes
  deriving DecidableEq, Repr

namespace Scanner

-- A scanner with nothing in hand.
def between (start here : Position) : Scanner where
  mode := .outside
  start
  here
  fields := []
  field := []

-- The current record, if it ended here.
def record (s : Scanner) : Record where
  position := s.start
  fields := (s.field.reverse :: s.fields).reverse

def step (s : Scanner) (byte : UInt8) : Option Record × Scanner :=
  let here := s.here.past byte
  match s.mode.read byte with
  | (mode, .skip) => (none, { s with mode, here })
  | (mode, .keep) => (none, { s with mode, here, field := byte :: s.field })
  | (mode, .endField) =>
    (none, { s with mode, here, field := [], fields := s.field.reverse :: s.fields })
  | (_, .endRecord) => (some s.record, between here.pastRecord here.pastRecord)

-- The records that end in `bytes`, and the scanner after them.
def run (s : Scanner) : Bytes → List Record × Scanner
  | [] => ([], s)
  | byte :: bytes =>
    match s.step byte with
    | (none, s') => s'.run bytes
    | (some record, s') =>
      let (records, last) := s'.run bytes
      (record :: records, last)

-- The record that the end of the table ends.
def pending? (s : Scanner) : Option Record :=
  if s.mode = .outside then none else some s.record

theorem run_append (s : Scanner) (bytes₁ bytes₂ : Bytes) :
    s.run (bytes₁ ++ bytes₂) =
      ((s.run bytes₁).1 ++ ((s.run bytes₁).2.run bytes₂).1, ((s.run bytes₁).2.run bytes₂).2) := by
  induction bytes₁ generalizing s with
  | nil => rfl
  | cons byte bytes₁ ih =>
    simp only [List.cons_append, run]
    split
    case h_1 s' hs => exact ih s'
    case h_2 record s' hs => simp [ih s']

end Scanner
end TagRegistry.Table
