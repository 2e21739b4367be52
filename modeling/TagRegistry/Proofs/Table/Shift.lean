import TagRegistry.Proofs.Compilation
import TagRegistry.Proofs.Table.Scan

namespace TagRegistry

-- How far a table is moved by what stands before it.
structure Offset where
  lines : Nat
  bytes : Nat
  records : Nat
  deriving DecidableEq, Repr

variable (offset : Offset)

namespace Table

def Position.shift (position : Position) : Position where
  line := position.line + offset.lines
  byte := position.byte + offset.bytes
  record := position.record + offset.records

def Record.shift (record : Record) : Record :=
  { record with position := record.position.shift offset }

def Error.shift : Error → Error
  | .invalidText position field validLength =>
    .invalidText (position.shift offset) field validLength
  | .broken cause => .broken cause

def Scanner.shift (s : Scanner) : Scanner :=
  { s with start := s.start.shift offset, here := s.here.shift offset }

theorem Position.past_shift (position : Position) (byte : UInt8) :
    (position.shift offset).past byte = (position.past byte).shift offset := by
  by_cases h : byte = lineFeed <;> simp [past, shift, h] <;> omega

theorem Position.pastRecord_shift (position : Position) :
    (position.shift offset).pastRecord = position.pastRecord.shift offset := by
  simp [pastRecord, shift]
  omega

namespace Scanner

-- The scanner never asks where it stands, so all that moves are the positions that it gives.
theorem step_shift (s : Scanner) (byte : UInt8) :
    (s.shift offset).step byte =
      ((s.step byte).1.map (Record.shift offset), (s.step byte).2.shift offset) := by
  rcases h : s.mode.read byte with ⟨mode, action⟩
  cases action <;>
    simp [step, h, shift, between, record, Record.shift, Position.past_shift,
      Position.pastRecord_shift]

theorem run_shift (s : Scanner) (bytes : Bytes) :
    (s.shift offset).run bytes =
      ((s.run bytes).1.map (Record.shift offset), (s.run bytes).2.shift offset) := by
  induction bytes generalizing s with
  | nil => rfl
  | cons byte bytes hi =>
    rw [run_cons, step_shift, hi, run_cons]
    cases (s.step byte).1 <;> simp

theorem pending?_shift (s : Scanner) :
    (s.shift offset).pending? = s.pending?.map (Record.shift offset) := by
  by_cases h : s.mode = .outside <;> simp [pending?, shift, h, record, Record.shift]

end Scanner

end Table

def CompileError.shift : CompileError → CompileError
  | .unreadable path cause => .unreadable path cause
  | .table error => .table (error.shift offset)
  | .row error => .row (error.mapLine (· + offset.lines))

-- An item of a table as it is read further down.
def shiftItem (item : Except Table.Error Row) : Except Table.Error Row :=
  (item.map (Row.mapLine (· + offset.lines))).mapError (Table.Error.shift offset)

theorem Table.Record.textsFrom_shift (position : Position) (field : Nat) (fields : List Bytes) :
    textsFrom (position.shift offset) field fields =
      (textsFrom position field fields).mapError (Error.shift offset) := by
  induction fields generalizing field with
  | nil => rfl
  | cons bytes fields hi =>
    rw [textsFrom, textsFrom, hi]
    split
    case h_1 => rfl
    case h_2 => cases textsFrom position (field + 1) fields <;> rfl

theorem Table.Record.row_shift (record : Record) :
    (record.shift offset).row = shiftItem offset record.row := by
  rw [row, row, shift, textsFrom_shift]
  cases textsFrom record.position 0 record.fields <;> rfl

theorem tagsOf_shift (item : Except Table.Error Row) :
    tagsOf (shiftItem offset item) = (tagsOf item).mapError (CompileError.shift offset) := by
  cases item with
  | error error => rfl
  | ok row =>
    change (row.mapLine (· + offset.lines)).tags.mapError _ = (row.tags.mapError _).mapError _
    rw [Row.tags_mapLine]
    cases row.tags <;> rfl

theorem compileItems_shift (items : List (Except Table.Error Row)) :
    compileItems (items.map (shiftItem offset)) =
      (compileItems items).mapError (CompileError.shift offset) := by
  induction items with
  | nil => rfl
  | cons item items hi =>
    rw [List.map_cons, compileItems, compileItems, tagsOf_shift, hi]
    cases tagsOf item
    case error => rfl
    case ok => cases compileItems items <;> rfl

end TagRegistry
