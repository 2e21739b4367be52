import TagRegistry.Table
import TagRegistry.Proofs.Table.Scanner

namespace TagRegistry.Table

-- The scanner at the start of a table that begins with the mark, or of one that does not.
def initial (marked : Bool) : Scanner :=
  .between .start { Position.start with byte := if marked then mark.length else 0 }

theorem scan_of_mark (bytes : Bytes) : scan (mark ++ bytes) = (initial true).run bytes := by
  have h : mark.isPrefixOf (mark ++ bytes) := List.isPrefixOf_iff_prefix.mpr (List.prefix_append ..)
  rw [scan, if_pos h, List.drop_left]
  rfl

theorem scan_of_no_mark {bytes : Bytes} (h : ¬mark <+: bytes) :
    scan bytes = (initial false).run bytes := by
  rw [scan, if_neg (mt List.isPrefixOf_iff_prefix.mp h)]
  rfl

-- What stands before a cut is scanned as if the table ended there, unless the cut goes through the
-- mark.
theorem scan_append {bytes₁ bytes₂ : Bytes} (h : mark <+: bytes₁ ++ bytes₂ → mark <+: bytes₁) :
    scan (bytes₁ ++ bytes₂) =
      ((scan bytes₁).1 ++ ((scan bytes₁).2.run bytes₂).1, ((scan bytes₁).2.run bytes₂).2) := by
  by_cases hm : mark <+: bytes₁
  case pos =>
    have ⟨rest, hr⟩ := hm
    rw [← hr, List.append_assoc, scan_of_mark, scan_of_mark, Scanner.run_append]
  case neg =>
    rw [scan_of_no_mark (mt h hm), scan_of_no_mark hm, Scanner.run_append]

-- No byte of the mark is a line feed.
theorem mark_prefix_append_lineFeed {front rest : Bytes}
    (h : mark <+: front ++ Position.lineFeed :: rest) : mark <+: front := by
  match front with
  | [] | [_] | [_, _] => simp [mark, Position.lineFeed, List.cons_prefix_cons] at h
  | _ :: _ :: _ :: _ => simpa [mark, List.cons_prefix_cons] using h

theorem here_scan (bytes : Bytes) :
    (scan bytes).2.here = { Position.start.after bytes with record := (scan bytes).1.length } := by
  by_cases hm : mark <+: bytes
  case pos =>
    obtain ⟨rest, rfl⟩ := hm
    rw [scan_of_mark, Scanner.here_run]
    simp [initial, Scanner.between, Position.after, Position.start, mark, Position.lineFeed]
    omega
  case neg =>
    rw [scan_of_no_mark hm, Scanner.here_run]
    simp [initial, Scanner.between, Position.after, Position.start]

-- The records of a table that ends with `bytes`.
def records (bytes : Bytes) : List Record :=
  (scan bytes).1 ++ (scan bytes).2.pending?.toList

theorem read_of_no_failure (bytes : Bytes) :
    read { bytes } = (records bytes).map Record.row :=
  rfl

theorem read_of_failure {bytes : Bytes} (h : bytes ≠ mark) (cause : String) :
    read { bytes, failure := some cause } =
      (scan bytes).1.map Record.row ++ [.error (.broken cause)] := by
  simp [read, h]

-- The last byte of `bytes` is a line feed, and a record ends with it.
def EndsRecord (bytes : Bytes) : Prop :=
  ∃ front, bytes = front ++ [Position.lineFeed] ∧
    (scan bytes).1.length = (scan front).1.length + 1

theorem endsRecord_iff_isSome {front : Bytes} : EndsRecord (front ++ [Position.lineFeed]) ↔
    ((scan front).2.step Position.lineFeed).1.isSome := by
  simp only [EndsRecord, List.append_cancel_right_eq, exists_eq_left']
  rw [scan_append mark_prefix_append_lineFeed, Scanner.run_singleton]
  cases ((scan front).2.step Position.lineFeed).1 <;> simp

-- A line feed ends no record if it is quoted, if its line is blank, or if it comes after a carriage
-- return that has ended the record before it.
theorem endsRecord_iff {front : Bytes} : EndsRecord (front ++ [Position.lineFeed]) ↔
    (scan front).2.mode ≠ .outside ∧ (scan front).2.mode ≠ .quoted := by
  rw [endsRecord_iff_isSome, Scanner.step, Mode.read_lineFeed]
  cases (scan front).2.mode <;> simp

end TagRegistry.Table
