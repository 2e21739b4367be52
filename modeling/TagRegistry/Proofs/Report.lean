import TagRegistry.Report
import TagRegistry.Proofs.Generation
import TagRegistry.Proofs.Table.Place
import TagRegistry.Proofs.Text.Line

namespace TagRegistry

open Table (Place)
open Table.Position (lineFeed)
open Text (utf8)

theorem Row.Error.line_eq {row : Row} {error : Row.Error} (h : row.tags = .error error) :
    error.line = row.line := by
  rw [tags, form?] at h
  split at h
  case isTrue => cases h
  case isFalse =>
    cases hd : row.isDefault
    case ok => rw [hd] at h; cases h
    case error =>
      rw [hd] at h
      cases h
      rw [isDefault] at hd
      split at hd
      case h_1 => cases hd; rfl
      case h_2 => split at hd <;> cases hd; rfl

theorem Table.Record.line_eq {record : Record} {row : Row} (h : record.row = .ok row) :
    row.line = record.position.line := by
  have ⟨_, _, hr⟩ := row_eq_ok_iff.mp h
  exact hr ▸ rfl

-- `front` and `gap` are what stands in the registry before the first row that fails, and `gap` is
-- what is passed over since the end of the row before it.
def Row.Error.ComesAfter (error : Row.Error) (registry : String) (front gap : Bytes) : Prop :=
  ∃ (rows : List Row) (index : Nat) (row : Row) (rest : Bytes),
    Table.read (.ofText registry) = rows.map .ok ∧ rows[index]? = some row ∧
    row.tags = .error error ∧ (∀ r ∈ rows.take index, ∃ tags, r.tags = .ok tags) ∧
    Place (utf8 registry) index front gap rest

theorem exists_comesAfter {registry name : String} {format : Format} {error : Row.Error}
    (h : generate registry name format = .error (.compile (.row error))) :
    ∃ front gap, error.ComesAfter registry front gap ∧ error.line = 1 + front.count lineFeed := by
  have ⟨rows, hr⟩ := Table.exists_rows_of_text registry
  have hm : rows.mapM Row.tags = .error error := by
    cases (generate_eq_error_iff hr name format _).mp h
    case inl he =>
      have ⟨_, he, hm⟩ := he
      cases he
      exact hm
    case inr he =>
      have ⟨_, he, _⟩ := he
      cases he
  have ⟨before, row, after, hrows, hbefore, hrow⟩ := mapM_eq_error_iff.mp hm
  have hi : rows[before.length]? = some row := by simp [hrows]
  have hitem : ((Table.records (utf8 registry)).map Table.Record.row)[before.length]? =
      some (.ok row) := by
    have he : (Table.records (utf8 registry)).map Table.Record.row = rows.map .ok := hr
    rw [he, List.getElem?_map, hi]
    rfl
  rw [List.getElem?_map] at hitem
  have ⟨record, hrecord, hok⟩ := Option.map_eq_some_iff.mp hitem
  have ⟨front, gap, rest, hp, hpos⟩ := Table.exists_place hrecord
  refine ⟨front, gap, ⟨rows, _, row, rest, hr, hi, hrow, ?_, hp⟩, ?_⟩
  · rwa [hrows, List.take_left]
  · rw [Row.Error.line_eq hrow, Table.Record.line_eq hok, hpos, hp.start_line]

-- The line in the error is the row's, and the excerpt in the report is that line, exactly if no
-- line feed has been passed over.
theorem line_of_generate_error {registry name : String} {format : Format} {error : Row.Error}
    (h : generate registry name format = .error (.compile (.row error))) (path : String) :
    ∃ front gap, error.ComesAfter registry front gap ∧
      error.line = 1 + front.count lineFeed ∧
      (error.line = 1 + (front ++ gap).count lineFeed ↔ lineFeed ∉ gap) ∧
      ∃ excerpt, (Report.ofError (.compile (.row error)) path registry).excerpt = some excerpt ∧
        excerpt.text = registry ∧
        (Text.IsLineOf registry (front ++ gap).length excerpt.span ↔ lineFeed ∉ gap) := by
  have ⟨front, gap, hc, hline⟩ := exists_comesAfter h
  have ⟨_, _, _, rest, _, _, _, _, hp⟩ := hc
  have hgap : lineFeed ∉ gap ↔ front.count lineFeed = (front ++ gap).count lineFeed := by
    rw [List.count_append, ← List.count_eq_zero]
    omega
  refine ⟨front, gap, hc, hline, by rw [hgap, hline, Nat.add_left_cancel_iff], ?_⟩
  have hs : (Report.ofError (.compile (.row error)) path registry).excerpt =
      some ⟨path, registry, Text.lineSpan registry (front.count lineFeed + 1), error.message⟩ := by
    have hl : (GenerateError.compile (.row error)).line? = some (front.count lineFeed + 1) := by
      rw [Nat.add_comm, ← hline]
      rfl
    rw [Report.ofError, hl]
    rfl
  refine ⟨_, hs, rfl, ?_⟩
  rw [Text.isLineOf_lineSpan_iff hp.length_lt, hgap, hp.take_eq]
  rfl

theorem line_of_row_after_quoted_line_feed :
    generate "\uFEFFTag,\"Descrip\ntion\",Default\rzero,Slashed Zero" "registry.csv" .cpp =
      .error (.compile (.row (.missingFlag 2 "zero"))) ∧
    ∃ front gap, (Row.Error.missingFlag 2 "zero").ComesAfter
        "\uFEFFTag,\"Descrip\ntion\",Default\rzero,Slashed Zero" front gap ∧
      2 = 1 + front.count lineFeed := by
  have hr : Table.read (.ofText "\uFEFFTag,\"Descrip\ntion\",Default\rzero,Slashed Zero") =
      [.ok ⟨1, "Tag", "Descrip\ntion", some "Default"⟩, .ok ⟨2, "zero", "Slashed Zero", none⟩] :=
    @Table.Record.map_row_of_fields_eq _ [(⟨1, 0, 0⟩, ["Tag", "Descrip\ntion", "Default"]),
      (⟨2, 30, 1⟩, ["zero", "Slashed Zero"])] (by decide)
  have h : generate "\uFEFFTag,\"Descrip\ntion\",Default\rzero,Slashed Zero" "registry.csv" .cpp =
      .error (.compile (.row (.missingFlag 2 "zero"))) := by
    rw [generate, generateFrom, compileSource, hr]
    rfl
  obtain ⟨front, gap, hc, hl, _⟩ := line_of_generate_error h "registry.csv"
  exact ⟨h, front, gap, hc, hl⟩

-- Of a carriage return and a line feed the first ends a record, and the second is passed over.
theorem line_of_row_after_carriage_return :
    generate "frac,Fractions,1\r\nzero,Slashed Zero,x\r\n" "registry.csv" .rust =
      .error (.compile (.row (.malformedFlag 1 "zero" "x"))) ∧
    (Row.Error.malformedFlag 1 "zero" "x").ComesAfter
      "frac,Fractions,1\r\nzero,Slashed Zero,x\r\n" (utf8 "frac,Fractions,1\r") [lineFeed] ∧
    (Row.Error.malformedFlag 1 "zero" "x").line ≠
      1 + (utf8 "frac,Fractions,1\r" ++ [lineFeed]).count lineFeed := by
  have hr : Table.read (.ofText "frac,Fractions,1\r\nzero,Slashed Zero,x\r\n") =
      [.ok ⟨1, "frac", "Fractions", some "1"⟩, .ok ⟨1, "zero", "Slashed Zero", some "x"⟩] :=
    @Table.Record.map_row_of_fields_eq _ [(⟨1, 0, 0⟩, ["frac", "Fractions", "1"]),
      (⟨1, 17, 1⟩, ["zero", "Slashed Zero", "x"])] (by decide)
  refine ⟨?generated, ⟨[⟨1, "frac", "Fractions", some "1"⟩, ⟨1, "zero", "Slashed Zero", some "x"⟩],
    1, _, utf8 "zero,Slashed Zero,x\r\n", hr, rfl, rfl, ?before, ?place⟩, by decide⟩
  case generated =>
    rw [generate, generateFrom, compileSource, hr]
    rfl
  case before =>
    intro r hm
    cases List.mem_singleton.mp hm
    exact ⟨[⟨"frac"⟩], rfl⟩
  case place =>
    refine ⟨by decide, .inr ⟨utf8 "frac,Fractions,1", _, rfl, by decide⟩, by decide, ?_, ?_⟩
    · intro byte hb
      cases List.mem_singleton.mp hb
      rfl
    · exact ⟨_, rfl, by decide⟩

end TagRegistry
