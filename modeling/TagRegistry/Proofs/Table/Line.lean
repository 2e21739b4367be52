import TagRegistry.Proofs.Report
import TagRegistry.Proofs.Report.Excerpt

namespace TagRegistry

open Table (Place)
open Table.Position (lineFeed)
open Text (IsNthLine utf8 utf8Length)

namespace Table

-- The line that an item of a table carries.
def lineOf? : Except Error Row → Option Nat
  | .ok row      => some row.line
  | .error error => error.line?

theorem Record.lineOf?_row (record : Record) : lineOf? record.row = some record.position.line := by
  cases hr : record.row with
  | ok row => exact congrArg some (line_eq hr)
  | error error =>
    have ⟨_, _, _, _, _, _, he⟩ := row_eq_error_iff.mp hr
    rw [he]
    rfl

def lines (bytes : Bytes) : List Nat :=
  (records bytes).map fun record => record.position.line

theorem map_lineOf?_read (bytes : Bytes) :
    (read { bytes }).map lineOf? = (lines bytes).map some := by
  rw [read_of_no_failure, lines, List.map_map, List.map_map]
  apply List.map_congr_left
  intro record _
  exact record.lineOf?_row

theorem exists_place_of_lines {bytes : Bytes} {index line : Nat}
    (h : (lines bytes)[index]? = some line) : ∃ front gap rest,
      Place bytes index front gap rest ∧ line = 1 + front.count lineFeed := by
  rw [lines, List.getElem?_map] at h
  have ⟨record, hr, hl⟩ := Option.map_eq_some_iff.mp h
  have ⟨front, gap, rest, hp, he⟩ := exists_place hr
  exact ⟨front, gap, rest, hp, by rw [← hl, he, hp.start_line]⟩

theorem pairwise_lines (bytes : Bytes) : (lines bytes).Pairwise (· ≤ ·) := by
  rw [List.pairwise_iff_getElem]
  intro i j hi hj hij
  have ⟨front, _, _, hp, hl⟩ := exists_place_of_lines (List.getElem?_eq_getElem hi)
  have ⟨front', _, _, hp', hl'⟩ := exists_place_of_lines (List.getElem?_eq_getElem hj)
  rw [hl, hl']
  exact Nat.add_le_add_left ((hp.front_prefix_of_lt hp' hij).sublist.count_le lineFeed) 1

-- Before the first record nothing has ended but a byte order mark.
theorem Place.count_front_of_first {bytes front gap rest : Bytes}
    (h : Place bytes 0 front gap rest) :
    front.count lineFeed = 0 := by
  cases h.front_eq
  case inl hf =>
    rw [hf]
    split <;> rfl
  case inr hf =>
    have ⟨before, byte, he, hs⟩ := hf
    have hi := h.index_eq
    rw [he, scan_append (mark_prefix_of_step hs), Scanner.run_singleton,
      Scanner.step_of_isSome hs] at hi
    simp at hi

end Table

theorem Report.excerpt_of_row {error : Row.Error} {n : Nat} (h : error.line = n + 1)
    (path text : String) : (Report.ofError (.compile (.row error)) path text).excerpt =
      some ⟨path, text, Text.lineSpan text (n + 1), error.message⟩ := by
  have hl : (GenerateError.compile (.row error)).line? = some (n + 1) := congrArg some h
  rw [Report.ofError, hl]
  rfl

-- The line of a byte of a text is a line that the text has.
theorem Text.isNthLine_of_offset {text : String} {offset : Nat} (h : offset < (utf8 text).length) :
    ∃ before content,
      IsNthLine text (((utf8 text).take offset).count lineFeed) before content ∧
      lineSpan text (((utf8 text).take offset).count lineFeed + 1) =
        ⟨utf8Length before, utf8Length content⟩ ∧
      utf8Length before ≤ offset := by
  have ⟨before, content, ending, after, hc, hs, hb, ho⟩ := isLineOf_of_offset h
  refine ⟨.ofList before, .ofList content, ⟨ending, after, by simpa using hc, ?_, ?_⟩, ?_, ?_⟩
  · intro hn
    rw [String.toList_ofList] at hn
    rw [List.append_assoc, hn, List.append_nil] at ho
    exact absurd ho (Nat.not_lt.mpr hb)
  · rw [String.toList_ofList]
    exact (hc.count_take hb ho).symm
  · rw [utf8Length, utf8Length, utf8_ofList, utf8_ofList]
    exact hs
  · rwa [utf8Length, utf8_ofList]

-- The lines of a table's items go up, and an item's line is one more than the line feeds up to the
-- end of the record before. So is the line that a report shows, which the text has and which starts
-- no later than the row.
theorem lines_of_items :
    (∀ bytes, ∃ lines : List Nat,
      (Table.read { bytes }).map Table.lineOf? = lines.map some ∧
      (∀ line ∈ lines.head?, line = 1) ∧
      lines.Pairwise (· ≤ ·) ∧
      ∀ index line, lines[index]? = some line → ∃ front gap rest,
        Place bytes index front gap rest ∧
        line = 1 + front.count lineFeed ∧ line ≤ 1 + (front ++ gap).count lineFeed) ∧
    ∀ registry name format error,
      generate registry name format = .error (.compile (.row error)) → ∀ path,
        ∃ front gap excerpt before content n,
          error.ComesAfter registry front gap ∧
          (Report.ofError (.compile (.row error)) path registry).excerpt = some excerpt ∧
          excerpt.text = registry ∧
          error.line = n + 1 ∧ IsNthLine registry n before content ∧
          excerpt.span = ⟨utf8Length before, utf8Length content⟩ ∧
          excerpt.span.offset ≤ (front ++ gap).length := by
  constructor
  case left =>
    intro bytes
    refine ⟨Table.lines bytes, Table.map_lineOf?_read bytes, ?first, Table.pairwise_lines bytes,
      fun index line h => ?place⟩
    case first =>
      intro line h
      rw [Option.mem_def, List.head?_eq_getElem?] at h
      have ⟨_, _, _, hp, hl⟩ := Table.exists_place_of_lines h
      rw [hl, hp.count_front_of_first]
    case place =>
      have ⟨front, gap, rest, hp, hl⟩ := Table.exists_place_of_lines h
      refine ⟨front, gap, rest, hp, hl, ?_⟩
      rw [hl, List.count_append]
      omega
  case right =>
    intro registry name format error h path
    have ⟨front, gap, hc, hl⟩ := exists_comesAfter h
    have ⟨_, _, _, rest, _, _, _, _, hp⟩ := hc
    rw [Nat.add_comm] at hl
    have hlt : front.length < (utf8 registry).length := by
      have := hp.length_lt
      rw [List.length_append] at this
      omega
    have ht : (utf8 registry).take front.length = front :=
      (List.prefix_iff_eq_take.mp hp.front_prefix).symm
    have ⟨before, content, hn, hs, hb⟩ := Text.isNthLine_of_offset hlt
    rw [ht] at hn hs
    refine ⟨front, gap, _, before, content, _, hc, Report.excerpt_of_row hl path registry, rfl, hl,
      hn, hs, ?_⟩
    rw [hs, List.length_append]
    exact Nat.le_add_right_of_le hb

theorem lines_of_items_quotedLineFeed :
    generate "frac,\"Frac\ntions\",1\nzero,Slashed Zero,x" "registry.csv" .rust =
      .error (.compile (.row (.malformedFlag 3 "zero" "x"))) ∧
    ∃ front gap excerpt before content,
      (Row.Error.malformedFlag 3 "zero" "x").ComesAfter
        "frac,\"Frac\ntions\",1\nzero,Slashed Zero,x" front gap ∧
      (Report.ofError (.compile (.row (.malformedFlag 3 "zero" "x"))) "registry.csv"
        "frac,\"Frac\ntions\",1\nzero,Slashed Zero,x").excerpt = some excerpt ∧
      IsNthLine "frac,\"Frac\ntions\",1\nzero,Slashed Zero,x" 2 before content ∧
      excerpt.span = ⟨utf8Length before, utf8Length content⟩ ∧
      excerpt.span.offset ≤ (front ++ gap).length := by
  have hr : Table.read (.ofText "frac,\"Frac\ntions\",1\nzero,Slashed Zero,x") =
      [.ok ⟨1, "frac", "Frac\ntions", some "1"⟩, .ok ⟨3, "zero", "Slashed Zero", some "x"⟩] :=
    @Table.Record.map_row_of_fields_eq _ [(⟨1, 0, 0⟩, ["frac", "Frac\ntions", "1"]),
      (⟨3, 20, 1⟩, ["zero", "Slashed Zero", "x"])] (by decide)
  have h : generate "frac,\"Frac\ntions\",1\nzero,Slashed Zero,x" "registry.csv" .rust =
      .error (.compile (.row (.malformedFlag 3 "zero" "x"))) := by
    rw [generate, generateFrom, compileSource, hr]
    rfl
  obtain ⟨front, gap, excerpt, before, content, n, hc, he, _, hl, hn, hs, ho⟩ :=
    lines_of_items.2 _ _ _ _ h "registry.csv"
  cases hl
  exact ⟨h, front, gap, excerpt, before, content, hc, he, hn, hs, ho⟩

end TagRegistry
