import TagRegistry.Proofs.Compilation
import TagRegistry.Proofs.Table.Place
import TagRegistry.Proofs.Table.Shift
import TagRegistry.Proofs.Table.Text

namespace TagRegistry

namespace Table

-- How far `bytes` moves what comes after it.
def extent (bytes : Bytes) : Offset where
  lines := bytes.count Position.lineFeed
  bytes := bytes.length
  records := (read { bytes }).length

-- The last byte of `bytes` ends a record.
def IsCut (bytes : Bytes) : Prop :=
  ∃ front byte, bytes = front ++ [byte] ∧ ((scan front).2.step byte).1.isSome

theorem EndsRecord.isCut {bytes : Bytes} (h : EndsRecord bytes) : IsCut bytes := by
  have ⟨front, hb, _⟩ := h
  exact ⟨front, Position.lineFeed, hb, endsRecord_iff_isSome.mp (hb ▸ h)⟩

namespace IsCut

variable {bytes bytes₁ bytes₂ : Bytes}

theorem mark_prefix (h : IsCut bytes) {rest : Bytes} (hm : mark <+: bytes ++ rest) :
    mark <+: bytes := by
  obtain ⟨front, byte, rfl, hs⟩ := h
  rw [List.append_assoc] at hm
  exact (mark_prefix_of_step hs hm).trans (List.prefix_append ..)

theorem ne_mark (h : IsCut bytes) (rest : Bytes) : bytes ++ rest ≠ mark := by
  obtain ⟨front, byte, rfl, hs⟩ := h
  intro hm
  have hp : mark <+: front ++ byte :: rest := ⟨[], by simp [← hm]⟩
  have hl := (mark_prefix_of_step hs hp).length_le
  rw [← hm] at hl
  simp only [List.length_append, List.length_cons] at hl
  omega

-- Nothing is in hand after the end of a record.
theorem scan_snd (h : IsCut bytes) :
    (scan bytes).2 = .between (scan bytes).2.here (scan bytes).2.here := by
  obtain ⟨front, byte, rfl, hs⟩ := h
  rw [Table.scan_append (mark_prefix_of_step hs), Scanner.run_singleton, Scanner.step_of_isSome hs]
  rfl

theorem records_eq (h : IsCut bytes) : records bytes = (scan bytes).1 := by
  rw [records, h.scan_snd]
  simp [Scanner.pending?, Scanner.between]

-- The scanner that has read the first table is one that has read nothing, further down.
theorem scan_snd_eq_shift (h : IsCut bytes) :
    (scan bytes).2 = (initial false).shift (extent bytes) := by
  rw [h.scan_snd, here_scan]
  simp [initial, Scanner.shift, Scanner.between, Position.shift, Position.after, Position.start,
    extent, read_of_no_failure, h.records_eq]

theorem scan_append (h : IsCut bytes₁) (hm : ¬mark <+: bytes₂) :
    scan (bytes₁ ++ bytes₂) =
      ((scan bytes₁).1 ++ (scan bytes₂).1.map (Record.shift (extent bytes₁)),
        (scan bytes₂).2.shift (extent bytes₁)) := by
  rw [Table.scan_append h.mark_prefix, h.scan_snd_eq_shift, Scanner.run_shift, scan_of_no_mark hm]

end IsCut

theorem map_row_shift (offset : Offset) (records : List Record) :
    (records.map (Record.shift offset)).map Record.row =
      (records.map Record.row).map (shiftItem offset) := by
  simp only [List.map_map, Function.comp_def, Record.row_shift]

-- The second table is read as if it stood alone, only further down.
theorem read_append {bytes₁ bytes₂ : Bytes} (h : IsCut bytes₁) (hm : ¬mark <+: bytes₂)
    (failure : Option String) :
    read { bytes := bytes₁ ++ bytes₂, failure } =
      read { bytes := bytes₁ } ++
        (read { bytes := bytes₂, failure }).map (shiftItem (extent bytes₁)) := by
  have hr : read { bytes := bytes₁ } = (scan bytes₁).1.map Record.row := by
    rw [read_of_no_failure, h.records_eq]
  cases failure with
  | none =>
    have hp : ((scan bytes₂).2.pending?.map (Record.shift (extent bytes₁))).toList =
        (scan bytes₂).2.pending?.toList.map (Record.shift (extent bytes₁)) := by
      cases (scan bytes₂).2.pending? <;> rfl
    rw [hr, read_of_no_failure, read_of_no_failure, records, records, h.scan_append hm,
      Scanner.pending?_shift, hp, ← map_row_shift]
    simp only [List.map_append, List.append_assoc]
  | some cause =>
    have hne : bytes₂ ≠ mark := by
      intro he
      subst he
      exact hm (List.prefix_refl mark)
    rw [hr, read_of_failure (h.ne_mark bytes₂), read_of_failure hne, h.scan_append hm]
    simp only [List.map_append, map_row_shift, List.append_assoc]
    rfl

end Table

theorem CompileError.shift_zero (error : CompileError) : error.shift ⟨0, 0, 0⟩ = error := by
  cases error with
  | unreadable => rfl
  | table error => cases error <;> rfl
  | row error => cases error <;> rfl

-- What the second table holds is not looked at if the first fails.
theorem compileSource_append {bytes₁ bytes₂ : Bytes}
    (h : bytes₁ = [] ∨ Table.EndsRecord bytes₁) (hm : bytes₁ = [] ∨ ¬Table.mark <+: bytes₂)
    (failure : Option String) :
    compileSource { bytes := bytes₁ ++ bytes₂, failure } =
      match compileSource { bytes := bytes₁ }, compileSource { bytes := bytes₂, failure } with
      | .error error, _ => .error error
      | .ok _, .error error => .error (error.shift (Table.extent bytes₁))
      | .ok tags₁, .ok tags₂ => .ok (tags₁ ++ tags₂) := by
  by_cases hn : bytes₁ = []
  case pos =>
    subst hn
    change compileSource { bytes := bytes₂, failure } = _
    have h₁ : compileSource { bytes := [] } = .ok [] := rfl
    have h₂ : Table.extent [] = ⟨0, 0, 0⟩ := rfl
    rw [h₁, h₂]
    cases compileSource { bytes := bytes₂, failure } <;> simp [CompileError.shift_zero]
  case neg =>
    have h := h.resolve_left hn
    have hm := hm.resolve_left hn
    simp only [compileSource, Table.read_append h.isCut hm, compileItems_append,
      compileItems_shift]
    cases compileItems (Table.read { bytes := bytes₁ })
    case error => rfl
    case ok => cases compileItems (Table.read { bytes := bytes₂, failure }) <;> rfl

theorem compileSource_append_missing_flag :
    Table.EndsRecord (Text.utf8 "ss01-ss02,Sets,1\n") ∧
    ¬Table.mark <+: Text.utf8 "liga,\"Common\nLigatures\",1\nzero\n" ∧
    compileSource {
      bytes   := Text.utf8 "ss01-ss02,Sets,1\n" ++
        Text.utf8 "liga,\"Common\nLigatures\",1\nzero\n"
      failure := some "read failed" } = .error (.row (.missingFlag 4 "zero")) := by
  have h : Table.EndsRecord (Text.utf8 "ss01-ss02,Sets,1\n") :=
    ⟨Text.utf8 "ss01-ss02,Sets,1", by decide, by decide⟩
  have hm : ¬Table.mark <+: Text.utf8 "liga,\"Common\nLigatures\",1\nzero\n" := by
    decide
  have h₁ : compileSource { bytes := Text.utf8 "ss01-ss02,Sets,1\n" } =
      .ok [⟨"ss01"⟩, ⟨"ss02"⟩] := by
    rw [compileSource, Table.read_of_no_failure,
      @Table.Record.map_row_of_fields_eq _ [(⟨1, 0, 0⟩, ["ss01-ss02", "Sets", "1"])] (by decide)]
    rfl
  have h₂ : compileSource {
      bytes   := Text.utf8 "liga,\"Common\nLigatures\",1\nzero\n"
      failure := some "read failed" } = .error (.row (.missingFlag 3 "zero")) := by
    rw [compileSource, Table.read_of_failure (by decide),
      @Table.Record.map_row_of_fields_eq _ [(⟨1, 0, 0⟩, ["liga", "Common\nLigatures", "1"]),
        (⟨3, 26, 1⟩, ["zero"])] (by decide)]
    rfl
  refine ⟨h, hm, ?_⟩
  rw [compileSource_append (.inr h) (.inr hm), h₁, h₂]
  rfl

end TagRegistry
