import TagRegistry.Generation.File
import TagRegistry.Proofs.Compilation
import TagRegistry.Proofs.Row
import TagRegistry.Proofs.Table.Text

namespace TagRegistry

theorem generateFile_of_readText {view : View} {path registry : String}
    (h : view.readText path = .ok registry) (format : Format) : generateFile view path format =
      (generate registry path format).mapError (Report.ofError · path registry) := by
  rw [generateFile, readRegistry, h]
  rfl

variable {registry : String} {rows : List Row}

-- The rows are gone over twice: all of them are classified before the first tag is checked.
theorem generate_eq (h : Table.read (.ofText registry) = rows.map .ok) (name : String)
    (format : Format) : generate registry name format = do
      let _ ← (rows.mapM Row.tags).mapError fun error => .compile (.row error)
      let codes ← (rows.mapM Row.codes).mapError .render
      return String.join ((Declaration.lines format name codes.flatten).map (· ++ "\n")) := by
  have hc : compileSource (.ofText registry) = compile rows := by
    rw [compileSource, h, compile]
  rw [generate, generateFrom, hc, compile_eq_mapM]
  cases ht : rows.mapM Row.tags
  case error => rfl
  case ok tagss =>
    change (render format name tagss.flatten).mapError _ = _
    rw [render, mapM_flatten, ← Row.mapM_codes_eq ht]
    cases rows.mapM Row.codes <;> rfl

theorem exists_generate_iff (h : Table.read (.ofText registry) = rows.map .ok) (name : String)
    (format : Format) : (∃ code, generate registry name format = .ok code) ↔
      (∃ tagss, rows.mapM Row.tags = .ok tagss) ∧ ∃ codes, rows.mapM Row.codes = .ok codes := by
  rw [generate_eq h]
  cases rows.mapM Row.tags <;> cases rows.mapM Row.codes <;>
    simp [Except.mapError, bind, Except.bind, pure, Except.pure]

theorem generate_eq_error_iff (h : Table.read (.ofText registry) = rows.map .ok) (name : String)
    (format : Format) (error : GenerateError) : generate registry name format = .error error ↔
      (∃ e, error = .compile (.row e) ∧ rows.mapM Row.tags = .error e) ∨
      (∃ e, error = .render e ∧ (∃ tagss, rows.mapM Row.tags = .ok tagss) ∧
        rows.mapM Row.codes = .error e) := by
  rw [generate_eq h]
  cases rows.mapM Row.tags <;> cases rows.mapM Row.codes <;>
    simp [Except.mapError, bind, Except.bind, pure, Except.pure, eq_comm]

-- A row that cannot be classified is reported even if it comes after a tag that cannot be rendered,
-- and neither the format nor the name of the registry has a say in what fails.
theorem generate_outcome (registry name : String) (format : Format) :
    ∃ rows : List Row, Table.read (.ofText registry) = rows.map .ok ∧
      ((∃ code, generate registry name format = .ok code) ↔
        (∀ row ∈ rows, row.IsClassified) ∧ ∀ row ∈ rows, row.IsDefaultRow → row.IsRenderable) ∧
      (∀ error, generate registry name format = .error error ↔
        (∃ e, error = .compile (.row e) ∧ Row.FirstFaulty rows e) ∨
        (∃ e, error = .render e ∧ (∀ row ∈ rows, row.IsClassified) ∧
          Row.FirstUnrenderable rows e)) ∧
      ∀ name' format',
        ((∃ code, generate registry name' format' = .ok code) ↔
          ∃ code, generate registry name format = .ok code) ∧
        ∀ error, generate registry name' format' = .error error ↔
          generate registry name format = .error error := by
  have ⟨rows, h⟩ := Table.exists_rows_of_text registry
  refine ⟨rows, h, ?success, ?failure, ?independent⟩
  case success =>
    rw [exists_generate_iff h, Row.exists_mapM_tags_iff, exists_mapM_iff]
    apply and_congr_right
    intro hc
    constructor <;> intro hr row hm
    case mp  => exact (Row.exists_codes_iff (hc row hm)).mp (hr row hm)
    case mpr => exact (Row.exists_codes_iff (hc row hm)).mpr (hr row hm)
  case failure =>
    intro error
    simp only [generate_eq_error_iff h, mapM_eq_error_iff, Row.firstFailure_tags_iff,
      Row.exists_mapM_tags_iff]
    apply or_congr_right
    apply exists_congr
    intro e
    apply and_congr_right
    intro _
    apply and_congr_right
    intro hc
    exact Row.firstFailure_codes_iff hc
  case independent =>
    intro name' format'
    refine ⟨?_, fun error => ?_⟩
    · rw [exists_generate_iff h, exists_generate_iff h]
    · rw [generate_eq_error_iff h, generate_eq_error_iff h]

end TagRegistry
