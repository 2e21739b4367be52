import TagRegistry.Proofs.Generation
import TagRegistry.Proofs.Tree

namespace TagRegistry

variable {view : View} {path : String} {format : Format}

-- The file cannot be read, or it is no text.
def View.Unreadable (view : View) (path : String) (cause : Tree.Error) : Prop :=
  view.read path = .error cause ∨
    cause = .notText ∧ ∃ bytes, view.read path = .ok bytes ∧ ¬Text.IsValid bytes

theorem View.readText_eq_error_iff {cause : Tree.Error} :
    view.readText path = .error cause ↔ view.Unreadable path cause := by
  rw [readText, bind_eq_error_iff, Unreadable]
  apply or_congr_right
  constructor
  case mp =>
    rintro ⟨bytes, hr, he⟩
    split at he
    case h_1 => cases he
    case h_2 hn =>
      cases he
      exact ⟨rfl, bytes, hr, Text.ofUtf8?_eq_none_iff.mp hn⟩
  case mpr =>
    rintro ⟨hc, bytes, hr, hn⟩
    exact ⟨bytes, hr, by rw [Text.ofUtf8?_eq_none_iff.mpr hn, hc]⟩

theorem exists_row_of_compileSource {text : String} {error : CompileError}
    (h : compileSource (.ofText text) = .error error) : ∃ e, .row e = error := by
  have ⟨rows, hr⟩ := Table.exists_rows_of_text text
  have hc : compileSource (.ofText text) = compile rows := by
    rw [compileSource, hr, compile]
  rw [hc, compile_eq_mapM, mapError_eq_error_iff] at h
  obtain ⟨e, _, he⟩ := h
  exact ⟨e, he⟩

theorem compileFile_eq_error_iff {error : CompileError} : compileFile view path = .error error ↔
    (∃ cause, view.Unreadable path cause ∧ CompileError.unreadable path cause = error) ∨
      ∃ registry e, view.read path = .ok (Text.utf8 registry) ∧
        compileSource (.ofText registry) = .error (.row e) ∧ .row e = error := by
  simp only [compileFile, readRegistry, bind_eq_error_iff, mapError_eq_error_iff,
    mapError_eq_ok_iff, View.readText_eq_error_iff, View.readText_eq_ok_iff]
  apply or_congr_right
  constructor
  case mp =>
    rintro ⟨registry, hr, hc⟩
    obtain ⟨e, he⟩ := exists_row_of_compileSource hc
    exact ⟨registry, e, hr, he ▸ hc, he⟩
  case mpr =>
    rintro ⟨registry, e, hr, hc, he⟩
    exact ⟨registry, hr, he ▸ hc⟩

-- What a text can be refused for: one of its rows, or one of its tags.
inductive GenerateError.OfText : GenerateError → Prop
  | row (error : Row.Error) : OfText (.compile (.row error))
  | tag (error : Code.Error) : OfText (.render error)

theorem ofText_of_generate {text name : String} {error : GenerateError}
    (h : generate text name format = .error error) : error.OfText := by
  have ⟨rows, hr⟩ := Table.exists_rows_of_text text
  rcases (generate_eq_error_iff hr name format error).mp h with ⟨e, he, _⟩ | ⟨e, he, _⟩
  · exact he ▸ .row e
  · exact he ▸ .tag e

theorem generateFile_eq_ok_iff {code : String} : generateFile view path format = .ok code ↔
    ∃ registry, view.read path = .ok (Text.utf8 registry) ∧
      generate registry path format = .ok code := by
  simp only [← View.readText_eq_ok_iff]
  cases hr : view.readText path with
  | ok registry => simp [generateFile_of_readText hr, mapError_eq_ok_iff]
  | error cause => simp [generateFile, readRegistry, hr, Except.mapError]

theorem generateFile_eq_error_iff {report : Report} :
    generateFile view path format = .error report ↔
      (∃ cause, view.Unreadable path cause ∧
        { message := (CompileError.unreadable path cause).message } = report) ∨
      ∃ registry error, view.read path = .ok (Text.utf8 registry) ∧
        generate registry path format = .error error ∧
        Report.ofError error path registry = report := by
  simp only [← View.readText_eq_ok_iff, ← View.readText_eq_error_iff]
  cases hr : view.readText path with
  | ok registry => simp [generateFile_of_readText hr, mapError_eq_error_iff]
  | error cause => simp [generateFile, readRegistry, hr, Except.mapError]

-- An error of the table itself is never among the failures: the places where a text is cut are
-- between its characters.
theorem failures_of_text (text name : String) (tree : Tree) (path : String) (format : Format) :
    (∀ item ∈ Table.read (.ofText text), ∃ row, item = .ok row) ∧
    (∀ error, generate text name format = .error error → error.OfText) ∧
    (∀ error, compileFile tree.view path = .error error ↔
      (∃ cause, tree.view.Unreadable path cause ∧ CompileError.unreadable path cause = error) ∨
      ∃ registry e, tree.read path = .ok (Text.utf8 registry) ∧
        compileSource (.ofText registry) = .error (.row e) ∧ .row e = error) ∧
    ∀ report, generateFile tree.view path format = .error report ↔
      (∃ cause, tree.view.Unreadable path cause ∧
        { message := (CompileError.unreadable path cause).message } = report) ∨
      ∃ registry error, tree.read path = .ok (Text.utf8 registry) ∧ error.OfText ∧
        generate registry path format = .error error ∧
        Report.ofError error path registry = report := by
  refine ⟨?items, fun _ => ofText_of_generate, fun _ => compileFile_eq_error_iff, ?generate⟩
  case items =>
    have ⟨rows, hr⟩ := Table.exists_rows_of_text text
    intro item hm
    rw [hr] at hm
    have ⟨row, _, he⟩ := List.mem_map.mp hm
    exact ⟨row, he.symm⟩
  case generate =>
    intro report
    rw [generateFile_eq_error_iff]
    apply or_congr_right
    constructor
    case mp =>
      intro ⟨registry, error, hr, hg, he⟩
      exact ⟨registry, error, hr, ofText_of_generate hg, hg, he⟩
    case mpr =>
      intro ⟨registry, error, hr, _, hg, he⟩
      exact ⟨registry, error, hr, hg, he⟩

end TagRegistry
