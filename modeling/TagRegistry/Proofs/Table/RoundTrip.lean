import Mathlib.Data.List.Forall2
import TagRegistry.Proofs.Compilation
import TagRegistry.Proofs.Table.WrittenScan

namespace TagRegistry

namespace Table

open Text (utf8 encode)

namespace Written

-- A record that does not begin with a quote begins with its first field or with a comma.
theorem Record.head?_chars_ne {r : Record} (h : ∀ field ∈ r.fields.head?,
    field.quoted = false → field.text.toList.head? ≠ some '\uFEFF') (rest : List Char) :
    (r.chars ++ rest).head? ≠ some '\uFEFF' := by
  have ⟨f, fs, hfs⟩ := List.exists_cons_of_ne_nil r.fields_ne
  cases hq : f.quoted
  case true => cases fs <;> simp [Record.chars, hfs, Field.chars_of_quoted hq]
  case false =>
    have hc := Field.chars_of_plain hq
    have hf := h f (by simp [hfs]) hq
    cases ht : f.text.toList with
    | nil =>
      cases fs with
      | nil => exact absurd (String.toList_eq_nil_iff.mp ht) (r.not_blank f hfs hq)
      | cons g gs => simp [Record.chars, hfs, hc, ht]
    | cons c cs =>
      rw [ht] at hf
      cases fs <;> simpa [Record.chars, hfs, hc, ht] using hf

theorem head?_chars_ne {w : Written} (h : w.marked = false) : w.chars.head? ≠ some '\uFEFF' := by
  have hu := w.unmarked h
  rw [chars_of_not_marked h]
  cases hr : w.records with
  | nil => simp
  | cons r rs => exact Record.head?_chars_ne (hu r (by simp [hr])) _

end Written

theorem records_written (w : Written) :
    (records (utf8 w.text)).map Record.fields = w.contents.map (List.map utf8) := by
  have hf (marked : Bool) : ((initial marked).found
      (encode (w.records.flatMap Written.Record.chars))).map Record.fields =
        w.contents.map (List.map utf8) := by
    rw [initial, Scanner.found_records _ _ _ w.ended, Written.contents, List.map_map]
    rfl
  rw [Written.text, Text.utf8_ofList, records]
  cases hm : w.marked
  case true =>
    have hc : encode w.chars = mark ++ encode (w.records.flatMap Written.Record.chars) := by
      rw [Written.chars, if_pos hm, Text.encode_append, mark_eq]
      rfl
    rw [hc, scan_of_mark]
    exact hf true
  case false =>
    have hn : ¬mark <+: encode w.chars := by
      intro hp
      obtain ⟨rest, hc⟩ := exists_of_mark_prefix hp
      exact Written.head?_chars_ne hm (by rw [hc]; rfl)
    rw [scan_of_no_mark hn, Written.chars_of_not_marked hm]
    exact hf false

theorem exists_rows_of_fields {records : List Record} {contents : List (List String)}
    (h : records.map Record.fields = contents.map (List.map utf8)) :
    ∃ rows : List Row, records.map Record.row = rows.map .ok ∧
      List.Forall₂ (fun row texts => ∃ line, row = Row.ofFields line texts) rows contents := by
  induction contents generalizing records with
  | nil => exact ⟨[], by simpa using h, .nil⟩
  | cons texts contents hi =>
    cases records with
    | nil => cases h
    | cons record records =>
      have ⟨hf, hfs⟩ := List.cons_eq_cons.mp h
      have ⟨rows, hr, hall⟩ := hi hfs
      refine ⟨Row.ofFields record.position.line texts :: rows, ?_, .cons ⟨_, rfl⟩ hall⟩
      rw [List.map_cons, List.map_cons, hr, Record.row_of_fields_eq hf]

end Table

-- The row of a tag and a flag alone, from no table.
def Row.ofColumns (texts : List String) : Row where
  line        := 0
  tag         := texts[0]?.getD ""
  description := ""
  flag        := texts[2]?

def CompileError.withoutLine : CompileError → CompileError :=
  CompileError.mapLine fun _ => 0

theorem compile_ofFields {rows : List Row} {contents : List (List String)}
    (h : List.Forall₂ (fun row texts => ∃ line, row = Row.ofFields line texts) rows contents) :
    (compile rows).mapError CompileError.withoutLine = compile (contents.map Row.ofColumns) := by
  have hm : (rows.map (Row.mapLine fun _ => 0)).mapM Row.tags =
      (contents.map Row.ofColumns).mapM Row.tags := by
    induction h with
    | nil => rfl
    | @cons _ texts _ _ hr _ hi =>
      have ⟨line, hr⟩ := hr
      have ht : ((Row.ofFields line texts).mapLine fun _ => 0).tags = (Row.ofColumns texts).tags :=
        rfl
      rw [hr, List.map_cons, List.map_cons, List.mapM_cons, List.mapM_cons, ht, hi]
  rw [CompileError.withoutLine, ← compile_mapLine, compile_eq_mapM, compile_eq_mapM, hm]

namespace Table

-- However the records were written, their first three fields come back, and all that compiling them
-- tells of the table is the line in an error.
theorem read_written (w : Written) :
    (∃ rows : List Row, read (.ofText w.text) = rows.map .ok ∧
      List.Forall₂ (fun row texts => row.tag = texts[0]?.getD "" ∧
        row.description = texts[1]?.getD "" ∧ row.flag = texts[2]?) rows w.contents) ∧
    (compileSource (.ofText w.text)).mapError CompileError.withoutLine =
      compile (w.contents.map Row.ofColumns) := by
  have ⟨rows, hr, hall⟩ := exists_rows_of_fields (records_written w)
  have hread : read (.ofText w.text) = rows.map .ok := by
    rw [← hr]
    exact read_of_no_failure (Text.utf8 w.text)
  refine ⟨⟨rows, hread, hall.imp ?fields⟩, ?compiled⟩
  case fields =>
    intro row texts ⟨line, h⟩
    subst h
    exact ⟨rfl, rfl, rfl⟩
  case compiled =>
    rw [compileSource, hread]
    exact compile_ofFields hall

end Table
end TagRegistry
