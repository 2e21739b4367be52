import Mathlib.Data.Set.List
import TagRegistry.Proofs.Table.Scan
import TagRegistry.Proofs.Text.Utf8

namespace TagRegistry.Table

open Text (utf8 encode IsValid)

namespace Record

theorem textsFrom_map_utf8 (position : Position) (field : Nat) (texts : List String) :
    textsFrom position field (texts.map utf8) = .ok texts := by
  induction texts generalizing field with
  | nil => rfl
  | cons text texts hi =>
    simp only [List.map_cons, textsFrom, Text.ofUtf8?_utf8, hi]
    rfl

theorem textsFrom_eq_ok_iff {position : Position} {field : Nat} {fields : List Bytes}
    {texts : List String} :
    textsFrom position field fields = .ok texts ↔ fields = texts.map utf8 := by
  constructor
  case mp =>
    intro h
    induction fields generalizing field texts with
    | nil =>
      cases h
      rfl
    | cons bytes fields hi =>
      rw [textsFrom] at h
      split at h
      case h_1 => cases h
      case h_2 text ht =>
        cases hr : textsFrom position (field + 1) fields with
        | error => rw [hr] at h; cases h
        | ok texts =>
          rw [hr] at h
          cases h
          rw [List.map_cons, ← hi hr, Text.ofUtf8?_eq_some_iff.mp ht]
  case mpr =>
    intro h
    exact h ▸ textsFrom_map_utf8 ..

theorem textsFrom_eq_error_iff {position : Position} {field : Nat} {fields : List Bytes}
    {error : Error} : textsFrom position field fields = .error error ↔
      ∃ before bytes after, fields = before ++ bytes :: after ∧ (∀ field ∈ before, IsValid field) ∧
        ¬IsValid bytes ∧
        error = .invalidText position (field + before.length) (Text.validLength bytes) := by
  induction fields generalizing field with
  | nil => simp [textsFrom]
  | cons bytes fields hi =>
    rw [textsFrom]
    split
    case h_1 hn =>
      have hn := Text.ofUtf8?_eq_none_iff.mp hn
      constructor
      case mp =>
        intro h
        cases h
        exact ⟨[], bytes, fields, rfl, by simp, hn, rfl⟩
      case mpr =>
        intro ⟨before, _, _, hs, hb, _, he⟩
        cases before with
        | nil =>
          cases hs
          rw [he]
          rfl
        | cons =>
          cases hs
          exact absurd (hb bytes List.mem_cons_self) hn
    case h_2 text ht =>
      have hv : IsValid bytes := ⟨text, Text.utf8_of_ofUtf8? ht⟩
      have hm : (textsFrom position (field + 1) fields).map (text :: ·) = .error error ↔
          textsFrom position (field + 1) fields = .error error := by
        cases textsFrom position (field + 1) fields <;> simp [Except.map]
      rw [hm, hi]
      constructor
      case mp =>
        intro ⟨before, failing, after, hs, hb, hn, he⟩
        refine ⟨bytes :: before, failing, after, by rw [hs, List.cons_append],
          List.forall_mem_cons.mpr ⟨hv, hb⟩, hn, ?_⟩
        rw [he, List.length_cons, Nat.add_assoc, Nat.add_comm 1]
      case mpr =>
        intro ⟨before, failing, after, hs, hb, hn, he⟩
        cases before with
        | nil =>
          cases hs
          exact absurd hv hn
        | cons _ before =>
          cases hs
          refine ⟨before, failing, after, rfl, (List.forall_mem_cons.mp hb).right, hn, ?_⟩
          rw [he, List.length_cons, Nat.add_assoc, Nat.add_comm 1]

def IsText (record : Record) : Prop :=
  ∃ texts : List String, record.fields = texts.map utf8

theorem isText_iff {record : Record} : record.IsText ↔ ∀ bytes ∈ record.fields, IsValid bytes := by
  have h : record.fields ∈ Set.range (List.map utf8) ↔
      record.fields ∈ {fields | ∀ bytes ∈ fields, bytes ∈ Set.range utf8} := by
    rw [Set.range_list_map]
  simpa [IsText, IsValid, eq_comm] using h

theorem row_of_fields_eq {record : Record} {texts : List String}
    (h : record.fields = texts.map utf8) :
    record.row = .ok (Row.ofFields record.position.line texts) := by
  rw [row, h, textsFrom_map_utf8]
  rfl

theorem row_eq_ok_iff {record : Record} {row : Row} : record.row = .ok row ↔
    ∃ texts : List String, record.fields = texts.map utf8 ∧
      Row.ofFields record.position.line texts = row := by
  simp only [← @textsFrom_eq_ok_iff record.position 0]
  rw [Record.row]
  cases textsFrom record.position 0 record.fields <;> simp [Except.map]

theorem row_eq_error_iff {record : Record} {error : Error} : record.row = .error error ↔
    ∃ before bytes after, record.fields = before ++ bytes :: after ∧
      (∀ field ∈ before, IsValid field) ∧ ¬IsValid bytes ∧
      error = .invalidText record.position before.length (Text.validLength bytes) := by
  have h := @textsFrom_eq_error_iff record.position 0 record.fields error
  simp only [Nat.zero_add] at h
  rw [← h, Record.row]
  cases textsFrom record.position 0 record.fields <;> simp [Except.map]

theorem map_row_of_fields_eq {records : List Record} {texts : List (Position × List String)}
    (h : records = texts.map fun t => ⟨t.1, t.2.map utf8⟩) :
    records.map row = texts.map fun t => .ok (Row.ofFields t.1.line t.2) := by
  rw [h, List.map_map]
  apply List.map_congr_left
  intro t _
  exact row_of_fields_eq rfl

theorem IsText.exists_row {record : Record} : record.IsText → ∃ row, record.row = .ok row
  | ⟨_, h⟩ => ⟨_, row_of_fields_eq h⟩

end Record

namespace Scanner

-- What the scanner has in hand was cut from a text between characters.
structure HoldsText (s : Scanner) : Prop where
  fields : ∃ texts : List String, s.fields = texts.map utf8
  field : ∃ chars, s.field.reverse = encode chars

namespace HoldsText

variable {s : Scanner}

theorem between (start here : Position) : (Scanner.between start here).HoldsText where
  fields := ⟨[], rfl⟩
  field := ⟨[], rfl⟩

theorem endField (h : s.HoldsText) : ∃ texts : List String,
    s.field.reverse :: s.fields = texts.map utf8 := by
  have ⟨texts, hf⟩ := h.fields
  have ⟨chars, hc⟩ := h.field
  exact ⟨String.ofList chars :: texts, by rw [List.map_cons, Text.utf8_ofList, hf, hc]⟩

theorem record (h : s.HoldsText) : s.record.IsText := by
  have ⟨texts, ht⟩ := h.endField
  exact ⟨texts.reverse, by rw [Scanner.record, ht, List.map_reverse]⟩

theorem keep (h : s.HoldsText) (chars : List Char) : (s.keep (encode chars)).HoldsText where
  fields := h.fields
  field := by
    have ⟨before, hb⟩ := h.field
    exact ⟨before ++ chars, by simp [Scanner.keep, hb]⟩

-- A structural byte is a character of its own, so what is before it and after it are texts.
theorem step (h : s.HoldsText) {c : Char} {byte : UInt8} (hc : String.utf8EncodeChar c = [byte]) :
    (∀ record ∈ (s.step byte).1, record.IsText) ∧ (s.step byte).2.HoldsText := by
  rcases hr : s.mode.read byte with ⟨mode, action⟩
  cases action
  case skip =>
    simp only [Scanner.step, hr]
    exact ⟨by simp, h.fields, h.field⟩
  case keep =>
    have hk := h.keep [c]
    rw [Text.encode_cons, hc] at hk
    rw [step_of_keep hr]
    exact ⟨by simp, hk.fields, hk.field⟩
  case endField =>
    simp only [Scanner.step, hr]
    exact ⟨by simp, h.endField, [], rfl⟩
  case endRecord =>
    simp only [Scanner.step, hr]
    refine ⟨?_, between _ _⟩
    rintro _ ⟨⟩
    exact h.record

theorem run_char (h : s.HoldsText) (c : Char) :
    (∀ record ∈ (s.run (String.utf8EncodeChar c)).1, record.IsText) ∧
      (s.run (String.utf8EncodeChar c)).2.HoldsText := by
  by_cases hc : c.toNat < 0x80
  case pos =>
    have he := Text.utf8EncodeChar_of_lt hc
    have ⟨hr, hs⟩ := h.step he
    rw [he, run_cons]
    exact ⟨by simpa [run] using hr, hs⟩
  case neg =>
    have hb := Text.le_of_mem_utf8EncodeChar (Nat.le_of_not_lt hc)
    have hk := h.keep [c]
    rw [Text.encode_cons, Text.encode_nil, List.append_nil] at hk
    rw [run_of_not_structural String.utf8EncodeChar_ne_nil
      fun byte hm => Mode.not_structural_of_le (hb byte hm)]
    exact ⟨by simp, hk.fields, hk.field⟩

theorem run (h : s.HoldsText) (chars : List Char) :
    (∀ record ∈ (s.run (encode chars)).1, record.IsText) ∧ (s.run (encode chars)).2.HoldsText := by
  induction chars generalizing s with
  | nil => exact ⟨by simp [Scanner.run], h⟩
  | cons c chars hi =>
    obtain ⟨hr₁, hs₁⟩ := h.run_char c
    obtain ⟨hr₂, hs₂⟩ := hi hs₁
    rw [Text.encode_cons, run_append]
    refine ⟨?_, hs₂⟩
    intro record hm
    cases List.mem_append.mp hm
    case inl hm => exact hr₁ record hm
    case inr hm => exact hr₂ record hm

end HoldsText
end Scanner

theorem mark_eq : mark = String.utf8EncodeChar '\uFEFF' := by
  decide

theorem exists_of_mark_prefix {chars : List Char} (h : mark <+: encode chars) :
    ∃ rest, chars = '\uFEFF' :: rest := by
  obtain ⟨bytes, hb⟩ := h
  have hm := Text.firstChar?_utf8EncodeChar_append '\uFEFF' bytes
  rw [← mark_eq, hb] at hm
  cases chars with
  | nil => simp [Text.firstChar?] at hm
  | cons c chars =>
    rw [Text.encode_cons, Text.firstChar?_utf8EncodeChar_append] at hm
    cases hm
    exact ⟨chars, rfl⟩

-- All bytes that mean something to the scanner are ASCII, so no character is cut.
theorem scan_holdsText (chars : List Char) :
    (∀ record ∈ (scan (encode chars)).1, record.IsText) ∧
      (scan (encode chars)).2.HoldsText := by
  rw [scan]
  split
  case isTrue h =>
    obtain ⟨rest, rfl⟩ := exists_of_mark_prefix (List.isPrefixOf_iff_prefix.mp h)
    rw [Text.encode_cons, ← mark_eq, List.drop_left]
    exact (Scanner.HoldsText.between _ _).run rest
  case isFalse => exact (Scanner.HoldsText.between _ _).run chars

-- No item of a table is an error if all of its records are texts.
theorem exists_rows_of_isText {bytes : Bytes} (h : ∀ record ∈ records bytes, record.IsText) :
    ∃ rows : List Row, read { bytes } = rows.map .ok := by
  have hr : read { bytes } ∈ Set.range (List.map Except.ok) := by
    rw [Set.range_list_map, read_of_no_failure]
    intro item hm
    obtain ⟨record, hr, rfl⟩ := List.mem_map.mp hm
    have ⟨row, he⟩ := (h record hr).exists_row
    exact ⟨row, he.symm⟩
  have ⟨rows, hr⟩ := hr
  exact ⟨rows, hr.symm⟩

theorem records_isText (text : String) : ∀ record ∈ records (utf8 text), record.IsText := by
  have ⟨hr, hs⟩ := scan_holdsText text.toList
  intro record hm
  cases List.mem_append.mp hm
  case inl hm => exact hr record hm
  case inr hm =>
    simp only [Scanner.pending?, Option.mem_toList] at hm
    split at hm <;> cases hm
    exact hs.record

theorem exists_rows_of_text (text : String) :
    ∃ rows : List Row, read (.ofText text) = rows.map .ok :=
  exists_rows_of_isText (records_isText text)

end TagRegistry.Table
