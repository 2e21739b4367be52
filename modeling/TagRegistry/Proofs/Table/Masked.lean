import TagRegistry.Proofs.Table.Place
import TagRegistry.Proofs.Table.Text

namespace TagRegistry

open Text (utf8 IsValid)

namespace Table

-- The letter `x` in the place of a byte outside ASCII.
def mask (byte : UInt8) : UInt8 :=
  if byte < 0x80 then byte else 0x78

-- The mark of a table is not masked.
def masked (bytes : Bytes) : Bytes :=
  if mark.isPrefixOf bytes then mark ++ (bytes.drop mark.length).map mask else bytes.map mask

theorem mask_lt (byte : UInt8) : mask byte < 0x80 := by
  rw [mask]
  split
  case isTrue h  => exact h
  case isFalse => decide

theorem isValid_map_mask (bytes : Bytes) : IsValid (bytes.map mask) := by
  apply Text.isValid_of_lt
  intro byte hm
  have ⟨_, _, he⟩ := List.mem_map.mp hm
  exact he ▸ mask_lt _

theorem Position.past_mask (position : Position) (byte : UInt8) :
    position.past (mask byte) = position.past byte := by
  rw [mask]
  split
  case isTrue => rfl
  case isFalse h =>
    have hb : byte ≠ lineFeed := fun he => h (he ▸ by decide)
    rw [past, past, if_neg hb, if_neg (by decide)]

theorem Mode.read_mask (mode : Mode) (byte : UInt8) : mode.read (mask byte) = mode.read byte := by
  rw [mask]
  split
  case isTrue => rfl
  case isFalse h =>
    have hs := not_structural_of_le (UInt8.not_lt.mp h)
    rw [read_of_not_structural hs, read_of_not_structural rfl]

def Record.mask (record : Record) : Record :=
  { record with fields := record.fields.map (List.map Table.mask) }

def Scanner.mask (s : Scanner) : Scanner :=
  { s with fields := s.fields.map (List.map Table.mask), field := s.field.map Table.mask }

namespace Scanner

theorem step_mask (s : Scanner) (byte : UInt8) :
    s.mask.step (Table.mask byte) = ((s.step byte).1.map Record.mask, (s.step byte).2.mask) := by
  rcases h : s.mode.read byte with ⟨mode, action⟩
  cases action <;>
    simp [step, mask, Mode.read_mask, h, between, record, Record.mask, Position.past_mask]

theorem run_mask (s : Scanner) (bytes : Bytes) :
    s.mask.run (bytes.map Table.mask) =
      ((s.run bytes).1.map Record.mask, (s.run bytes).2.mask) := by
  induction bytes generalizing s with
  | nil => rfl
  | cons byte bytes hi =>
    rw [List.map_cons, run_cons, step_mask, hi, run_cons]
    cases (s.step byte).1 <;> simp

theorem pending?_mask (s : Scanner) : s.mask.pending? = s.pending?.map Record.mask := by
  by_cases h : s.mode = .outside <;> simp [pending?, mask, h, record, Record.mask]

theorem found_mask (s : Scanner) (bytes : Bytes) :
    s.mask.found (bytes.map Table.mask) = (s.found bytes).map Record.mask := by
  rw [found, found, run_mask, pending?_mask, List.map_append]
  cases (s.run bytes).2.pending? <;> rfl

end Scanner

-- The scanner does not tell the bytes outside ASCII from letters.
theorem records_masked (bytes : Bytes) :
    records (masked bytes) = (records bytes).map Record.mask := by
  by_cases hm : mark <+: bytes
  case pos =>
    obtain ⟨rest, rfl⟩ := hm
    have h : masked (mark ++ rest) = mark ++ rest.map mask := by
      rw [masked, if_pos (List.isPrefixOf_iff_prefix.mpr (List.prefix_append ..)), List.drop_left]
    rw [h, records, records, scan_of_mark, scan_of_mark]
    exact (initial true).found_mask rest
  case neg =>
    have h : masked bytes = bytes.map mask := by
      rw [masked, if_neg (mt List.isPrefixOf_iff_prefix.mp hm)]
    have hn : ¬mark <+: bytes.map mask := by
      intro hp
      obtain ⟨byte, _, hb⟩ := List.mem_map.mp (hp.subset (show (0xEF : UInt8) ∈ mark by decide))
      exact absurd (hb ▸ mask_lt byte) (by decide)
    rw [h, records, records, scan_of_no_mark hn, scan_of_no_mark hm]
    exact (initial false).found_mask bytes

theorem Record.isText_mask (record : Record) : record.mask.IsText := by
  rw [isText_iff]
  intro bytes hm
  have ⟨_, _, he⟩ := List.mem_map.mp hm
  exact he ▸ isValid_map_mask _

end Table

-- `row'` is `row` with all bytes masked that are outside ASCII.
structure Row.Masks (row row' : Row) : Prop where
  line_eq        : row'.line = row.line
  tag_eq         : utf8 row'.tag = (utf8 row.tag).map Table.mask
  description_eq : utf8 row'.description = (utf8 row.description).map Table.mask
  flag_eq        : row'.flag.map utf8 = row.flag.map fun flag => (utf8 flag).map Table.mask

theorem Row.masks_ofFields {texts texts' : List String} (line : Nat)
    (h : texts'.map utf8 = (texts.map utf8).map (List.map Table.mask)) :
    (ofFields line texts).Masks (ofFields line texts') := by
  have hi (i : Nat) : texts'[i]?.map utf8 =
      texts[i]?.map fun text => (utf8 text).map Table.mask := by
    have hi := congrArg (·[i]?) h
    simpa [Function.comp_def] using hi
  have hd (i : Nat) : utf8 (texts'[i]?.getD "") =
      (utf8 (texts[i]?.getD "")).map Table.mask := by
    have hi := hi i
    cases ht : texts[i]? <;> cases ht' : texts'[i]? <;> simp_all
    rfl
  exact ⟨rfl, hd 0, hd 1, hi 2⟩

namespace Table

-- What is read for the record with number `index`, if `row'` is read for it in the masked table.
inductive Reads (index : Nat) (record : Record) (row' : Row) : Except Error Row → Prop
  | row {row : Row} :
    (∀ field ∈ record.fields, IsValid field) → row.Masks row' → Reads index record row' (.ok row)
  | spoilt {position : Position} {before after : List Bytes} {bytes : Bytes} {validLength : Nat} :
    record.fields = before ++ bytes :: after → (∀ field ∈ before, IsValid field) →
      ¬IsValid bytes → IsGreatest {n | n ≤ bytes.length ∧ IsValid (bytes.take n)} validLength →
      position.record = index → position.line = row'.line →
      Reads index record row' (.error (.invalidText position before.length validLength))

theorem Record.reads {index : Nat} {record : Record} {row' : Row}
    (hi : record.position.record = index) (h : record.mask.row = .ok row') :
    Reads index record row' record.row := by
  have ⟨texts', hf', hr'⟩ := row_eq_ok_iff.mp h
  cases hr : record.row with
  | ok row =>
    have ⟨texts, hf, hr⟩ := row_eq_ok_iff.mp hr
    subst hr hr'
    refine .row (isText_iff.mp ⟨texts, hf⟩) (Row.masks_ofFields _ ?_)
    rw [← hf, ← hf']
    rfl
  | error error =>
    have ⟨before, bytes, after, hf, hb, hn, he⟩ := row_eq_error_iff.mp hr
    subst he hr'
    exact .spoilt hf hb hn (Text.isGreatest_validLength bytes) hi rfl

-- The masked table has a row for each record of the table, and the table an item: the same row but
-- for its bytes outside ASCII, or an error where these are no characters.
theorem read_masked (bytes : Bytes) :
    ∃ rows : List Row, read { bytes := masked bytes } = rows.map .ok ∧
      (records bytes).length = rows.length ∧ (read { bytes }).length = rows.length ∧
      ∀ index item row', (read { bytes })[index]? = some item → rows[index]? = some row' →
        ∃ record, (records bytes)[index]? = some record ∧
          (records (masked bytes))[index]? = some record.mask ∧ Reads index record row' item := by
  have ht : ∀ record ∈ records (masked bytes), record.IsText := by
    intro record hm
    rw [records_masked] at hm
    have ⟨record, _, he⟩ := List.mem_map.mp hm
    exact he ▸ record.isText_mask
  have ⟨rows, hr⟩ := exists_rows_of_isText ht
  have hl : (records bytes).length = rows.length := by
    have hl := congrArg List.length hr
    simpa [read_of_no_failure, records_masked] using hl
  refine ⟨rows, hr, hl, ?length, ?items⟩
  case length => rw [read_of_no_failure, List.length_map, hl]
  case items =>
    intro index item row' hi hi'
    rw [read_of_no_failure, List.getElem?_map, Option.map_eq_some_iff] at hi
    obtain ⟨record, hi, rfl⟩ := hi
    have hm : (records (masked bytes))[index]? = some record.mask := by
      rw [records_masked, List.getElem?_map, hi]
      rfl
    have hr' : record.mask.row = .ok row' := by
      have hr := congrArg (·[index]?) hr
      simpa [read_of_no_failure, hm, hi'] using hr
    exact ⟨record, hi, hm, record.reads (record_eq_of_getElem? hi) hr'⟩

end Table
end TagRegistry
