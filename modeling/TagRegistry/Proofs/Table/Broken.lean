import TagRegistry.Proofs.Row.Flag
import TagRegistry.Proofs.Table.Place

namespace TagRegistry

namespace Table

-- One of the bytes ends the record with number `index`.
def EndsIn (bytes : Bytes) (index : Nat) (record : Record) : Prop :=
  ∃ before byte after, bytes = before ++ byte :: after ∧ (scan before).1.length = index ∧
    ((scan before).2.step byte).1 = some record

theorem endsIn_iff {bytes : Bytes} {index : Nat} {record : Record} :
    EndsIn bytes index record ↔ (scan bytes).1[index]? = some record := by
  constructor
  case mp =>
    intro ⟨before, byte, after, hb, hl, hs⟩
    have hsome : ((scan before).2.step byte).1.isSome := by simp [hs]
    rw [hb, scan_append (mark_prefix_of_step hsome), Scanner.run_cons, hs, ← hl]
    simp
  case mpr =>
    intro h
    have ⟨marked, start, table, hb, _, hscan⟩ := exists_initial bytes
    rw [hb, hscan table (List.prefix_refl table)] at h
    have ⟨before, byte, after, ht, hl, hs⟩ := Scanner.exists_end_of_getElem? h
    have hbefore : scan (start ++ before) = (initial marked).run before := by
      apply hscan
      simp [ht]
    exact ⟨start ++ before, byte, after, by simp [hb, ht], by rwa [hbefore], by rwa [hbefore]⟩

-- A record begins in the bytes that none of them ends.
def BreaksOff (bytes : Bytes) : Prop :=
  ∃ index front gap rest, Place bytes index front gap rest ∧ ¬∃ record, EndsIn bytes index record

-- A record goes on as long as no byte ends it.
theorem Scanner.mode_run {s : Scanner} {bytes : Bytes} (h : s.mode ≠ .outside)
    (hr : (s.run bytes).1 = []) : (s.run bytes).2.mode ≠ .outside := by
  induction bytes generalizing s with
  | nil => exact h
  | cons byte bytes hi =>
    rw [run_cons] at hr ⊢
    have ⟨hs, hr⟩ := List.append_eq_nil_iff.mp hr
    have hm := mode_step (Option.toList_eq_nil_iff.mp hs)
    exact hi (fun ho => h (hm.mp ho).left) hr

namespace Place

variable {bytes : Bytes} {index : Nat} {front gap rest : Bytes}

-- Where a record ends, and at the start of a table, the scanner has nothing in hand.
theorem exists_between (h : Place bytes index front gap rest) :
    ∃ start here, (scan front).2 = .between start here := by
  cases h.front_eq
  case inl hf =>
    rw [hf]
    split
    case isTrue  => exact ⟨_, _, rfl⟩
    case isFalse => exact ⟨_, _, rfl⟩
  case inr hf =>
    have ⟨before, byte, he, hs⟩ := hf
    rw [he, scan_append (mark_prefix_of_step hs), Scanner.run_singleton, Scanner.step_of_isSome hs]
    exact ⟨_, _, rfl⟩

theorem mode_scan (h : Place bytes index front gap rest)
    (hr : ((scan front).2.run (gap ++ rest)).1 = []) : (scan bytes).2.mode ≠ .outside := by
  have ⟨start, here, hs⟩ := h.exists_between
  have ⟨byte, hb, hl⟩ := h.rest_head
  have ⟨more, hm⟩ := List.head?_eq_some_iff.mp hb
  rw [h.scan_eq]
  rw [hs, Scanner.run_append, Scanner.run_of_endsLine h.gap_end, hm, Scanner.run_cons] at hr ⊢
  have ⟨hn, hr⟩ := List.append_eq_nil_iff.mp (List.append_eq_nil_iff.mp hr).right
  refine Scanner.mode_run (fun ho => ?_) hr
  have ⟨_, he⟩ := (Scanner.mode_step (Option.toList_eq_nil_iff.mp hn)).mp ho
  rw [hl] at he
  cases he

end Place

theorem isSome_pending?_iff {bytes : Bytes} : (scan bytes).2.pending?.isSome ↔ BreaksOff bytes := by
  constructor
  case mp =>
    intro h
    obtain ⟨record, hr⟩ := Option.isSome_iff_exists.mp h
    have hi : (records bytes)[(scan bytes).1.length]? = some record := by simp [records, hr]
    obtain ⟨front, gap, rest, hp, _⟩ := exists_place hi
    refine ⟨_, front, gap, rest, hp, ?_⟩
    rintro ⟨record, he⟩
    simpa using endsIn_iff.mp he
  case mpr =>
    rintro ⟨index, front, gap, rest, hp, hn⟩
    have hl : (scan bytes).1.length ≤ index := by
      rw [← List.getElem?_eq_none_iff, Option.eq_none_iff_forall_ne_some]
      exact fun record hr => hn ⟨record, endsIn_iff.mpr hr⟩
    have hr : ((scan front).2.run (gap ++ rest)).1 = [] := by
      rw [hp.scan_eq, List.length_append, ← hp.index_eq] at hl
      exact List.eq_nil_of_length_eq_zero (by omega)
    rw [Scanner.pending?, if_neg (hp.mode_scan hr)]
    rfl

end Table

-- The failure of a source is met after all the items that were read before it.
theorem compileItems_broken_iff {items : List (Except Table.Error Row)} {cause : Table.Error}
    {error : CompileError} : compileItems (items ++ [.error cause]) = .error error ↔
      FirstFailure tagsOf items error ∨
      (∀ item ∈ items, ∃ tags, tagsOf item = .ok tags) ∧ error = .table cause := by
  have hl : [Except.error cause].mapM tagsOf = .error (.table cause) := mapM_cons_of_error [] rfl
  rw [compileItems_eq_error_iff, mapM_append_eq_error_iff, mapM_eq_error_iff, exists_mapM_iff, hl,
    Except.error.injEq]
  exact or_congr_right (and_congr_right fun _ => eq_comm)

open Table (BreaksOff EndsIn)

-- Of the items that a table has, those of a broken source are the ones whose records have ended,
-- and all that is missing is the last. It is compiled to the first error among them, or else to
-- that of the source.
theorem read_of_broken (bytes : Bytes) (cause : String) :
    ∃ (completed : List (Except Table.Error Row)) (last : Option (Except Table.Error Row)),
      Table.read { bytes } = completed ++ last.toList ∧
      (last.isSome ↔ BreaksOff bytes) ∧
      (∀ index item, completed[index]? = some item ↔
        ∃ record, EndsIn bytes index record ∧ record.row = item) ∧
      (bytes ≠ Table.mark →
        Table.read { bytes, failure := some cause } = completed ++ [.error (.broken cause)] ∧
        (Table.Error.broken cause).line? = none ∧
        (∃ error, compileSource { bytes, failure := some cause } = .error error) ∧
        ∀ error, compileSource { bytes, failure := some cause } = .error error ↔
          FirstFailure tagsOf completed error ∨
          (∀ item ∈ completed, ∃ tags, tagsOf item = .ok tags) ∧
            error = .table (.broken cause)) ∧
      (bytes = Table.mark → Table.read { bytes, failure := some cause } = [] ∧
        compileSource { bytes, failure := some cause } = .ok []) := by
  refine ⟨(Table.scan bytes).1.map Table.Record.row,
    (Table.scan bytes).2.pending?.map Table.Record.row, ?whole, ?last, ?completed, fun h => ?broken,
    fun h => ?mark⟩
  case whole =>
    rw [Table.read_of_no_failure, Table.records, List.map_append]
    cases (Table.scan bytes).2.pending? <;> rfl
  case last => rw [Option.isSome_map, Table.isSome_pending?_iff]
  case completed =>
    intro index item
    rw [List.getElem?_map, Option.map_eq_some_iff]
    simp only [Table.endsIn_iff]
  case broken =>
    have hr := Table.read_of_failure h cause
    have he : Except.error (.broken cause) ∈
        Table.read { bytes, failure := some cause } := by simp [hr]
    refine ⟨hr, rfl, exists_error_of_mem he rfl, fun error => ?_⟩
    rw [compileSource, hr, compileItems_broken_iff]
  case mark =>
    rw [h]
    exact ⟨rfl, rfl⟩

-- The failure is lost: without its mark the first piece of the source is empty, and the reader
-- takes that for the end of the table.
theorem read_of_broken_mark :
    Table.read { bytes := Table.mark, failure := some "read failed" } = [] ∧
    (¬∃ completed, Table.read { bytes := Table.mark, failure := some "read failed" } =
      completed ++ [.error (.broken "read failed")]) ∧
    compileSource { bytes := Table.mark, failure := some "read failed" } = .ok [] := by
  have hr : Table.read { bytes := Table.mark, failure := some "read failed" } = [] := rfl
  refine ⟨hr, ?_, rfl⟩
  intro ⟨completed, h⟩
  simp [hr] at h

end TagRegistry
