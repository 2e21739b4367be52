import TagRegistry.Proofs.Plan.Written
import TagRegistry.Proofs.Toml.RoundTrip

namespace TagRegistry.Plan

open Toml (Document Entries Value)

section Lists

variable {α β : Type} {f : α → Option β}

theorem mapM_eq_some_of_forall₂ {as : List α} {bs : List β}
    (h : List.Forall₂ (fun a b => f a = some b) as bs) : as.mapM f = some bs := by
  induction h with
  | nil => rfl
  | cons hab _ hi => simp [List.mapM_cons, hab, hi]

theorem mapM_eq_none_of_mem {as : List α} {a : α} (hm : a ∈ as) (hn : f a = none) :
    as.mapM f = none := by
  induction as with
  | nil => cases hm
  | cons a' as hi =>
    cases hm with
    | head => simp [List.mapM_cons, hn]
    | tail _ hm => cases hf : f a' <;> simp [List.mapM_cons, hf, hi hm]

theorem lookup_eq_some_iff_mem {pairs : List (String × β)} (h : (pairs.map Prod.fst).Nodup)
    {key : String} {b : β} : pairs.lookup key = some b ↔ (key, b) ∈ pairs := by
  induction pairs with
  | nil => simp
  | cons pair pairs hi =>
    obtain ⟨key', b'⟩ := pair
    have ⟨hn, h⟩ := List.nodup_cons.mp h
    by_cases hk : key = key'
    case pos =>
      have hm : (key, b) ∉ pairs := fun hm => hn (List.mem_map.mpr ⟨_, hm, hk⟩)
      subst hk
      simp [hm, eq_comm]
    case neg =>
      have hb : (key == key') = false := beq_false_of_ne hk
      simp [List.lookup_cons, hb, hk, hi h]

end Lists

namespace Written

namespace Table

variable {table : Table}

-- What a document holds of the table.
def entries (table : Table) : Entries :=
  table.pairs.map fun (key, text) => (key, .string text)

theorem lookup_entries (table : Table) (key : String) :
    table.entries.lookup key = (table.pairs.lookup key).map .string := by
  rw [entries]
  induction table.pairs with
  | nil => rfl
  | cons pair pairs hi =>
    obtain ⟨key', text⟩ := pair
    cases hk : key == key' <;> simp [List.lookup_cons, hk, hi]

theorem ofValue?_entries (table : Table) : Entry.ofValue? (.table .header table.entries) = do
    return {
      source := ← table.pairs.lookup "source"
      target := ← table.pairs.lookup "target"
      format := table.pairs.lookup "format" } := by
  simp only [Entry.ofValue?, lookup_entries]
  cases table.pairs.lookup "source" <;> cases table.pairs.lookup "target" <;>
    cases table.pairs.lookup "format" <;> rfl

theorem Describes.ofValue?_eq {entry : Entry} (h : table.Describes entry) :
    Entry.ofValue? (.table .header table.entries) = some entry := by
  have hs := (lookup_eq_some_iff_mem table.distinct).mpr h.source
  have ht := (lookup_eq_some_iff_mem table.distinct).mpr h.target
  have hf : table.pairs.lookup "format" = entry.format :=
    Option.ext fun name => (lookup_eq_some_iff_mem table.distinct).trans (h.format name)
  rw [ofValue?_entries, hs, ht, hf]
  rfl

theorem Lacks.lookup_eq {key : String} (h : table.Lacks key) : table.pairs.lookup key = none := by
  rw [Option.eq_none_iff_forall_ne_some]
  exact fun text ht => h text <| (lookup_eq_some_iff_mem table.distinct).mp ht

theorem Lacks.ofValue?_eq (h : table.Lacks "source" ∨ table.Lacks "target") :
    Entry.ofValue? (.table .header table.entries) = none := by
  rw [ofValue?_entries]
  rcases h with h | h
  · rw [h.lookup_eq]
    rfl
  · rw [h.lookup_eq]
    cases table.pairs.lookup "source" <;> rfl

end Table

-- The document that the given tables have made.
def built (tables : List Entries) : Document :=
  match tables.getLast? with
  | none => {}
  | some last =>
    { root := [(header.key, .tables tables.dropLast last)], current := [header.key] }

theorem built_concat (tables : List Entries) (last : Entries) :
    built (tables ++ [last]) =
      { root := [(header.key, .tables tables last)], current := [header.key] } := by
  simp [built]

theorem add_tables (tables : List Entries) :
    (built tables).add (.tables header) = some (built (tables ++ [[]])) := by
  rw [built_concat]
  obtain rfl | ⟨tables, last, rfl⟩ := List.eq_nil_or_concat tables
  · rfl
  · rw [List.concat_eq_append, built_concat]
    rfl

theorem add_assign (tables : List Entries) {last : Entries} {key : String}
    (h : last.lookup key = none) (text : String) :
    (built (tables ++ [last])).add (Table.assignment (key, text)) =
      some (built (tables ++ [last ++ [(key, .string text)]])) := by
  rw [built_concat, built_concat]
  simp [Document.add, Table.assignment, Entries.edit, Entries.assign, Entries.assign.put, h,
    Entries.insert, Entries.replace]

theorem foldlM_pairs (tables : List Entries) {pairs : List (String × String)} {last : Entries}
    (h : (last.map Prod.fst ++ pairs.map Prod.fst).Nodup) :
    (pairs.map Table.assignment).foldlM Document.add (built (tables ++ [last])) =
      some (built (tables ++ [last ++ pairs.map fun (key, text) => (key, .string text)])) := by
  induction pairs generalizing last with
  | nil => simp
  | cons pair pairs hi =>
    obtain ⟨key, text⟩ := pair
    have hl : last.lookup key = none := by
      have hd := (List.nodup_append.mp h).2.2
      refine List.lookup_eq_none_iff.mpr fun entry hm => ?_
      have hne : entry.fst ≠ key := hd _ (List.mem_map_of_mem hm) key (by simp)
      exact bne_iff_ne.mpr hne.symm
    have hi := @hi (last ++ [(key, .string text)]) (by simpa using h)
    rw [List.append_assoc] at hi
    rw [List.map_cons, List.foldlM_cons, add_assign tables hl]
    exact hi

theorem foldlM_table (tables : List Entries) (table : Table) :
    table.statements.foldlM Document.add (built tables) =
      some (built (tables ++ [table.entries])) := by
  rw [Table.statements, List.foldlM_cons, add_tables]
  exact foldlM_pairs tables (by simpa using table.distinct)

theorem foldlM_tables (done : List Entries) (tables : List Table) :
    (tables.flatMap Table.statements).foldlM Document.add (built done) =
      some (built (done ++ tables.map Table.entries)) := by
  induction tables generalizing done with
  | nil => simp
  | cons table tables hi =>
    rw [List.flatMap_cons, List.foldlM_append, foldlM_table]
    simpa using hi (done ++ [table.entries])

theorem ofEntries?_built {tables : List Entries} (h : tables ≠ []) :
    ofEntries? (built tables).root =
      tables.mapM fun entries => Entry.ofValue? (.table .header entries) := by
  rw [← List.dropLast_concat_getLast h, built_concat]
  rfl

theorem parse?_text (w : Written) :
    parse? w.text = w.tables.mapM fun table => Entry.ofValue? (.table .header table.entries) := by
  have hs := w.document.statements?_written
  have hd : Document.ofStatements? w.document.statements =
      some (built (w.tables.map Table.entries)) := by
    rw [w.states]
    exact foldlM_tables [] w.tables
  have he := ofEntries?_built (by simpa using w.tables_ne : w.tables.map Table.entries ≠ [])
  rw [parse?, Document.parse?, text, String.toList_ofList, hs]
  simp [hd, he, List.mapM_map, Function.comp_def]

end Written

open Written

-- However its tables are laid out, a plan is read as the entries that they describe.
theorem parse?_written (w : Written) :
    (∀ entries, List.Forall₂ Table.Describes w.tables entries →
      parse? w.text = some entries ∧
      List.Forall₂ (fun table entry =>
        (∀ name, ("format", name) ∈ table.pairs → entry.outputFormat = Format.ofName name) ∧
        (table.Lacks "format" → entry.outputFormat = .ok .rust)) w.tables entries) ∧
    (∀ table ∈ w.tables, table.Lacks "source" ∨ table.Lacks "target" → parse? w.text = none) := by
  rw [parse?_text]
  refine ⟨fun entries h => ⟨?_, ?_⟩, fun table hm h => ?_⟩
  · exact mapM_eq_some_of_forall₂ <| h.imp fun _ _ h => h.ofValue?_eq
  · refine h.imp fun table entry h => ⟨fun name hm => ?_, fun hl => ?_⟩
    · rw [Entry.outputFormat, (h.format name).mp hm]
      rfl
    · have hn : entry.format = none := by
        rw [Option.eq_none_iff_forall_ne_some]
        exact fun name he => hl name <| (h.format name).mpr he
      rw [Entry.outputFormat, hn]
      rfl
  · exact mapM_eq_none_of_mem hm (Table.Lacks.ofValue?_eq h)

-- Nothing in a text or a key is taken for a header, a comment or an escape.
theorem parse?_written_lookalikes :
    ∃ w : Written,
      w.tables = [⟨[("target", "]]\n[[generate]]\nsource = \"b.csv\" # \\"), ("[[source]]", "c.csv"),
        ("source", "#\"\\u0041")], by decide⟩, .ofEntry ⟨"", "b.h", some "java"⟩] ∧
      parse? w.text = some [⟨"#\"\\u0041", "]]\n[[generate]]\nsource = \"b.csv\" # \\", none⟩,
        ⟨"", "b.h", some "java"⟩] := by
  refine ⟨ofTables _ (by simp), rfl, ((parse?_written _).1 _ (.cons ?_ (.cons ?_ .nil))).1⟩
  · exact ⟨by simp, by simp, by simp⟩
  · exact Table.describes_ofEntry _

end TagRegistry.Plan
