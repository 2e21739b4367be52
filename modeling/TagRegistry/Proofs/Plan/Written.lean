import Mathlib.Data.List.Forall2
import TagRegistry.Plan
import TagRegistry.Proofs.Toml.Written

namespace TagRegistry.Plan

namespace Written

-- The keys stand in any order, and others may stand among those of an entry.
structure Table where
  pairs    : List (String × String)
  distinct : (pairs.map Prod.fst).Nodup

def header : Toml.Path where
  parents := []
  key     := "generate"

namespace Table

def assignment : String × String → Toml.Statement
  | (key, text) => .assign { parents := [], key } (.string text)

def statements (table : Table) : List Toml.Statement :=
  .tables header :: table.pairs.map assignment

structure Describes (table : Table) (entry : Entry) : Prop where
  source : ("source", entry.source) ∈ table.pairs
  target : ("target", entry.target) ∈ table.pairs
  format : ∀ name, ("format", name) ∈ table.pairs ↔ entry.format = some name

def Lacks (table : Table) (key : String) : Prop :=
  ∀ text, (key, text) ∉ table.pairs

def ofEntry (entry : Entry) : Table where
  pairs :=
    ("source", entry.source) :: ("target", entry.target) ::
      entry.format.toList.map fun name => ("format", name)
  distinct := by cases entry.format <;> simp

theorem describes_ofEntry (entry : Entry) : (ofEntry entry).Describes entry where
  source := by simp [ofEntry]
  target := by simp [ofEntry]
  format := by simp [ofEntry]

-- Every key and every text is quoted.
def content : String × String → Toml.Written.Content
  | (key, text) => .assign (.quote key) .none .none (.quote text)

def contents (table : Table) : List Toml.Written.Content :=
  .tables .none (.quote "generate") .none :: table.pairs.map content

theorem statements_contents (table : Table) :
    table.contents.filterMap Toml.Written.Content.statement? = table.statements := by
  have hp : (table.pairs.map content).filterMap Toml.Written.Content.statement? =
      table.pairs.map assignment := by
    have hs : Toml.Written.Content.statement? ∘ content = some ∘ assignment := rfl
    rw [List.filterMap_map, hs, List.filterMap_eq_map]
  rw [statements, ← hp]
  rfl

end Table
end Written

structure Written where
  tables    : List Written.Table
  tables_ne : tables ≠ []
  document  : Toml.Written
  states    : document.statements = tables.flatMap Written.Table.statements

namespace Written

def text (w : Written) : String :=
  String.ofList w.document.chars

def ofTables (tables : List Table) (h : tables ≠ []) : Written where
  tables
  tables_ne := h
  document  := .plain (tables.flatMap Table.contents)
  states    := by
    rw [Toml.Written.statements_plain, List.filterMap_flatMap]
    simp only [Table.statements_contents]

theorem exists_describes {entries : Plan} (h : entries ≠ []) :
    ∃ w : Written, List.Forall₂ Table.Describes w.tables entries := by
  refine ⟨ofTables (entries.map Table.ofEntry) (by simpa using h), ?_⟩
  rw [ofTables, List.forall₂_map_left_iff, List.forall₂_same]
  exact fun entry _ => Table.describes_ofEntry entry

end Written
end TagRegistry.Plan
