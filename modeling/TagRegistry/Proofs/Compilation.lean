import TagRegistry.Compilation
import TagRegistry.Proofs.FirstFailure

namespace TagRegistry

namespace Row

def mapLine (g : Nat → Nat) (row : Row) : Row :=
  { row with line := g row.line }

def Error.mapLine (g : Nat → Nat) : Error → Error
  | .malformedFlag line tag value => .malformedFlag (g line) tag value
  | .missingFlag line tag => .missingFlag (g line) tag

theorem isDefault_mapLine (g : Nat → Nat) (row : Row) :
    (row.mapLine g).isDefault = row.isDefault.mapError (Error.mapLine g) := by
  simp only [isDefault, mapLine]
  split
  case h_1 => rfl
  case h_2 => split <;> rfl

theorem tags_mapLine (g : Nat → Nat) (row : Row) :
    (row.mapLine g).tags = row.tags.mapError (Error.mapLine g) := by
  have hs : (row.mapLine g).isSkipped = row.isSkipped := rfl
  simp only [tags, form?, isDefault_mapLine, hs]
  cases row.isSkipped
  case true => rfl
  case false => cases row.isDefault <;> rfl

end Row

-- Errors of the table itself keep their place.
def CompileError.mapLine (g : Nat → Nat) : CompileError → CompileError
  | .row error => .row (error.mapLine g)
  | error => error

theorem compileItems_eq_mapM (items : List (Except Table.Error Row)) :
    compileItems items = (items.mapM tagsOf).map List.flatten := by
  induction items with
  | nil => rfl
  | cons item items hi =>
    rw [compileItems, hi]
    cases h : tagsOf item
    case error => rw [mapM_cons_of_error items h]; rfl
    case ok =>
      rw [mapM_cons_of_ok items h]
      cases items.mapM tagsOf <;> rfl

theorem compileItems_eq_error_iff {items : List (Except Table.Error Row)} {error : CompileError} :
    compileItems items = .error error ↔ items.mapM tagsOf = .error error := by
  rw [compileItems_eq_mapM]
  cases items.mapM tagsOf <;> simp [Except.map]

theorem compileItems_append (items₁ items₂ : List (Except Table.Error Row)) :
    compileItems (items₁ ++ items₂) = do
      let tags₁ ← compileItems items₁
      return tags₁ ++ (← compileItems items₂) := by
  simp only [compileItems_eq_mapM, List.mapM_append]
  cases items₁.mapM tagsOf <;> cases items₂.mapM tagsOf <;>
    simp [Except.map, bind, Except.bind, pure, Except.pure]

theorem compile_eq_mapM (rows : List Row) :
    compile rows = ((rows.mapM Row.tags).map List.flatten).mapError .row := by
  rw [compile, compileItems_eq_mapM, List.mapM_map]
  change (rows.mapM fun row : Row => row.tags.mapError CompileError.row).map List.flatten = _
  rw [mapM_mapError]
  cases rows.mapM Row.tags <;> rfl

-- The line of a row is named in an error and changes nothing else.
theorem compile_mapLine (g : Nat → Nat) (rows : List Row) :
    compile (rows.map (Row.mapLine g)) = (compile rows).mapError (CompileError.mapLine g) := by
  rw [compile_eq_mapM, compile_eq_mapM, List.mapM_map]
  simp only [Function.comp_def, Row.tags_mapLine, mapM_mapError]
  cases rows.mapM Row.tags <;> rfl

end TagRegistry
