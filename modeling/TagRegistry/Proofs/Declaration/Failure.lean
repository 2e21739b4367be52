import TagRegistry.Proofs.Declaration
import TagRegistry.Proofs.Tag.Fault

namespace TagRegistry

variable {format : Format} {source : String} {tags : List Tag}

theorem exists_render_iff : (∃ out, render format source tags = .ok out) ↔
    ∃ codes, tags.mapM Code.ofTag = .ok codes := by
  simp [render_eq_ok_iff]

theorem render_eq_error_iff {error : Code.Error} :
    render format source tags = .error error ↔ tags.mapM Code.ofTag = .error error := by
  rw [render]
  cases tags.mapM Code.ofTag <;> simp [bind, Except.bind, pure, Except.pure]

theorem exists_ofTag_iff_not_offends {tag : Tag} : (∃ code, Code.ofTag tag = .ok code) ↔
    tag.bytes.length = 4 ∧ ∀ index, ¬Code.Offends tag.bytes index := by
  have hf : (∃ error, Code.ofTag tag = .error error) ↔ ∃ error, Code.Fault tag error := by
    simp only [Code.ofTag_eq_error_iff]
  rw [exists_error_iff, Code.exists_fault_iff] at hf
  rw [← not_iff_not, hf, not_and_or, not_forall_not]

-- Of the tags that have no place in a declaration the first one is named, whatever declaration it
-- is and whatever follows the tag.
theorem failures_of_render (format : Format) (source : String) (tags : List Tag) :
    ((∃ error, render format source tags = .error error) ↔
      ∃ tag ∈ tags, tag.bytes.length ≠ 4 ∨ ∃ index, Code.Offends tag.bytes index) ∧
    (∀ error, render format source tags = .error error ↔
      ∃ before tag after, tags = before ++ tag :: after ∧
        (∀ t ∈ before, t.bytes.length = 4 ∧ ∀ index, ¬Code.Offends t.bytes index) ∧
        Code.Fault tag error) ∧
    (∀ format' source' error, render format' source' tags = .error error ↔
      render format source tags = .error error) ∧
    ∀ tags',
      ((∃ out, render format source (tags ++ tags') = .ok out) ↔
        (∃ out, render format source tags = .ok out) ∧
          ∃ out, render format source tags' = .ok out) ∧
      ∀ error, render format source (tags ++ tags') = .error error ↔
        render format source tags = .error error ∨
          (∃ out, render format source tags = .ok out) ∧
            render format source tags' = .error error := by
  refine ⟨?fails, fun error => ?first, fun _ _ _ => ?independent,
    fun tags' => ⟨?both, fun _ => ?left⟩⟩
  case fails =>
    rw [exists_error_iff, exists_render_iff, exists_mapM_iff]
    simp only [exists_ofTag_iff_not_offends, not_forall, not_and_or, not_not, exists_prop]
  case first =>
    rw [render_eq_error_iff, mapM_eq_error_iff]
    simp only [FirstFailure, exists_ofTag_iff_not_offends, Code.ofTag_eq_error_iff]
  case independent => rw [render_eq_error_iff, render_eq_error_iff]
  case both =>
    simp only [exists_render_iff, exists_mapM_iff, List.forall_mem_append]
  case left =>
    rw [render_eq_error_iff, render_eq_error_iff, render_eq_error_iff, exists_render_iff,
      mapM_append_eq_error_iff]

end TagRegistry
