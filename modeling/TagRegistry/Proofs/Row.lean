import Mathlib.Tactic.ByContra
import TagRegistry.Row
import TagRegistry.Proofs.FirstFailure
import TagRegistry.Proofs.Flag
import TagRegistry.Proofs.Tag.Form

namespace TagRegistry.Row

-- The header carries the name of its column for a tag.
def IsHeaderOrComment (row : Row) : Prop :=
  row.tag = "Tag" ∨ row.tag.toList.head? = some '#'

-- The flag counts only if the row is neither the header nor a comment.
def IsClassified (row : Row) : Prop :=
  ¬row.IsHeaderOrComment → ∃ flag, row.flag = some flag ∧ ¬Flag.IsMalformed flag

structure IsDefaultRow (row : Row) : Prop where
  not_skipped : ¬row.IsHeaderOrComment
  flag_one    : ∃ flag, row.flag = some flag ∧ Flag.IsOne flag

-- What is wrong with a row whose flag is needed. The error names the row's line and its tag.
inductive Faulty (row : Row) : Error → Prop
  | missing : row.flag = none → row.Faulty (.missingFlag row.line row.tag)
  | malformed {flag : String} : row.flag = some flag → Flag.IsMalformed flag →
    row.Faulty (.malformedFlag row.line row.tag flag)

def IsRenderable (row : Row) : Prop :=
  (∃ stem first last, Form.Spells row.tag stem first last) ∨ Code.IsValid (Text.utf8 row.tag)

variable {row : Row}

theorem isSkipped_iff : row.isSkipped ↔ row.IsHeaderOrComment := by
  simp [isSkipped, IsHeaderOrComment]

theorem isSkipped_eq_false_iff : row.isSkipped = false ↔ ¬row.IsHeaderOrComment := by
  rw [← isSkipped_iff, Bool.not_eq_true]

theorem isDefault_eq_true_iff :
    row.isDefault = .ok true ↔ ∃ flag, row.flag = some flag ∧ Flag.IsOne flag := by
  cases hf : row.flag with
  | none => simp [isDefault, hf]
  | some flag =>
    simp only [isDefault, hf, ← Flag.ofText_eq_default_iff]
    cases ht : Flag.ofText flag <;> simp [ht]

theorem isDefault_eq_error_iff {error : Error} :
    row.isDefault = .error error ↔ row.Faulty error := by
  constructor
  case mp =>
    intro h
    rw [isDefault] at h
    split at h
    case h_1 hf =>
      cases h
      exact .missing hf
    case h_2 flag hf =>
      split at h <;> cases h
      case h_3 hm => exact .malformed hf (Flag.ofText_eq_malformed_iff.mp hm)
  case mpr =>
    intro h
    cases h with
    | missing hf      => simp only [isDefault, hf]
    | malformed hf hm => simp only [isDefault, hf, Flag.ofText_eq_malformed_iff.mpr hm]

theorem isClassified_iff : row.IsClassified ↔
    (row.isSkipped = false → ∃ isDefault, row.isDefault = .ok isDefault) := by
  rw [IsClassified, ← isSkipped_eq_false_iff]
  apply imp_congr_right
  intro _
  cases hf : row.flag with
  | none => simp [isDefault, hf]
  | some flag =>
    simp only [isDefault, hf, ← Flag.ofText_eq_malformed_iff]
    cases ht : Flag.ofText flag <;> simp [ht]

theorem form?_of_isDefaultRow (h : row.IsDefaultRow) :
    row.form? = .ok (some (Form.ofField row.tag)) := by
  have hs := isSkipped_eq_false_iff.mpr h.not_skipped
  have hd := isDefault_eq_true_iff.mpr h.flag_one
  simp [form?, hs, hd, Except.map]

theorem form?_of_not_isDefaultRow (hc : row.IsClassified) (h : ¬row.IsDefaultRow) :
    row.form? = .ok none := by
  cases hs : row.isSkipped
  case true => simp [form?, hs]
  case false =>
    have ⟨isDefault, hd⟩ := isClassified_iff.mp hc hs
    cases isDefault
    case true => exact absurd ⟨isSkipped_eq_false_iff.mp hs, isDefault_eq_true_iff.mp hd⟩ h
    case false => simp [form?, hs, hd, Except.map]

theorem form?_eq_error_iff {error : Error} :
    row.form? = .error error ↔ ¬row.IsHeaderOrComment ∧ row.Faulty error := by
  rw [← isSkipped_eq_false_iff, ← isDefault_eq_error_iff, form?]
  cases row.isSkipped
  case true => simp
  case false => cases row.isDefault <;> simp [Except.map]

theorem exists_form?_iff : (∃ form, row.form? = .ok form) ↔ row.IsClassified := by
  constructor
  case mp =>
    intro ⟨form, hf⟩
    rw [isClassified_iff]
    intro hs
    rw [form?, if_neg (by simp [hs])] at hf
    cases hd : row.isDefault
    case error => rw [hd] at hf; cases hf
    case ok isDefault => exact ⟨isDefault, rfl⟩
  case mpr =>
    intro hc
    by_cases hd : row.IsDefaultRow
    case pos => exact ⟨_, form?_of_isDefaultRow hd⟩
    case neg => exact ⟨_, form?_of_not_isDefaultRow hc hd⟩

theorem exists_tags_iff : (∃ tags, row.tags = .ok tags) ↔ row.IsClassified := by
  rw [← exists_form?_iff, tags]
  cases row.form? <;> simp [Except.map]

theorem tags_eq_error_iff {error : Error} :
    row.tags = .error error ↔ ¬row.IsHeaderOrComment ∧ row.Faulty error := by
  rw [← form?_eq_error_iff, tags]
  cases row.form? <;> simp [Except.map]

theorem exists_mapM_tags_iff {rows : List Row} :
    (∃ tagss, rows.mapM tags = .ok tagss) ↔ ∀ row ∈ rows, row.IsClassified := by
  rw [exists_mapM_iff]
  simp only [exists_tags_iff]

-- All rows before the faulty one are classified.
def FirstFaulty (rows : List Row) (error : Error) : Prop :=
  ∃ before row after, rows = before ++ row :: after ∧ (∀ r ∈ before, r.IsClassified) ∧
    ¬row.IsHeaderOrComment ∧ row.Faulty error

theorem firstFailure_tags_iff {rows : List Row} {error : Error} :
    FirstFailure tags rows error ↔ FirstFaulty rows error := by
  simp only [FirstFailure, exists_tags_iff, tags_eq_error_iff, FirstFaulty]

-- The codes of a row, where a row that cannot be classified has none.
def codes (row : Row) : Except Code.Error (List Code) :=
  match row.tags with
  | .error _ => .ok []
  | .ok tags => tags.mapM Code.ofTag

theorem codes_of_tags_eq {tags : List Tag} (h : row.tags = .ok tags) :
    row.codes = tags.mapM Code.ofTag := by
  simp only [codes, h]

theorem mapM_codes_eq {rows : List Row} {tagss : List (List Tag)}
    (h : rows.mapM Row.tags = .ok tagss) :
    rows.mapM Row.codes = tagss.mapM (List.mapM Code.ofTag) := by
  induction rows generalizing tagss with
  | nil => cases h; rfl
  | cons row rows hi =>
    cases ht : row.tags
    case error =>
      rw [mapM_cons_of_error rows ht] at h
      cases h
    case ok tags =>
      rw [mapM_cons_of_ok rows ht] at h
      cases hr : rows.mapM Row.tags
      case error => rw [hr] at h; cases h
      case ok =>
        rw [hr] at h
        cases h
        rw [List.mapM_cons, List.mapM_cons, codes_of_tags_eq ht, hi hr]

theorem codes_of_not_isDefaultRow (hc : row.IsClassified) (h : ¬row.IsDefaultRow) :
    row.codes = .ok [] := by
  rw [codes, tags, form?_of_not_isDefaultRow hc h]
  rfl

theorem exists_codes_of_spells {stem : String} {first last : Nat} (h : row.IsDefaultRow)
    (hs : Form.Spells row.tag stem first last) : ∃ codes, row.codes = .ok codes := by
  rw [codes, tags, form?_of_isDefaultRow h, Form.ofField_eq_family_iff.mpr hs]
  apply exists_mapM_iff.mpr
  intro tag ht
  exact Code.exists_ofTag_iff.mpr (hs.isValid_of_mem_tags ht)

theorem codes_of_not_spells (h : row.IsDefaultRow)
    (hs : ¬∃ stem first last, Form.Spells row.tag stem first last) :
    row.codes = (Code.ofTag ⟨row.tag⟩).map ([·]) := by
  rw [codes, tags, form?_of_isDefaultRow h, Form.ofField_eq_literal_iff.mpr hs]
  change [(⟨row.tag⟩ : Tag)].mapM Code.ofTag = _
  cases hc : Code.ofTag ⟨row.tag⟩
  case error => rw [mapM_cons_of_error [] hc]; rfl
  case ok => rw [mapM_cons_of_ok [] hc]; rfl

theorem exists_codes_iff (hc : row.IsClassified) :
    (∃ codes, row.codes = .ok codes) ↔ (row.IsDefaultRow → row.IsRenderable) := by
  by_cases hd : row.IsDefaultRow
  case neg => simp [codes_of_not_isDefaultRow hc hd, hd]
  case pos =>
    by_cases hs : ∃ stem first last, Form.Spells row.tag stem first last
    case pos =>
      have ⟨_, _, _, h⟩ := hs
      simp [exists_codes_of_spells hd h, IsRenderable, hs]
    case neg =>
      have hv : (∃ code, Code.ofTag ⟨row.tag⟩ = .ok code) ↔ Code.IsValid (Text.utf8 row.tag) :=
        Code.exists_ofTag_iff
      rw [codes_of_not_spells hd hs]
      simp only [IsRenderable, hs, hd, false_or, true_imp_iff, ← hv]
      cases Code.ofTag ⟨row.tag⟩ <;> simp [Except.map]

-- Only a tag that stands for itself can be without a code.
theorem codes_eq_error_iff (hc : row.IsClassified) {error : Code.Error} :
    row.codes = .error error ↔
      row.IsDefaultRow ∧ Form.ofField row.tag = .literal row.tag ∧
        Code.ofTag ⟨row.tag⟩ = .error error := by
  constructor
  case mp =>
    intro h
    have hd : row.IsDefaultRow := by
      by_contra hd
      rw [codes_of_not_isDefaultRow hc hd] at h
      cases h
    have hs : ¬∃ stem first last, Form.Spells row.tag stem first last := by
      intro ⟨_, _, _, hs⟩
      have ⟨_, hk⟩ := exists_codes_of_spells hd hs
      rw [hk] at h
      cases h
    refine ⟨hd, Form.ofField_eq_literal_iff.mpr hs, ?_⟩
    rw [codes_of_not_spells hd hs] at h
    cases hk : Code.ofTag ⟨row.tag⟩
    case error => rw [hk] at h; cases h; rfl
    case ok => rw [hk] at h; cases h
  case mpr =>
    intro ⟨hd, hl, hk⟩
    rw [codes_of_not_spells hd (Form.ofField_eq_literal_iff.mp hl), hk]
    rfl

-- A row of `rows` stands for a tag without a code, and no row before it does.
def FirstUnrenderable (rows : List Row) (error : Code.Error) : Prop :=
  ∃ before row after, rows = before ++ row :: after ∧
    (∀ r ∈ before, r.IsDefaultRow → r.IsRenderable) ∧
    row.IsDefaultRow ∧ Form.ofField row.tag = .literal row.tag ∧
    Code.ofTag ⟨row.tag⟩ = .error error

theorem firstFailure_codes_iff {rows : List Row} (hc : ∀ row ∈ rows, row.IsClassified)
    {error : Code.Error} : FirstFailure codes rows error ↔ FirstUnrenderable rows error := by
  constructor
  case mp =>
    intro ⟨before, row, after, hr, hb, he⟩
    have hc : ∀ r ∈ before ++ row :: after, r.IsClassified := hr ▸ hc
    refine ⟨before, row, after, hr, ?_, (codes_eq_error_iff (hc row (by simp))).mp he⟩
    intro r hm
    exact (exists_codes_iff (hc r (by simp [hm]))).mp (hb r hm)
  case mpr =>
    intro ⟨before, row, after, hr, hb, he⟩
    have hc : ∀ r ∈ before ++ row :: after, r.IsClassified := hr ▸ hc
    refine ⟨before, row, after, hr, ?_, (codes_eq_error_iff (hc row (by simp))).mpr he⟩
    intro r hm
    exact (exists_codes_iff (hc r (by simp [hm]))).mpr (hb r hm)

end TagRegistry.Row
