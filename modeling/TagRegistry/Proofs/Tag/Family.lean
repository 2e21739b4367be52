import TagRegistry.Proofs.Declaration
import TagRegistry.Proofs.Tag.Form

namespace TagRegistry

theorem Text.digitChar_lt_digitChar {n m : Nat} (h : n < m) (hm : m < 10) :
    n.digitChar < m.digitChar := by
  change n.digitChar.toNat < m.digitChar.toNat
  rw [Nat.toNat_digitChar_of_lt_ten (Nat.lt_trans h hm), Nat.toNat_digitChar_of_lt_ten hm]
  exact Nat.add_lt_add_left h _

theorem Text.twoDigits_lt_twoDigits {n m : Nat} (h : n < m) (hm : m ≤ 99) :
    (twoDigits n).toList < (twoDigits m).toList := by
  rw [twoDigits_toList (Nat.le_trans (Nat.le_of_lt h) hm), twoDigits_toList hm,
    List.cons_lt_cons_iff]
  by_cases hd : n / 10 = m / 10
  case pos =>
    have ho : n % 10 < m % 10 := by omega
    exact .inr ⟨by rw [hd], List.cons_lt_cons_iff.mpr (.inl (digitChar_lt_digitChar ho (by omega)))⟩
  case neg =>
    have ht : n / 10 < m / 10 := by omega
    exact .inl (digitChar_lt_digitChar ht (by omega))

namespace Form

variable {stem : String} {first last : Nat}

-- The numbers are padded, so they stand in the order of texts as in that of numbers.
theorem member_lt_member (stem : String) {n m : Nat} (h : n < m) (hm : m ≤ 99) :
    member stem n < member stem m := by
  change stem ++ Text.twoDigits n < stem ++ Text.twoDigits m
  rw [String.lt_iff, String.toList_append, String.toList_append]
  exact List.append_left_lt (Text.twoDigits_lt_twoDigits h hm)

theorem member_inj {n m : Nat} (hn : n ≤ 99) (hm : m ≤ 99) :
    member stem n = member stem m ↔ n = m := by
  constructor
  case mp =>
    intro he
    rcases Nat.lt_trichotomy n m with h | h | h
    · exact absurd (he ▸ member_lt_member stem h hm) (String.lt_irrefl _)
    · exact h
    · exact absurd (he ▸ member_lt_member stem h hn) (String.lt_irrefl _)
  case mpr => exact congrArg (member stem)

theorem mem_tags_iff {tag : Tag} : tag ∈ (family stem first last).tags ↔
    ∃ n, first ≤ n ∧ n ≤ last ∧ tag = member stem n := by
  simp only [tags, List.mem_map, List.mem_range'_1]
  constructor
  case mp =>
    intro ⟨n, hn, ht⟩
    exact ⟨n, hn.left, by omega, ht.symm⟩
  case mpr =>
    intro ⟨n, hf, hl, ht⟩
    exact ⟨n, ⟨hf, by omega⟩, ht.symm⟩

theorem pairwise_lt_tags (h : last ≤ 99) : (family stem first last).tags.Pairwise (· < ·) := by
  rw [tags, List.pairwise_map]
  apply List.Pairwise.imp_of_mem ?_ (List.pairwise_lt_range' 1)
  intro n m _ hm hlt
  have := List.mem_range'_1.mp hm
  exact member_lt_member stem hlt (by omega)

theorem tags_eq_nil_iff : (family stem first last).tags = [] ↔ last < first := by
  simp only [tags, List.map_eq_nil_iff, List.range'_eq_nil_iff]
  omega

-- `tags` are the members of a family from `first` to `last`, all of which have a place in a
-- declaration.
structure Enumerates (stem : String) (first last : Nat) (tags : List Tag) : Prop where
  ascending  : tags.Pairwise (· < ·)
  mem_iff    : ∀ tag, tag ∈ tags ↔ ∃ n, first ≤ n ∧ n ≤ last ∧ tag = member stem n
  member_iff : ∀ n ≤ 99, member stem n ∈ tags ↔ first ≤ n ∧ n ≤ last
  nil_iff    : tags = [] ↔ last < first
  length     : ∀ tag ∈ tags, tag.bytes.length = 4
  declared   : ∀ chosen ⊆ tags, ∀ format source, ∃ out, render format source chosen = .ok out

theorem Spells.enumerates {field : String} (h : Spells field stem first last) :
    Enumerates stem first last (family stem first last).tags where
  ascending  := pairwise_lt_tags h.last_le
  mem_iff    := fun _ => mem_tags_iff
  member_iff := by
    intro n hn
    rw [mem_tags_iff]
    constructor
    case mp =>
      intro ⟨m, hf, hl, he⟩
      rw [(member_inj hn (Nat.le_trans hl h.last_le)).mp he]
      exact ⟨hf, hl⟩
    case mpr => exact fun ⟨hf, hl⟩ => ⟨n, hf, hl, rfl⟩
  nil_iff    := tags_eq_nil_iff
  length     := fun _ hm => (h.isValid_of_mem_tags hm).length
  declared   := by
    intro chosen hc format source
    have ⟨codes, hk⟩ := exists_mapM_iff.mpr fun tag hm =>
      Code.exists_ofTag_iff.mpr (h.isValid_of_mem_tags (hc hm))
    exact ⟨_, render_eq_ok_iff.mpr ⟨codes, hk, rfl⟩⟩

-- A field is taken for a family exactly if it writes one out, and no two fields write out the same
-- one. All other fields are kept as they are.
theorem ofField_outcome (field : String) :
    (∀ stem first last, ofField field = .family stem first last ↔
      Spells field stem first last) ∧
    ((¬∃ stem first last, Spells field stem first last) → ofField field = .literal field) ∧
    ∀ stem first last, ofField field = .family stem first last →
      (∀ field', ofField field' = .family stem first last → field' = field) ∧
      Enumerates stem first last (ofField field).tags := by
  refine ⟨fun _ _ _ => ofField_eq_family_iff, ofField_eq_literal_iff.mpr, ?_⟩
  intro stem first last h
  have hs := ofField_eq_family_iff.mp h
  refine ⟨fun field' h' => ?_, h ▸ hs.enumerates⟩
  rw [(ofField_eq_family_iff.mp h').field_eq, hs.field_eq]

end Form
end TagRegistry
