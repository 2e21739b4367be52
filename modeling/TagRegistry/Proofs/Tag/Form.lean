import TagRegistry.Tag.Form
import TagRegistry.Proofs.Tag.Code

namespace TagRegistry

namespace Text

theorem twoDigits_toList {n : Nat} (h : n ≤ 99) :
    (twoDigits n).toList = [(n / 10).digitChar, (n % 10).digitChar] := by
  unfold twoDigits
  split
  case isTrue hn =>
    rw [Nat.div_eq_of_lt hn, Nat.mod_eq_of_lt hn]
    simp [Nat.toDigits_of_lt_base hn]
  case isFalse hn =>
    have hd : n / 10 < 10 := by omega
    simp [Nat.toDigits_of_base_le, Nat.toDigits_of_lt_base hd, Nat.le_of_not_lt hn]

-- The code points of the digits, as numbers that arithmetic can work with.
theorem isDigit_iff {c : Char} : c.isDigit ↔ 48 ≤ c.toNat ∧ c.toNat ≤ 57 :=
  Char.isDigit_iff_toNat

theorem digitChar_of_isDigit {c : Char} (h : c.isDigit) : (c.toNat - 48).digitChar = c := by
  rw [isDigit_iff] at h
  apply Char.toNat_inj.mp
  rw [Nat.toNat_digitChar_of_lt_ten (by omega)]
  omega

end Text

namespace Form

-- Two lower-case letters.
def IsStem (stem : String) : Prop :=
  ∃ a b : Char, ('a' ≤ a ∧ a ≤ 'z') ∧ ('a' ≤ b ∧ b ≤ 'z') ∧ stem = String.ofList [a, b]

-- `field` writes out the family of the tags that start with `stem` and go on with the numbers from
-- `first` to `last`.
structure Spells (field stem : String) (first last : Nat) : Prop where
  isStem   : IsStem stem
  first_le : first ≤ 99
  last_le  : last ≤ 99
  field_eq : field = stem ++ Text.twoDigits first ++ "-" ++ stem ++ Text.twoDigits last

theorem number_eq (tens ones : Char) :
    number tens ones = (tens.toNat - 48) * 10 + (ones.toNat - 48) :=
  rfl

theorem number_le {tens ones : Char} (ht : tens.isDigit) (ho : ones.isDigit) :
    number tens ones ≤ 99 := by
  rw [Text.isDigit_iff] at ht ho
  rw [number_eq]
  omega

theorem twoDigits_number {tens ones : Char} (ht : tens.isDigit) (ho : ones.isDigit) :
    (Text.twoDigits (number tens ones)).toList = [tens, ones] := by
  have ht' := Text.isDigit_iff.mp ht
  have ho' := Text.isDigit_iff.mp ho
  have hd : number tens ones / 10 = tens.toNat - 48 := by
    rw [number_eq]
    omega
  have hm : number tens ones % 10 = ones.toNat - 48 := by
    rw [number_eq]
    omega
  rw [Text.twoDigits_toList (number_le ht ho), hd, hm, Text.digitChar_of_isDigit ht,
    Text.digitChar_of_isDigit ho]

theorem number_digitChar {n : Nat} (h : n ≤ 99) :
    number (n / 10).digitChar (n % 10).digitChar = n := by
  have hd : n / 10 < 10 := by omega
  have hm : n % 10 < 10 := by omega
  rw [number_eq, Nat.toNat_digitChar_of_lt_ten hd, Nat.toNat_digitChar_of_lt_ten hm]
  omega

theorem isLetter_iff {c : Char} : isLetter c ↔ 'a' ≤ c ∧ c ≤ 'z' := by
  simp [isLetter]

theorem family?_eq_some_iff {field stem : String} {first last : Nat} :
    family? field.toList = some (.family stem first last) ↔ Spells field stem first last := by
  constructor
  case mp =>
    intro h
    unfold family? at h
    split at h
    case h_2 => cases h
    case h_1 a b tens₁ ones₁ a' b' tens₂ ones₂ hf =>
      split at h
      case isFalse => cases h
      case isTrue hc =>
        cases h
        simp only [Bool.and_eq_true, List.all_cons, List.all_nil, Bool.and_true, beq_iff_eq,
          List.cons.injEq, and_true, isLetter_iff] at hc
        obtain ⟨⟨⟨ha, hb⟩, ht₁, ho₁, ht₂, ho₂⟩, rfl, rfl⟩ := hc
        refine ⟨⟨a, b, ha, hb, rfl⟩, number_le ht₁ ho₁, number_le ht₂ ho₂, ?_⟩
        apply String.toList_inj.mp
        simp [hf, twoDigits_number ht₁ ho₁, twoDigits_number ht₂ ho₂]
  case mpr =>
    intro ⟨⟨a, b, ha, hb, hp⟩, h₁, h₂, hs⟩
    subst hp hs
    have hd : ∀ n ≤ 99, (n / 10).digitChar.isDigit ∧ (n % 10).digitChar.isDigit := by
      intro n hn
      simp only [Nat.isDigit_digitChar, decide_eq_true_eq]
      omega
    simp [Text.twoDigits_toList h₁, Text.twoDigits_toList h₂, family?, number_digitChar, h₁, h₂,
      isLetter_iff, ha, hb, hd]

theorem exists_eq_family_of_family? {chars : List Char} {form : Form}
    (h : family? chars = some form) : ∃ stem first last, form = .family stem first last := by
  unfold family? at h
  split at h
  case h_2 => cases h
  case h_1 =>
    split at h <;> cases h
    exact ⟨_, _, _, rfl⟩

theorem ofField_eq_family_iff {field stem : String} {first last : Nat} :
    ofField field = .family stem first last ↔ Spells field stem first last := by
  rw [← family?_eq_some_iff, ofField]
  cases family? field.toList <;> simp

theorem ofField_eq_literal_iff {field : String} :
    ofField field = .literal field ↔ ¬∃ stem first last, Spells field stem first last := by
  simp only [← family?_eq_some_iff]
  cases hf : family? field.toList
  case none => simp [ofField, hf]
  case some =>
    obtain ⟨stem, first, last, rfl⟩ := exists_eq_family_of_family? hf
    simp [ofField, hf]

theorem isValid_member {stem : String} (hs : IsStem stem) {n : Nat} (hn : n ≤ 99) :
    Code.IsValid (member stem n).bytes := by
  obtain ⟨a, b, ha, hb, rfl⟩ := hs
  have hd : (n / 10).digitChar.toNat = 48 + n / 10 := Nat.toNat_digitChar_of_lt_ten (by omega)
  have hm : (n % 10).digitChar.toNat = 48 + n % 10 := Nat.toNat_digitChar_of_lt_ten (by omega)
  have ha : 97 ≤ a.toNat ∧ a.toNat ≤ 122 := ha
  have hb : 97 ≤ b.toNat ∧ b.toNat ≤ 122 := hb
  rw [Tag.bytes, member, Text.utf8_append, Text.utf8_ofList, Text.utf8_eq_encode,
    Text.twoDigits_toList hn, ← Text.encode_append]
  apply Code.isValid_encode rfl
  intro c hc
  simp only [List.cons_append, List.nil_append, List.mem_cons, List.not_mem_nil, or_false] at hc
  rcases hc with rfl | rfl | rfl | rfl <;> omega

theorem Spells.isValid_of_mem_tags {field stem : String} {first last : Nat} {tag : Tag}
    (h : Spells field stem first last) (hm : tag ∈ (family stem first last).tags) :
    Code.IsValid tag.bytes := by
  obtain ⟨n, hn, rfl⟩ := List.mem_map.mp hm
  apply isValid_member h.isStem
  have := List.mem_range'_1.mp hn
  have := h.last_le
  omega

end Form
end TagRegistry
