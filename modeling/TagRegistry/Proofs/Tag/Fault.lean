import TagRegistry.Proofs.Tag.Code

namespace TagRegistry.Code

-- The byte at `index` may not stand there: it is not printable, or it is a space at the start, or
-- it comes after a space and is none itself.
def Offends (bytes : Bytes) (index : Nat) : Prop :=
  ∃ byte, bytes[index]? = some byte ∧
    (¬(0x20 ≤ byte ∧ byte ≤ 0x7E) ∨ (byte = space ∧ index = 0) ∨
      (byte ≠ space ∧ space ∈ bytes.take index))

structure FirstOffence (bytes : Bytes) (found : BadByte) : Prop where
  getElem? : bytes[found.index]? = some found.byte
  offends  : Offends bytes found.index
  least    : ∀ index < found.index, ¬Offends bytes index

-- The outcome of a search for the first offence.
def Finds (bytes : Bytes) : Option BadByte → Prop
  | none       => ∀ index, ¬Offends bytes index
  | some found => FirstOffence bytes found

-- What is wrong with a tag. The bytes are not looked at before there are four of them.
inductive Fault (tag : Tag) : Error → Prop
  | wrongLength : tag.bytes.length ≠ 4 → Fault tag (.wrongLength tag tag.bytes.length)
  | badByte {found} : tag.bytes.length = 4 → FirstOffence tag.bytes found →
    Fault tag (.badByte tag found)

variable {bytes : Bytes} {found found₁ found₂ : BadByte} {tag : Tag} {error : Error}

theorem FirstOffence.deterministic (h₁ : FirstOffence bytes found₁)
    (h₂ : FirstOffence bytes found₂) : found₁ = found₂ := by
  have hi : found₁.index = found₂.index := by
    rcases Nat.lt_trichotomy found₁.index found₂.index with h | h | h
    · exact absurd h₁.offends (h₂.least _ h)
    · exact h
    · exact absurd h₂.offends (h₁.least _ h)
  have hb : found₁.byte = found₂.byte := by
    have := h₁.getElem?.symm.trans (hi ▸ h₂.getElem?)
    exact Option.some.inj this
  cases found₁
  cases found₂
  cases hi
  cases hb
  rfl

theorem offends_append_cons_iff (before after : Bytes) (byte : UInt8) :
    Offends (before ++ byte :: after) before.length ↔
      ¬isPrintable byte ∨ (byte = space ∧ before.length = 0) ∨ (byte ≠ space ∧ space ∈ before) := by
  simp [Offends, isPrintable_iff]

-- `before` are the bytes that have been passed. There is a space among them exactly if the last one
-- is a space, as otherwise that one would not have been passed.
theorem finds_badByte?_go (before bytes : Bytes)
    (h : ∀ index < before.length, ¬Offends (before ++ bytes) index) :
    Finds (before ++ bytes) (badByte?.go before.length (decide (space ∈ before)) bytes) := by
  induction bytes generalizing before with
  | nil =>
    intro index ho
    have ⟨_, hg, _⟩ := ho
    have ⟨hi, _⟩ := List.getElem?_eq_some_iff.mp hg
    rw [List.append_nil] at hi
    exact h index hi ho
  | cons byte bytes hi =>
    have ho := offends_append_cons_iff before bytes byte
    have hc : (!isPrintable byte || (byte == space && before.length == 0) ||
        (byte != space && decide (space ∈ before))) = true ↔
        Offends (before ++ byte :: bytes) before.length := by
      rw [ho]
      simp [or_assoc]
    rw [badByte?.go]
    by_cases hf : Offends (before ++ byte :: bytes) before.length
    case pos =>
      rw [if_pos (hc.mpr hf)]
      exact ⟨by simp, hf, h⟩
    case neg =>
      have hn : ∀ index < (before ++ [byte]).length,
          ¬Offends (before ++ [byte] ++ bytes) index := by
        intro index hlt
        rw [List.append_cons] at h hf
        rcases Nat.lt_succ_iff_lt_or_eq.mp (by simpa using hlt) with hlt | rfl
        · exact h index hlt
        · exact hf
      have hs : (byte == space) = decide (space ∈ before ++ [byte]) := by
        rw [ho] at hf
        by_cases hb : byte = space
        case pos => simp [hb]
        case neg =>
          have : space ∉ before := fun hm => hf (.inr (.inr ⟨hb, hm⟩))
          simp [hb, this, Ne.symm hb]
      have hr := hi (before ++ [byte]) hn
      rw [if_neg (mt hc.mp hf), hs, List.append_cons before byte bytes]
      rwa [List.length_append] at hr

theorem finds_badByte? (bytes : Bytes) : Finds bytes (badByte? bytes) :=
  finds_badByte?_go [] bytes (by simp)

theorem badByte?_eq_none_iff : badByte? bytes = none ↔ ∀ index, ¬Offends bytes index := by
  have h := finds_badByte? bytes
  cases hb : badByte? bytes with
  | none =>
    rw [hb] at h
    exact iff_of_true rfl h
  | some found =>
    rw [hb] at h
    exact iff_of_false nofun fun hn => hn _ h.offends

theorem badByte?_eq_some_iff : badByte? bytes = some found ↔ FirstOffence bytes found := by
  have h := finds_badByte? bytes
  constructor
  case mp =>
    intro hb
    rwa [hb] at h
  case mpr =>
    intro hf
    cases hb : badByte? bytes with
    | none =>
      rw [hb] at h
      exact absurd hf.offends (h _)
    | some found' =>
      rw [hb] at h
      rw [FirstOffence.deterministic h hf]

theorem ofTag_eq_of_length (h : tag.bytes.length = 4) : ∃ code,
    ofTag tag = (badByte? tag.bytes).elim (.ok code) fun found => .error (.badByte tag found) := by
  have hn : ofBytes? tag.bytes ≠ none := mt ofBytes?_eq_none_iff.mp (not_not_intro h)
  obtain ⟨code, hc⟩ := Option.ne_none_iff_exists'.mp hn
  refine ⟨code, ?_⟩
  rw [ofTag, hc]
  simp only [bytes_of_ofBytes? hc]
  cases badByte? tag.bytes <;> rfl

theorem ofTag_eq_error_iff : ofTag tag = .error error ↔ Fault tag error := by
  by_cases hl : tag.bytes.length = 4
  case neg =>
    have ht : ofTag tag = .error (.wrongLength tag tag.bytes.length) := by
      rw [ofTag, ofBytes?_eq_none_iff.mpr hl]
    rw [ht]
    constructor
    case mp =>
      intro he
      cases he
      exact .wrongLength hl
    case mpr =>
      intro hf
      cases hf with
      | wrongLength  => rfl
      | badByte hl'  => exact absurd hl' hl
  case pos =>
    have ⟨code, ht⟩ := ofTag_eq_of_length hl
    rw [ht]
    constructor
    case mp =>
      intro he
      cases hb : badByte? tag.bytes with
      | none => rw [hb] at he; cases he
      | some found =>
        rw [hb] at he
        cases he
        exact .badByte hl (badByte?_eq_some_iff.mp hb)
    case mpr =>
      intro hf
      cases hf with
      | wrongLength hl' => exact absurd hl hl'
      | badByte _ ho    => rw [badByte?_eq_some_iff.mpr ho]; rfl

theorem exists_fault_iff : (∃ error, Fault tag error) ↔
    tag.bytes.length ≠ 4 ∨ ∃ index, Offends tag.bytes index := by
  constructor
  case mp =>
    intro ⟨error, hf⟩
    cases hf with
    | wrongLength hl => exact .inl hl
    | badByte _ ho   => exact .inr ⟨_, ho.offends⟩
  case mpr =>
    intro h
    by_cases hl : tag.bytes.length = 4
    case neg => exact ⟨_, .wrongLength hl⟩
    case pos =>
      have hb : badByte? tag.bytes ≠ none := by
        have ⟨index, ho⟩ := h.resolve_left (not_not_intro hl)
        exact fun hn => badByte?_eq_none_iff.mp hn index ho
      have ⟨found, hb⟩ := Option.ne_none_iff_exists'.mp hb
      exact ⟨_, .badByte hl (badByte?_eq_some_iff.mp hb)⟩

end TagRegistry.Code
