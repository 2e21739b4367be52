import TagRegistry.Tag.Code
import TagRegistry.Proofs.Text.Utf8

namespace TagRegistry

theorem Tag.bytes_injective : Function.Injective Tag.bytes := by
  intro tag₁ tag₂ h
  cases tag₁
  cases tag₂
  exact congrArg Tag.mk (Text.utf8_injective h)

namespace Code

-- Four printable bytes, with spaces only at the end.
structure IsValid (bytes : Bytes) : Prop where
  length : bytes.length = 4
  printable : ∀ byte ∈ bytes, 0x20 ≤ byte ∧ byte ≤ 0x7E
  start : bytes.head? ≠ some space
  padding : bytes.Pairwise fun byte later => byte = space → later = space

theorem toNat_character {byte : UInt8} (h : byte ≤ 0x7E) :
    (character byte).toNat = byte.toNat := by
  have hb : byte.toNat ≤ 0x7E := UInt8.le_iff_toNat_le.mp h
  have hv : byte.toNat.isValidChar := .inl (by omega)
  rw [character, Char.ofNat, dif_pos hv]
  rfl

theorem isPrintable_iff {byte : UInt8} : isPrintable byte ↔ 0x20 ≤ byte ∧ byte ≤ 0x7E := by
  simp [isPrintable]

theorem badByte?_go_cons_eq_none_iff (index : Nat) (padding : Bool) (byte : UInt8) (bytes : Bytes) :
    badByte?.go index padding (byte :: bytes) = none ↔
      isPrintable byte ∧ (index = 0 → byte ≠ space) ∧ (padding → byte = space) ∧
      badByte?.go (index + 1) (byte == space) bytes = none := by
  rw [badByte?.go]
  split
  case isTrue h =>
    simp at h ⊢
    grind
  case isFalse h =>
    simp at h ⊢
    grind

-- The flag `padding` stands for all bytes before: it is set exactly after a space.
theorem badByte?_go_eq_none_iff (index : Nat) (padding : Bool) (bytes : Bytes) :
    badByte?.go index padding bytes = none ↔
      (∀ byte ∈ bytes, isPrintable byte) ∧
      (index = 0 → bytes.head? ≠ some space) ∧
      (padding → ∀ byte ∈ bytes, byte = space) ∧
      bytes.Pairwise fun byte later => byte = space → later = space := by
  induction bytes generalizing index padding with
  | nil => simp [badByte?.go]
  | cons byte bytes hi =>
    rw [badByte?_go_cons_eq_none_iff, hi, List.pairwise_cons, List.forall_mem_cons,
      List.forall_mem_cons]
    simp only [beq_iff_eq, List.head?_cons]
    constructor
    case mp =>
      intro ⟨hp, hs, ht, hps, _, hc, hpw⟩
      refine ⟨⟨hp, hps⟩, fun h => by simpa using hs h, ?_, fun b hb h => hc h b hb, hpw⟩
      exact fun h => ⟨ht h, hc (ht h)⟩
    case mpr =>
      intro ⟨⟨hp, hps⟩, hs, ht, hc, hpw⟩
      refine ⟨hp, fun h => by simpa using hs h, fun h => (ht h).1, hps, by simp, ?_, hpw⟩
      exact fun h b hb => hc b hb h

theorem ofBytes?_eq_none_iff {bytes : Bytes} : ofBytes? bytes = none ↔ bytes.length ≠ 4 := by
  unfold ofBytes?
  split
  case h_1 => simp
  case h_2 h =>
    simp only [true_iff]
    intro hl
    match bytes, hl with
    | [_, _, _, _], _ => exact h _ _ _ _ rfl

theorem exists_ofTag_iff {tag : Tag} : (∃ code, ofTag tag = .ok code) ↔ IsValid tag.bytes := by
  constructor
  case mp =>
    intro ⟨code, h⟩
    unfold ofTag at h
    split at h
    case h_1 => cases h
    case h_2 c hc =>
      split at h
      case h_2 => cases h
      case h_1 hb =>
        have ⟨hp, hs, _, hpw⟩ := (badByte?_go_eq_none_iff _ _ _).mp hb
        rw [bytes_of_ofBytes? hc] at hp hs hpw
        refine ⟨?_, fun byte hm => isPrintable_iff.mp (hp byte hm), hs rfl, hpw⟩
        rw [← bytes_of_ofBytes? hc]
        rfl
  case mpr =>
    intro ⟨hl, hp, hs, hpw⟩
    unfold ofTag
    split
    case h_1 hc => exact absurd hl (ofBytes?_eq_none_iff.mp hc)
    case h_2 c hc =>
      have hb : badByte? c.bytes = none := by
        rw [bytes_of_ofBytes? hc]
        refine (badByte?_go_eq_none_iff _ _ _).mpr ⟨?_, fun _ => hs, by simp, hpw⟩
        exact fun byte hm => isPrintable_iff.mpr (hp byte hm)
      exact ⟨c, by rw [hb]⟩

-- Four characters that are printed in ink always do.
theorem isValid_encode {chars : List Char} (hl : chars.length = 4)
    (hc : ∀ c ∈ chars, 0x20 < c.toNat ∧ c.toNat ≤ 0x7E) : IsValid (Text.encode chars) := by
  have he : Text.encode chars = chars.map fun c => UInt8.ofNat c.toNat := by
    clear hl
    induction chars with
    | nil => rfl
    | cons c chars hi =>
      have ⟨hc, hcs⟩ := List.forall_mem_cons.mp hc
      rw [Text.encode_cons, Text.utf8EncodeChar_of_lt (by omega), hi hcs]
      rfl
  have hb : ∀ byte ∈ Text.encode chars, 0x20 < byte ∧ byte ≤ 0x7E := by
    rw [he]
    intro byte hm
    have ⟨c, hm, hb⟩ := List.mem_map.mp hm
    have := hc c hm
    simp only [← hb, UInt8.lt_iff_toNat_lt, UInt8.le_iff_toNat_le, UInt8.toNat_ofNat',
      UInt8.reduceToNat]
    omega
  have hs : ∀ byte ∈ Text.encode chars, byte ≠ space := by
    intro byte hm he
    subst he
    exact absurd (hb space hm).left (by decide)
  constructor
  case length => rw [he, List.length_map, hl]
  case printable => exact fun byte hm => ⟨UInt8.le_of_lt (hb byte hm).left, (hb byte hm).right⟩
  case start => exact fun h => hs space (List.mem_of_mem_head? h) rfl
  case padding =>
    exact List.pairwise_of_forall_mem_list fun byte hm _ _ h => absurd h (hs byte hm)

end Code

end TagRegistry
