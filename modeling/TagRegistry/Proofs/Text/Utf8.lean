import Mathlib.Order.Bounds.Defs
import TagRegistry.Text.Utf8

namespace TagRegistry.Text

theorem toNat_lt_of_char (c : Char) : c.toNat < 0x110000 := by
  have h := c.valid
  unfold UInt32.isValidChar Nat.isValidChar at h
  simp only [Char.toNat]
  omega

-- A lead byte announces how many bytes follow, so `codePoint` takes the branch that the character
-- was written by.
theorem codePoint_utf8EncodeChar (c : Char) (rest : Bytes) :
    ∃ lead tail, String.utf8EncodeChar c = lead :: tail ∧
      codePoint lead (tail ++ rest) = c.toNat := by
  have hc := toNat_lt_of_char c
  fun_cases String.utf8EncodeChar c
  case case1 v h =>
    refine ⟨_, _, rfl, ?_⟩
    change _ = v
    simp only [codePoint, UInt8.lt_iff_toNat_lt, UInt8.toNat_ofNat', UInt8.reduceToNat]
    rw [if_pos (by omega)]
    omega
  case case2 v h₁ h₂ =>
    refine ⟨_, _, rfl, ?_⟩
    change _ = v
    simp [codePoint, codePoint.low, UInt8.lt_iff_toNat_lt]
    rw [if_neg (by omega), if_pos (by omega)]
    omega
  case case3 v h₁ h₂ h₃ =>
    refine ⟨_, _, rfl, ?_⟩
    change _ = v
    simp [codePoint, codePoint.low, UInt8.lt_iff_toNat_lt]
    rw [if_neg (by omega), if_neg (by omega), if_pos (by omega)]
    omega
  case case4 v h₁ h₂ h₃ =>
    refine ⟨_, _, rfl, ?_⟩
    change v < _ at hc
    change _ = v
    simp [codePoint, codePoint.low, UInt8.lt_iff_toNat_lt]
    rw [if_neg (by omega), if_neg (by omega), if_neg (by omega)]
    omega

theorem firstChar?_utf8EncodeChar_append (c : Char) (rest : Bytes) :
    firstChar? (String.utf8EncodeChar c ++ rest) = some c := by
  have ⟨lead, tail, he, hp⟩ := codePoint_utf8EncodeChar c rest
  have hc : Char.ofNat (codePoint lead (tail ++ rest)) = c := by rw [hp, Char.ofNat_toNat]
  have hb : (lead :: tail).isPrefixOf (lead :: (tail ++ rest)) := by
    exact List.isPrefixOf_iff_prefix.mpr (List.prefix_append (lead :: tail) rest)
  simp only [he, List.cons_append, firstChar?, hc, hb, if_true]

-- The bytes of a list of characters.
def encode (chars : List Char) : Bytes :=
  chars.flatMap String.utf8EncodeChar

@[simp]
theorem encode_nil : encode [] = [] :=
  rfl

@[simp]
theorem encode_cons (c : Char) (chars : List Char) :
    encode (c :: chars) = String.utf8EncodeChar c ++ encode chars :=
  rfl

@[simp]
theorem encode_append (chars₁ chars₂ : List Char) :
    encode (chars₁ ++ chars₂) = encode chars₁ ++ encode chars₂ :=
  List.flatMap_append

theorem utf8_eq_encode (text : String) : utf8 text = encode text.toList :=
  rfl

theorem utf8_ofList (chars : List Char) : utf8 (String.ofList chars) = encode chars := by
  simp [utf8_eq_encode]

theorem utf8_append (text₁ text₂ : String) : utf8 (text₁ ++ text₂) = utf8 text₁ ++ utf8 text₂ := by
  simp [utf8_eq_encode]

theorem decode_nil : decode [] = ([], []) := by
  rw [decode]
  rfl

theorem decode_encode_append (chars : List Char) (rest : Bytes) :
    decode (encode chars ++ rest) = (chars ++ (decode rest).1, (decode rest).2) := by
  induction chars with
  | nil => rfl
  | cons c chars ih =>
    have hf := firstChar?_utf8EncodeChar_append c (encode chars ++ rest)
    rw [encode_cons, List.append_assoc, decode]
    split
    case h_1 h => simp [hf] at h
    case h_2 c' h =>
      cases hf ▸ h
      simp only [List.drop_left, ih, List.cons_append]

theorem ofUtf8?_utf8 (text : String) : ofUtf8? (utf8 text) = some text := by
  have h := decode_encode_append text.toList []
  simp only [List.append_nil, decode_nil] at h
  simp [ofUtf8?, utf8_eq_encode, h]

theorem ofUtf8?_eq_some_iff {bytes : Bytes} {text : String} :
    ofUtf8? bytes = some text ↔ bytes = utf8 text where
  mp h := (utf8_of_ofUtf8? h).symm
  mpr h := h ▸ ofUtf8?_utf8 text

-- The bytes of a text.
def IsValid (bytes : Bytes) : Prop :=
  ∃ text, utf8 text = bytes

theorem ofUtf8?_eq_none_iff {bytes : Bytes} : ofUtf8? bytes = none ↔ ¬IsValid bytes := by
  simp only [IsValid, eq_comm, ← ofUtf8?_eq_some_iff]
  cases ofUtf8? bytes <;> simp

theorem isValid_encode (chars : List Char) : IsValid (encode chars) :=
  ⟨String.ofList chars, utf8_ofList chars⟩

theorem length_encode_decode (bytes : Bytes) :
    (encode (decode bytes).1).length = validLength bytes := by
  have h := congrArg List.length (utf8_decode_append bytes)
  rw [List.length_append] at h
  rw [validLength, encode]
  omega

theorem isGreatest_validLength (bytes : Bytes) :
    IsGreatest {n | n ≤ bytes.length ∧ IsValid (bytes.take n)} (validLength bytes) := by
  constructor
  case left =>
    refine ⟨Nat.sub_le .., ?_⟩
    have ht : bytes.take (validLength bytes) = encode (decode bytes).1 := by
      conv => lhs; rhs; rw [← utf8_decode_append bytes]
      rw [← length_encode_decode]
      exact List.take_left
    rw [ht]
    exact isValid_encode _
  case right =>
    intro n ⟨hn, text, ht⟩
    -- What follows a text is decoded on its own, so no byte of the text is left over.
    have hd := decode_encode_append text.toList (bytes.drop n)
    rw [← utf8_eq_encode, ht, List.take_append_drop] at hd
    have hl := congrArg List.length (utf8_decode_append (bytes.drop n))
    rw [List.length_append, List.length_drop] at hl
    simp only [validLength, hd]
    omega

theorem utf8_injective {text₁ text₂ : String} (h : utf8 text₁ = utf8 text₂) : text₁ = text₂ := by
  have h₁ := ofUtf8?_utf8 text₁
  rw [h, ofUtf8?_utf8] at h₁
  exact (Option.some.inj h₁).symm

theorem utf8EncodeChar_of_lt {c : Char} (h : c.toNat < 0x80) :
    String.utf8EncodeChar c = [UInt8.ofNat c.toNat] := by
  have hc : c.val.toNat ≤ 0x7F := Nat.le_of_lt_succ h
  simp only [String.utf8EncodeChar, hc, if_true]
  rfl

theorem isValid_of_lt {bytes : Bytes} (h : ∀ byte ∈ bytes, byte < 0x80) : IsValid bytes := by
  suffices ∃ chars, encode chars = bytes by
    have ⟨chars, hc⟩ := this
    exact hc ▸ isValid_encode chars
  induction bytes with
  | nil => exact ⟨[], rfl⟩
  | cons byte bytes hi =>
    have ⟨hb, hbs⟩ := List.forall_mem_cons.mp h
    have ⟨chars, hc⟩ := hi hbs
    rw [UInt8.lt_iff_toNat_lt] at hb
    have hn : (Char.ofNat byte.toNat).toNat = byte.toNat := by
      rw [Char.ofNat, dif_pos (.inl (Nat.lt_trans hb (by decide)))]
      rfl
    refine ⟨Char.ofNat byte.toNat :: chars, ?_⟩
    rw [encode_cons, utf8EncodeChar_of_lt (by rwa [hn]), hc, hn]
    simp

-- No byte of a longer sequence can be taken for an ASCII character.
theorem le_of_mem_utf8EncodeChar {c : Char} (h : 0x80 ≤ c.toNat) :
    ∀ byte ∈ String.utf8EncodeChar c, 0x80 ≤ byte := by
  have hc := toNat_lt_of_char c
  fun_cases String.utf8EncodeChar c
  case case1 v hv =>
    change _ ≤ v at h
    omega
  all_goals
    simp only [List.mem_cons, List.not_mem_nil, or_false, UInt8.le_iff_toNat_le]
    rintro byte (rfl | rfl | rfl | rfl) <;> simp <;> omega

theorem eq_of_mem_utf8EncodeChar {c ascii : Char} (ha : ascii.toNat < 0x80)
    (h : UInt8.ofNat ascii.toNat ∈ String.utf8EncodeChar c) : c = ascii := by
  have hb : (UInt8.ofNat ascii.toNat).toNat = ascii.toNat := by
    rw [UInt8.toNat_ofNat']
    omega
  by_cases hc : c.toNat < 0x80
  case pos =>
    rw [utf8EncodeChar_of_lt hc, List.mem_singleton] at h
    have h := congrArg UInt8.toNat h
    rw [hb, UInt8.toNat_ofNat'] at h
    apply Char.toNat_inj.mp
    omega
  case neg =>
    have h := le_of_mem_utf8EncodeChar (Nat.le_of_not_lt hc) _ h
    rw [UInt8.le_iff_toNat_le, hb] at h
    exact absurd ha (Nat.not_lt.mpr h)

theorem head?_eq_of_head?_encode {chars : List Char} {ascii : Char} (ha : ascii.toNat < 0x80)
    (h : (encode chars).head? = some (UInt8.ofNat ascii.toNat)) : chars.head? = some ascii := by
  cases chars with
  | nil => cases h
  | cons c chars =>
    have ⟨lead, tail, he⟩ := List.exists_cons_of_ne_nil (String.utf8EncodeChar_ne_nil (c := c))
    rw [encode_cons, he, List.cons_append, List.head?_cons] at h
    have hb : UInt8.ofNat ascii.toNat ∈ String.utf8EncodeChar c := by
      rw [he, ← Option.some.inj h]
      exact List.mem_cons_self
    rw [eq_of_mem_utf8EncodeChar ha hb, List.head?_cons]

theorem mem_of_mem_encode {chars : List Char} {ascii : Char} (ha : ascii.toNat < 0x80)
    (h : UInt8.ofNat ascii.toNat ∈ encode chars) : ascii ∈ chars := by
  have ⟨c, hc, hb⟩ := List.mem_flatMap.mp h
  exact eq_of_mem_utf8EncodeChar ha hb ▸ hc

end TagRegistry.Text
