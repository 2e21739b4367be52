namespace TagRegistry

abbrev Bytes := List UInt8

namespace Text

def utf8 (text : String) : Bytes :=
  text.toList.flatMap String.utf8EncodeChar

def utf8Length (text : String) : Nat :=
  (utf8 text).length

-- The number that a lead byte and the bytes after it stand for when they are well formed.
def codePoint (lead : UInt8) (rest : Bytes) : Nat :=
  if lead < 0x80 then lead.toNat
  else if lead < 0xE0 then lead.toNat % 32 * 64 + low 0
  else if lead < 0xF0 then lead.toNat % 16 * 4096 + low 0 * 64 + low 1
  else lead.toNat % 8 * 262144 + low 0 * 4096 + low 1 * 64 + low 2
where
  low (i : Nat) : Nat := (rest.getD i 0).toNat % 64

-- The number is only a guess at the first character. The guess is right if the bytes begin the
-- way that character is written, which leaves no room for overlong forms or surrogates.
def firstChar? : Bytes → Option Char
  | [] => none
  | lead :: rest =>
    let c := Char.ofNat (codePoint lead rest)
    if (String.utf8EncodeChar c).isPrefixOf (lead :: rest) then some c else none

theorem utf8EncodeChar_prefix_of_firstChar? {bytes : Bytes} {c : Char}
    (h : firstChar? bytes = some c) : String.utf8EncodeChar c <+: bytes := by
  cases bytes with
  | nil => simp [firstChar?] at h
  | cons lead rest =>
    simp only [firstChar?, Option.ite_none_right_eq_some, Option.some.injEq] at h
    obtain ⟨hp, rfl⟩ := h
    exact List.isPrefixOf_iff_prefix.mp hp

theorem utf8EncodeChar_length_pos (c : Char) : 0 < (String.utf8EncodeChar c).length := by
  simp [Char.utf8Size_pos]

-- The characters that `bytes` spell, and the bytes from the first on that spell none.
def decode (bytes : Bytes) : List Char × Bytes :=
  match _h : firstChar? bytes with
  | none => ([], bytes)
  | some c =>
    let (chars, rest) := decode (bytes.drop (String.utf8EncodeChar c).length)
    (c :: chars, rest)
termination_by bytes.length
decreasing_by
  have hp := (utf8EncodeChar_prefix_of_firstChar? _h).length_le
  have := utf8EncodeChar_length_pos c
  simp only [List.length_drop]
  omega

theorem utf8_decode_append (bytes : Bytes) :
    (decode bytes).1.flatMap String.utf8EncodeChar ++ (decode bytes).2 = bytes := by
  fun_induction decode bytes with
  | case1 => simp
  | case2 bytes c h chars rest hd ih =>
    rw [hd] at ih
    have hp := List.prefix_iff_eq_take.mp (utf8EncodeChar_prefix_of_firstChar? h)
    simp only [List.flatMap_cons, List.append_assoc, ih]
    conv => lhs; lhs; rw [hp]
    exact List.take_append_drop ..

-- How many bytes stand before the first that spells no character.
def validLength (bytes : Bytes) : Nat :=
  bytes.length - (decode bytes).2.length

def ofUtf8? (bytes : Bytes) : Option String :=
  match decode bytes with
  | (chars, []) => some (String.ofList chars)
  | _ => none

theorem utf8_of_ofUtf8? {bytes : Bytes} {text : String} (h : ofUtf8? bytes = some text) :
    utf8 text = bytes := by
  unfold ofUtf8? at h
  split at h
  case h_1 chars hd =>
    have := utf8_decode_append bytes
    simp only [hd, List.append_nil] at this
    simp [utf8, ← Option.some.inj h, this]
  case h_2 => cases h

end Text
end TagRegistry
