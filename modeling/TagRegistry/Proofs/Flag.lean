import TagRegistry.Flag

namespace TagRegistry

namespace Flag

-- The greatest number that is read behind a sign. There is one negative number more than there are
-- positive ones.
def limit (sign : List Char) : Nat :=
  if sign = ['-'] then Nat.pow 2 63 else Nat.pow 2 63 - 1

def IsSign (sign : List Char) : Prop :=
  sign = [] ∨ sign = ['+'] ∨ sign = ['-']

-- An integer as it is written: one digit or more, with or without a sign.
structure Numeral where
  sign    : List Char
  digits  : List Char
  isSign  : IsSign sign
  ne_nil  : digits ≠ []
  isDigit : ∀ c ∈ digits, c.isDigit

namespace Numeral

def chars (numeral : Numeral) : List Char :=
  numeral.sign ++ numeral.digits

-- The number that the digits stand for, whatever the sign.
def value (numeral : Numeral) : Nat :=
  Nat.ofDigitChars 10 numeral.digits 0

theorem chars_ne_nil (numeral : Numeral) : numeral.chars ≠ [] :=
  List.append_ne_nil_of_right_ne_nil _ numeral.ne_nil

theorem eq_of_mem_chars {numeral : Numeral} {c : Char} (h : c ∈ numeral.chars) :
    c = '+' ∨ c = '-' ∨ c.isDigit := by
  cases List.mem_append.mp h
  case inl h => rcases numeral.isSign with hs | hs | hs <;> simp_all
  case inr h => exact .inr (.inr (numeral.isDigit c h))

theorem not_isBlank_of_mem_chars {numeral : Numeral} {c : Char} (h : c ∈ numeral.chars) :
    Text.isBlank c = false := by
  rcases eq_of_mem_chars h with rfl | rfl | hd
  · decide
  · decide
  · have hd : 48 ≤ c.toNat ∧ c.toNat ≤ 57 := Char.isDigit_iff_toNat.mp hd
    simp [Text.isBlank, Text.blankRanges]
    omega

end Numeral

-- `text` starts with an integer past the limit.
def StartsOversized (text : List Char) : Prop :=
  ∃ (numeral : Numeral) (rest : List Char),
    limit numeral.sign < numeral.value ∧ text = numeral.chars ++ rest

namespace Magnitude

variable {limit value : Nat}

-- More digits make no number smaller.
theorem le_ofDigitChars (digits : List Char) (value : Nat) :
    value ≤ Nat.ofDigitChars 10 digits value := by
  induction digits generalizing value with
  | nil => exact Nat.le_refl value
  | cons c digits hi =>
    rw [Nat.ofDigitChars_cons]
    exact Nat.le_trans (by omega) (hi _)

theorem read_append {digits : List Char} (hd : ∀ c ∈ digits, c.isDigit) (hv : value ≤ limit)
    (rest : List Char) : read limit value (digits ++ rest) =
      if Nat.ofDigitChars 10 digits value ≤ limit then
        read limit (Nat.ofDigitChars 10 digits value) rest
      else .tooLarge := by
  induction digits generalizing value with
  | nil => simp [hv]
  | cons c digits hi =>
    obtain ⟨hc, hds⟩ := List.forall_mem_cons.mp hd
    rw [List.cons_append, read, if_pos hc, Nat.ofDigitChars_cons, Nat.mul_comm 10]
    have hle := le_ofDigitChars digits (value * 10 + (c.toNat - '0'.toNat))
    by_cases hl : value * 10 + (c.toNat - '0'.toNat) ≤ limit
    case pos => exact (if_pos hl).trans (hi hds hl)
    case neg => exact (if_neg hl).trans (if_neg (by omega)).symm

theorem isDigit_of_read {chars : List Char} {n : Nat} (h : read limit value chars = .exactly n) :
    ∀ c ∈ chars, c.isDigit := by
  fun_induction read limit value chars with
  | case1 => simp
  | case2 value c rest hc value' hl hi => exact List.forall_mem_cons.mpr ⟨hc, hi h⟩
  | case3 => cases h
  | case4 => cases h

theorem exists_of_read_eq_tooLarge {chars : List Char} (h : read limit value chars = .tooLarge) :
    ∃ digits rest, chars = digits ++ rest ∧ digits ≠ [] ∧ (∀ c ∈ digits, c.isDigit) ∧
      limit < Nat.ofDigitChars 10 digits value := by
  fun_induction read limit value chars with
  | case1 => cases h
  | case2 value c rest hc value' hl hi =>
    obtain ⟨digits, rest, rfl, _, hd, hv⟩ := hi h
    refine ⟨c :: digits, rest, rfl, by simp, List.forall_mem_cons.mpr ⟨hc, hd⟩, ?_⟩
    rwa [Nat.ofDigitChars_cons, Nat.mul_comm 10]
  | case3 value c rest hc value' hl =>
    refine ⟨[c], rest, rfl, by simp, by simpa using hc, ?_⟩
    rw [Nat.ofDigitChars_cons, Nat.mul_comm 10]
    exact Nat.lt_of_not_le hl
  | case4 => cases h

theorem ofDigits_append {digits : List Char} (hne : digits ≠ []) (hd : ∀ c ∈ digits, c.isDigit)
    (rest : List Char) : ofDigits limit (digits ++ rest) =
      if Nat.ofDigitChars 10 digits 0 ≤ limit then
        read limit (Nat.ofDigitChars 10 digits 0) rest
      else .tooLarge := by
  rw [← read_append hd (Nat.zero_le limit)]
  obtain ⟨c, digits, rfl⟩ := List.exists_cons_of_ne_nil hne
  rfl

end Magnitude

open Magnitude

variable {text : String} {numeral : Numeral}

-- What a number amounts to behind a sign.
def ofMagnitude (sign : List Char) : Magnitude → Flag
  | .exactly n => if sign ≠ ['-'] ∧ n = 1 then .default else .other
  | .tooLarge => .other
  | .malformed => .malformed

theorem positive_eq (digits : List Char) {sign : List Char} (h : sign ≠ ['-']) :
    ofText.positive digits = ofMagnitude sign (ofDigits (Nat.pow 2 63 - 1) digits) := by
  rw [ofText.positive]
  split
  case h_1 hm => simp [hm, ofMagnitude, h]
  case h_2 hm => simp [hm, ofMagnitude]
  case h_3 h₁ h₂ => cases hm : ofDigits (Nat.pow 2 63 - 1) digits <;> simp_all [ofMagnitude]

theorem ofText_of_trim {rest : List Char} (h : Text.trim text.toList = numeral.chars ++ rest) :
    ofText text =
      ofMagnitude numeral.sign (ofDigits (limit numeral.sign) (numeral.digits ++ rest)) := by
  rw [Numeral.chars, List.append_assoc] at h
  rw [ofText, h, limit]
  rcases numeral.isSign with hs | hs | hs <;> rw [hs]
  case inl =>
    -- The first digit is not taken for a sign.
    obtain ⟨c, digits, hc⟩ := List.exists_cons_of_ne_nil numeral.ne_nil
    have hd := numeral.isDigit c (by simp [hc])
    rw [hc, List.nil_append, List.cons_append]
    split
    case h_1 he => cases he; cases hd
    case h_2 he => cases he; cases hd
    case h_3 => exact positive_eq _ (by decide)
  case inr.inl => exact positive_eq _ (by decide)
  case inr.inr =>
    cases hm : ofDigits (Nat.pow 2 63) (numeral.digits ++ rest) <;> simp [hm, ofMagnitude]

-- An integer counts by its value, however many digits it has.
theorem ofText_of_numeral (h : Text.trim text.toList = numeral.chars) :
    ofText text = if numeral.sign ≠ ['-'] ∧ numeral.value = 1 then .default else .other := by
  have ho := ofText_of_trim ((List.append_nil numeral.chars).symm ▸ h)
  rw [ho, ofDigits_append numeral.ne_nil numeral.isDigit, ← Numeral.value]
  split
  case isTrue => rfl
  case isFalse hl =>
    have hv : numeral.value ≠ 1 := by
      intro hv
      rw [hv, limit] at hl
      split at hl <;> simp at hl
    simp [ofMagnitude, hv]

theorem ofText_of_startsOversized (h : StartsOversized (Text.trim text.toList)) :
    ofText text = .other := by
  obtain ⟨numeral, rest, hl, ht⟩ := h
  rw [ofText_of_trim ht, ofDigits_append numeral.ne_nil numeral.isDigit, ← Numeral.value,
    if_neg (Nat.not_le.mpr hl)]
  rfl

theorem ofDigits_eq_malformed {sign digits : List Char} (hs : IsSign sign)
    (hn : ¬∃ numeral : Numeral, sign ++ digits = numeral.chars)
    (ho : ¬StartsOversized (sign ++ digits)) : ofDigits (limit sign) digits = .malformed := by
  cases digits with
  | nil => rfl
  | cons c digits =>
    cases hm : read (limit sign) 0 (c :: digits)
    case malformed => exact hm
    case exactly => exact absurd ⟨⟨sign, _, hs, by simp, isDigit_of_read hm⟩, rfl⟩ hn
    case tooLarge =>
      obtain ⟨first, rest, he, hne, hd, hl⟩ := exists_of_read_eq_tooLarge hm
      rw [he, ← List.append_assoc] at ho
      exact absurd ⟨⟨sign, first, hs, hne, hd⟩, rest, hl, rfl⟩ ho

theorem ofText_eq_malformed (hn : ¬∃ numeral : Numeral, Text.trim text.toList = numeral.chars)
    (ho : ¬StartsOversized (Text.trim text.toList)) : ofText text = .malformed := by
  rw [ofText]
  split
  case h_1 digits ht =>
    rw [ht] at hn ho
    have hm : ofDigits (Nat.pow 2 63) digits = .malformed :=
      ofDigits_eq_malformed (.inr (.inr rfl)) hn ho
    rw [hm]
  case h_2 digits ht =>
    rw [ht] at hn ho
    have hm : ofDigits (Nat.pow 2 63 - 1) digits = .malformed :=
      ofDigits_eq_malformed (.inr (.inl rfl)) hn ho
    rw [ofText.positive, hm]
  case h_3 =>
    have hm : ofDigits (Nat.pow 2 63 - 1) (Text.trim text.toList) = .malformed :=
      ofDigits_eq_malformed (.inl rfl) hn ho
    rw [ofText.positive, hm]

-- The integer 1, with white space around it or none.
def IsOne (text : String) : Prop :=
  ∃ numeral : Numeral,
    Text.trim text.toList = numeral.chars ∧ numeral.sign ≠ ['-'] ∧ numeral.value = 1

-- Neither an integer nor anything that starts with one past the limit.
def IsMalformed (text : String) : Prop :=
  (¬∃ numeral : Numeral, Text.trim text.toList = numeral.chars) ∧
    ¬StartsOversized (Text.trim text.toList)

theorem ofText_eq_malformed_iff : ofText text = .malformed ↔ IsMalformed text := by
  constructor
  case mp =>
    intro h
    constructor
    · intro ⟨numeral, hn⟩
      rw [ofText_of_numeral hn] at h
      split at h <;> cases h
    · intro ho
      rw [ofText_of_startsOversized ho] at h
      cases h
  case mpr => exact fun h => ofText_eq_malformed h.left h.right

theorem ofText_eq_default_iff : ofText text = .default ↔ IsOne text := by
  constructor
  case mp =>
    intro h
    by_cases hn : ∃ numeral : Numeral, Text.trim text.toList = numeral.chars
    case pos =>
      have ⟨numeral, hn⟩ := hn
      rw [ofText_of_numeral hn] at h
      split at h
      case isTrue hv => exact ⟨numeral, hn, hv⟩
      case isFalse => cases h
    case neg =>
      -- What starts with an integer past the limit is not 1 either, so the flag would be malformed.
      have ho : ¬StartsOversized (Text.trim text.toList) := by
        intro ho
        rw [ofText_of_startsOversized ho] at h
        cases h
      rw [ofText_eq_malformed hn ho] at h
      cases h
  case mpr =>
    intro ⟨numeral, hn, hv⟩
    rw [ofText_of_numeral hn, if_pos hv]

end Flag
end TagRegistry
