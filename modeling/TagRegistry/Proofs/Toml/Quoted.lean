import Mathlib.Data.List.Forall2
import TagRegistry.Toml.Quoted

namespace TagRegistry.Toml

-- Characters with the letters that stand for them behind a backslash.
def shorthands : List (Char × Char) :=
  [('\x08', 'b'), ('\t', 't'), ('\n', 'n'), ('\x0C', 'f'), ('\r', 'r'), ('"', '"'), ('\\', '\\')]

inductive HexDigit : Nat → Char → Prop
  | lower {n : Nat} (h : n < 16) : HexDigit n n.digitChar
  | upper {n : Nat} (h : n < 16) : HexDigit n n.digitChar.toUpper

-- The first digit counts the most.
def hexNumeral (value : Nat) (digits : List Nat) : Nat :=
  digits.foldl (fun value digit => value * 16 + digit) value

-- A character stands for itself unless it would end the string, open an escape, or is a control
-- character other than a tab. All can be escaped by their code, which has four digits or eight.
inductive Spells (c : Char) : List Char → Prop
  | plain (hq : c ≠ '"') (hb : c ≠ '\\') (hc : isControl c = false) : Spells c [c]
  | short {letter : Char} (h : (c, letter) ∈ shorthands) : Spells c ['\\', letter]
  | code {letter : Char} {digits : List Nat} {written : List Char}
      (hl : (letter, digits.length) ∈ [('u', 4), ('U', 8)])
      (hd : List.Forall₂ HexDigit digits written)
      (hn : hexNumeral 0 digits = c.toNat) : Spells c ('\\' :: letter :: written)

inductive Writes : List Char → List Char → Prop
  | nil : Writes [] []
  | cons {c : Char} {cs written written' : List Char} (hc : Spells c written)
      (hs : Writes cs written') : Writes (c :: cs) (written ++ written')

-- Quotes, backslashes and control characters are escaped by their codes, and all else is plain.
def escape (c : Char) : List Char :=
  if c = '"' ∨ c = '\\' ∨ isControl c then
    ['\\', 'u', '0', '0', (c.toNat / 16).digitChar, (c.toNat % 16).digitChar]
  else
    [c]

theorem spells_escape (c : Char) : Spells c (escape c) := by
  rw [escape]
  split
  case isTrue h =>
    have hn : c.toNat < 128 := by
      rcases h with rfl | rfl | h
      · decide
      · decide
      · simp [isControl] at h
        omega
    refine @Spells.code c 'u' [0, 0, c.toNat / 16, c.toNat % 16] _ (by simp) ?_ ?_
    · exact .cons (.lower (by decide)) <| .cons (.lower (by decide)) <|
        .cons (.lower (by omega)) <| .cons (.lower (by omega)) .nil
    · simp only [hexNumeral, List.foldl_cons, List.foldl_nil]
      omega
  case isFalse h =>
    rw [not_or, not_or, Bool.not_eq_true] at h
    exact .plain h.1 h.2.1 h.2.2

theorem writes_escape (chars : List Char) : Writes chars (chars.flatMap escape) := by
  induction chars with
  | nil => exact .nil
  | cons c cs hi => exact .cons (spells_escape c) hi

theorem HexDigit.value {n : Nat} {c : Char} (h : HexDigit n c) : hexValue? c = some n := by
  have hl : ∀ n < 16, hexValue? n.digitChar = some n := by decide
  have hu : ∀ n < 16, hexValue? n.digitChar.toUpper = some n := by decide
  cases h with
  | lower h => exact hl n h
  | upper h => exact hu n h

theorem character?_toNat (c : Char) : character? c.toNat = some c := by
  have hv : c.toNat.isValidChar := c.valid
  rw [character?, if_pos hv, Char.ofNat_toNat]

theorem basicBody_digits {digits : List Nat} {written : List Char}
    (hd : List.Forall₂ HexDigit digits written) (hne : digits ≠ []) {value : Nat} {c : Char}
    (hn : hexNumeral value digits = c.toNat) (rest : List Char) :
    basicBody .line (.digits digits.length value) (written ++ rest) =
      prepend c (basicBody .line .text rest) := by
  induction hd generalizing value with
  | nil => contradiction
  | @cons digit char digits written h hs hi =>
    rw [List.cons_append, basicBody, h.value]
    cases digits with
    | nil =>
      cases hs
      have hc : character? (value * 16 + digit) = some c := by
        rw [← character?_toNat c, ← hn]
        rfl
      simp [hc]
    | cons digit' digits => simpa using hi (by simp) hn

theorem basicBody_spells {c : Char} {written : List Char} (h : Spells c written)
    (rest : List Char) :
    basicBody .line .text (written ++ rest) = prepend c (basicBody .line .text rest) := by
  cases h with
  | plain hq hb hc => simp [basicBody, hq, hb, hc]
  | short h =>
    simp only [shorthands, List.mem_cons, Prod.mk.injEq, List.not_mem_nil, or_false] at h
    rcases h with ⟨rfl, rfl⟩ | ⟨rfl, rfl⟩ | ⟨rfl, rfl⟩ | ⟨rfl, rfl⟩ | ⟨rfl, rfl⟩ | ⟨rfl, rfl⟩ |
      ⟨rfl, rfl⟩ <;> rfl
  | @code letter digits written hl hd hn =>
    have hne : digits ≠ [] := by
      rintro rfl
      simp at hl
    have hs : basicBody .line .text ('\\' :: letter :: (written ++ rest)) =
        basicBody .line (.digits digits.length 0) (written ++ rest) := by
      simp only [List.mem_cons, Prod.mk.injEq, List.not_mem_nil, or_false] at hl
      rcases hl with ⟨rfl, hl⟩ | ⟨rfl, hl⟩ <;> rw [hl] <;> rfl
    exact hs.trans (basicBody_digits hd hne hn rest)

theorem basicBody_writes {chars written : List Char} (h : Writes chars written)
    (rest : List Char) :
    basicBody .line .text (written ++ '"' :: rest) = some (chars, rest) := by
  induction h with
  | nil => rfl
  | cons hc hs hi => rw [List.append_assoc, basicBody_spells hc, hi, prepend]

theorem Writes.head?_ne {chars written : List Char} (h : Writes chars written) :
    written.head? ≠ some '"' := by
  cases h with
  | nil => simp
  | cons hc hs => cases hc <;> simp_all

-- A quote behind an empty text would make three of its two.
theorem string?_writes {chars written : List Char} (h : Writes chars written) {rest : List Char}
    (hr : rest.head? ≠ some '"') :
    string? ('"' :: (written ++ '"' :: rest)) = some (chars, rest) := by
  have hl : string? ('"' :: (written ++ '"' :: rest)) =
      line? ('"' :: (written ++ '"' :: rest)) := by
    have hw := h.head?_ne
    rw [string?.eq_def]
    split
    case h_1 he =>
      cases written <;> simp_all
    case h_2 he => cases he
    case h_3 => rfl
  rw [hl, line?, basicBody_writes h]

end TagRegistry.Toml
