namespace TagRegistry.Text

-- The code points of `White_Space`, as ranges with both ends included.
def blankRanges : List (Nat × Nat) := [
  (0x0009, 0x000D), (0x0020, 0x0020), (0x0085, 0x0085), (0x00A0, 0x00A0), (0x1680, 0x1680),
  (0x2000, 0x200A), (0x2028, 0x2029), (0x202F, 0x202F), (0x205F, 0x205F), (0x3000, 0x3000)]

def isBlank (c : Char) : Bool :=
  blankRanges.any fun (first, last) => first ≤ c.toNat && c.toNat ≤ last

theorem isBlank_of_isWhitespace {c : Char} (h : c.isWhitespace) : isBlank c := by
  simp only [Char.isWhitespace, Bool.or_eq_true, decide_eq_true_eq] at h
  rcases h with ((rfl | rfl) | rfl) | rfl <;> decide

-- The text without the white space at its two ends.
def trim (text : List Char) : List Char :=
  (text.dropWhile isBlank).reverse.dropWhile isBlank |>.reverse

theorem trim_append {before core after : List Char} (hb : ∀ c ∈ before, isBlank c)
    (hc : ∀ c ∈ core, isBlank c = false) (hne : core ≠ []) (ha : ∀ c ∈ after, isBlank c) :
    trim (before ++ core ++ after) = core := by
  have hd (chars rest : List Char) (hne : chars ≠ []) (h : ∀ c ∈ chars, isBlank c = false) :
      (chars ++ rest).dropWhile isBlank = chars ++ rest := by
    obtain ⟨c, chars, rfl⟩ := List.exists_cons_of_ne_nil hne
    simp [h c List.mem_cons_self]
  rw [trim, List.append_assoc, List.dropWhile_append_of_pos hb, hd core after hne hc,
    List.reverse_append, List.dropWhile_append_of_pos (by simpa using ha)]
  have hr := hd core.reverse [] (by simpa using hne) (by simpa using hc)
  rw [List.append_nil] at hr
  rw [hr, List.reverse_reverse]

end TagRegistry.Text
