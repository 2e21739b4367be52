import TagRegistry.Proofs.Compilation
import TagRegistry.Proofs.Flag

namespace TagRegistry

theorem exists_error_of_mem {items : List (Except Table.Error Row)}
    {item : Except Table.Error Row} {error : CompileError} (hm : item ∈ items)
    (he : tagsOf item = .error error) : ∃ error, compileItems items = .error error := by
  cases hc : compileItems items
  case error error => exact ⟨error, rfl⟩
  case ok =>
    rw [compileItems_eq_mapM] at hc
    cases ht : items.mapM tagsOf
    case error => rw [ht] at hc; cases hc
    case ok tagss =>
      have ⟨_, hok⟩ := exists_mapM_iff.mp ⟨tagss, ht⟩ item hm
      rw [he] at hok
      cases hok

namespace Row

variable {row : Row} {flag : String}

theorem form?_of_isDefault_eq_error {error : Error} (hs : row.isSkipped = false)
    (h : row.isDefault = .error error) : row.form? = .error error := by
  rw [form?, h, if_neg (by simp [hs])]
  rfl

-- The white space around the integer, its sign and its leading zeros are of no account.
theorem isDefault_of_numeral {numeral : Flag.Numeral} {before after : String}
    (hf : row.flag = some (before ++ String.ofList numeral.chars ++ after))
    (hb : ∀ c ∈ before.toList, Text.isBlank c) (ha : ∀ c ∈ after.toList, Text.isBlank c) :
    row.isDefault = .ok (decide (numeral.sign ≠ ['-'] ∧ numeral.value = 1)) := by
  have ht : Text.trim (before ++ String.ofList numeral.chars ++ after).toList = numeral.chars := by
    rw [String.toList_append, String.toList_append, String.toList_ofList]
    exact Text.trim_append hb (fun _ => Flag.Numeral.not_isBlank_of_mem_chars)
      numeral.chars_ne_nil ha
  simp only [isDefault, hf, Flag.ofText_of_numeral ht]
  by_cases h : numeral.sign ≠ ['-'] ∧ numeral.value = 1
  case pos => simp [h]
  case neg => rw [if_neg h, decide_eq_false h]

theorem isDefault_of_numeral_leadingZeros :
    (Row.ofFields 1 ["liga", "Ligatures", "\u3000+0000000000000000000001\t"]).isDefault =
      .ok true := by
  have h := @isDefault_of_numeral (Row.ofFields 1 ["liga", "Ligatures",
    "\u3000+0000000000000000000001\t"])
    ⟨['+'], List.replicate 21 '0' ++ ['1'], .inr (.inl rfl), by simp, by simp⟩ "\u3000" "\t" rfl
    (by simp [Text.isBlank, Text.blankRanges]) (by simp [Text.isBlank, Text.blankRanges])
  rw [h]
  decide

theorem isDefault_of_not_numeral (hf : row.flag = some flag)
    (hn : ¬∃ numeral : Flag.Numeral, Text.trim flag.toList = numeral.chars) :
    (Flag.StartsOversized (Text.trim flag.toList) → row.isDefault = .ok false) ∧
    (¬Flag.StartsOversized (Text.trim flag.toList) →
      row.isDefault = .error (.malformedFlag row.line row.tag flag) ∧
      (row.isSkipped = false →
        row.form? = .error (.malformedFlag row.line row.tag flag) ∧
        row.cursor = .error (.malformedFlag row.line row.tag flag) ∧
        (∀ rows, row ∈ rows → ∃ error, compile rows = .error error) ∧
        ∀ source, .ok row ∈ Table.read source → ∃ error, compileSource source = .error error)) := by
  constructor
  case left =>
    intro ho
    simp only [isDefault, hf, Flag.ofText_of_startsOversized ho]
  case right =>
    intro ho
    have hd : row.isDefault = .error (.malformedFlag row.line row.tag flag) := by
      simp only [isDefault, hf, Flag.ofText_eq_malformed hn ho]
    refine ⟨hd, fun hs => ?_⟩
    have hform := form?_of_isDefault_eq_error hs hd
    have htags : tagsOf (.ok row) = .error (.row (.malformedFlag row.line row.tag flag)) := by
      rw [tagsOf, tags, hform]
      rfl
    refine ⟨hform, by rw [cursor, hform]; rfl, fun rows hm => ?_, fun source hm => ?_⟩
    · exact exists_error_of_mem (List.mem_map_of_mem hm) htags
    · exact exists_error_of_mem hm htags

theorem isDefault_of_not_numeral_point :
    ofFields 3 ["frac", "Fractions", " 1.0 "] ∈ [ofFields 3 ["frac", "Fractions", " 1.0 "]] ∧
    (ofFields 3 ["frac", "Fractions", " 1.0 "]).isDefault =
      .error (.malformedFlag 3 "frac" " 1.0 ") ∧
    ∃ error, compile [ofFields 3 ["frac", "Fractions", " 1.0 "]] = .error error := by
  have hn : ¬∃ numeral : Flag.Numeral, Text.trim " 1.0 ".toList = numeral.chars := by
    intro ⟨numeral, h⟩
    have hm : '.' ∈ numeral.chars := h ▸ by decide
    exact absurd (Flag.Numeral.eq_of_mem_chars hm) (by decide)
  have ho : ¬Flag.StartsOversized (Text.trim " 1.0 ".toList) := by
    intro h
    have hf : Flag.ofText " 1.0 " = .malformed := rfl
    rw [Flag.ofText_of_startsOversized h] at hf
    cases hf
  have ⟨_, hr⟩ := @isDefault_of_not_numeral (ofFields 3 ["frac", "Fractions", " 1.0 "]) _ rfl hn
  have ⟨hd, hs⟩ := hr ho
  have ⟨_, _, hc, _⟩ := hs rfl
  exact ⟨by simp, hd, hc _ (by simp)⟩

-- Reading has come to an end before the letter.
theorem isDefault_of_letter_behind_limit :
    (¬∃ numeral : Flag.Numeral, Text.trim "99999999999999999999x".toList = numeral.chars) ∧
    (ofFields 1 ["abcd", "desc", "99999999999999999999x"]).isDefault = .ok false ∧
    compile [ofFields 1 ["abcd", "desc", "99999999999999999999x"]] = .ok [] := by
  refine ⟨?_, rfl, rfl⟩
  intro ⟨numeral, h⟩
  have hm : 'x' ∈ numeral.chars := h ▸ by decide
  exact absurd (Flag.Numeral.eq_of_mem_chars hm) (by decide)

end Row
end TagRegistry
