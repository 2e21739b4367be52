import TagRegistry.Report
import TagRegistry.Proofs.Text.Line

namespace TagRegistry

namespace Text

-- `content` is the line of `text` that `n` line feeds stand before, without its end. What follows
-- the last line feed is a line only if it is not empty.
def IsNthLine (text : String) (n : Nat) (before content : String) : Prop :=
  ∃ ending after, LineCut text.toList before.toList content.toList ending after ∧
    content.toList ++ ending ≠ [] ∧ before.toList.count '\n' = n

variable {text : String} {n : Nat}

theorem isNthLine_iff {before content : String} : IsNthLine text n before content ↔
    ∃ line, (lines text.toList)[n]? = some line ∧
      before.toList = ((lines text.toList).take n).flatten ∧ content.toList = lineContent line := by
  constructor
  case mp =>
    intro ⟨ending, after, hc, hne, hn⟩
    have ⟨hl, hb⟩ := hn ▸ hc.getElem?_lines hne
    exact ⟨_, hl, hb.symm, hc.lineContent_eq.symm⟩
  case mpr =>
    intro ⟨line, hl, hb, hk⟩
    have ⟨ending, after, he, hc⟩ := lineCut_of_getElem? hl
    have ⟨hn, _⟩ := List.getElem?_eq_some_iff.mp hl
    have ⟨_, hcount⟩ := take_flatten_lines hn
    rw [← hb, ← hk] at hc
    refine ⟨ending, after, hc, ?_, by rw [hb, hcount]⟩
    rw [hk, ← he]
    intro hne
    exact nil_not_mem_lines text.toList (hne ▸ List.mem_of_getElem? hl)

theorem lineSpan_outcome (text : String) (n : Nat) : ∃ before content after,
    text = before ++ content ++ after ∧
    lineSpan text (n + 1) = ⟨utf8Length before, utf8Length content⟩ ∧
    ((∀ b c, IsNthLine text n b c ↔ b = before ∧ c = content) ∨
      (∀ b c, ¬IsNthLine text n b c) ∧ before = text ∧ content = "") := by
  cases hl : (lines text.toList)[n]?
  case none =>
    refine ⟨text, "", "", by simp, lineSpan_of_getElem?_eq_none hl, .inr ⟨?_, rfl, rfl⟩⟩
    intro b c hb
    have ⟨_, h, _⟩ := isNthLine_iff.mp hb
    cases hl ▸ h
  case some line =>
    have ⟨ending, after, _, hc⟩ := lineCut_of_getElem? hl
    refine ⟨.ofList ((lines text.toList).take n).flatten, .ofList (lineContent line),
      .ofList (ending ++ after), ?_, ?_, .inl fun b c => ?_⟩
    · apply String.toList_inj.mp
      simpa using hc.text_eq
    · rw [lineSpan_of_getElem? hl, utf8Length, utf8Length, utf8_ofList, utf8_ofList]
    · rw [isNthLine_iff, hl, ← String.toList_inj, ← String.toList_inj, String.toList_ofList,
        String.toList_ofList]
      simp

example : [1, 2, 3, 4].map (lineSpan "é,1\r\nzero\nß\r") =
    [⟨0, 4⟩, ⟨6, 4⟩, ⟨11, 3⟩, ⟨14, 0⟩] := by
  decide

end Text

open Text (IsNthLine utf8Length)

-- With a line there is one label, and what it marks is that line, or nothing at the end of a text
-- that does not go so far. Without a line there is neither a label nor a text.
theorem Report.ofError_outcome (error : GenerateError) (path text : String) :
    (∀ n, error.line? = some (n + 1) → ∃ before content after,
      text = before ++ content ++ after ∧
      Report.ofError error path text = {
        message := "compiling the feature registry failed"
        excerpt := some {
          name := path
          text
          span := ⟨utf8Length before, utf8Length content⟩
          label := error.message } } ∧
      utf8Length before + utf8Length content ≤ utf8Length text ∧
      ((∀ b c, IsNthLine text n b c ↔ b = before ∧ c = content) ∨
        (∀ b c, ¬IsNthLine text n b c) ∧ before = text ∧ content = "")) ∧
    (error.line? = none ∨ error.line? = some 0 →
      Report.ofError error path text = { message := path ++ ": " ++ error.message }) := by
  constructor
  case left =>
    intro n hn
    have ⟨before, content, after, ht, hs, hline⟩ := Text.lineSpan_outcome text n
    refine ⟨before, content, after, ht, ?report, ?within, hline⟩
    case report =>
      rw [← hs, ofError, hn]
      rfl
    case within =>
      rw [ht, utf8Length, utf8Length, utf8Length, Text.utf8_append, Text.utf8_append,
        List.length_append, List.length_append]
      exact Nat.le_add_right ..
  case right =>
    intro hn
    cases hn
    case inl hn => rw [ofError, hn]
    case inr hn => rw [ofError, hn]; rfl

theorem Report.ofError_outcome_carriageReturn :
    (GenerateError.compile (.row (.missingFlag 2 "zero"))).line? = some 2 ∧
    ∃ before content after, "é,1\r\nzero\nß" = before ++ content ++ after ∧
      Report.ofError (.compile (.row (.missingFlag 2 "zero"))) "registry.csv" "é,1\r\nzero\nß" = {
        message := "compiling the feature registry failed"
        excerpt := some {
          name := "registry.csv"
          text := "é,1\r\nzero\nß"
          span := ⟨utf8Length before, utf8Length content⟩
          label := "Line 2: row for tag 'zero' has no default flag column" } } := by
  have ⟨hs, _⟩ := Report.ofError_outcome (.compile (.row (.missingFlag 2 "zero"))) "registry.csv"
    "é,1\r\nzero\nß"
  have ⟨before, content, after, ht, hr, _⟩ := hs 1 rfl
  exact ⟨rfl, before, content, after, ht, hr⟩

end TagRegistry
