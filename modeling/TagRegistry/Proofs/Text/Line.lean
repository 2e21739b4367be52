import Mathlib.Data.List.Induction
import TagRegistry.Text.Line
import TagRegistry.Proofs.Text.Utf8

namespace TagRegistry.Text

-- A text cut around one of its lines. Only the last line may be without an end.
structure LineCut (text before content ending after : List Char) : Prop where
  text_eq    : text = before ++ content ++ ending ++ after
  before_end : before = [] ∨ before.getLast? = some '\n'
  one_line   : '\n' ∉ content
  ending_eq  : (ending = ['\n'] ∧ content.getLast? ≠ some '\r') ∨ ending = ['\r', '\n'] ∨
    (ending = [] ∧ after = [])

-- The line of `text` on which the byte at `offset` stands, without its end.
def IsLineOf (text : String) (offset : Nat) (span : Span) : Prop :=
  ∃ before content ending after, LineCut text.toList before content ending after ∧
    span = ⟨(encode before).length, (encode content).length⟩ ∧
    (encode before).length ≤ offset ∧ offset < (encode (before ++ content ++ ending)).length

theorem lines_append_lineFeed {body : List Char} (h : '\n' ∉ body) (rest : List Char) :
    lines (body ++ '\n' :: rest) = (body ++ ['\n']) :: lines rest := by
  induction body with
  | nil => simp [lines]
  | cons c body hi =>
    have ⟨hc, hb⟩ : '\n' ≠ c ∧ '\n' ∉ body := by simpa using h
    rw [List.cons_append, lines, if_neg (Ne.symm hc), hi hb]
    rfl

-- What is written a line at a time, each with a line feed after it, is read as these lines.
theorem lines_join {texts : List String} (h : ∀ text ∈ texts, '\n' ∉ text.toList)
    (rest : List Char) : lines ((String.join (texts.map (· ++ "\n"))).toList ++ rest) =
      texts.map (fun text => text.toList ++ ['\n']) ++ lines rest := by
  induction texts with
  | nil => rfl
  | cons text texts hi =>
    have ⟨ht, hts⟩ := List.forall_mem_cons.mp h
    have he : (String.join ((text :: texts).map (· ++ "\n"))).toList ++ rest =
        text.toList ++ '\n' :: ((String.join (texts.map (· ++ "\n"))).toList ++ rest) := by
      simp
    rw [he, lines_append_lineFeed ht, hi hts]
    rfl

theorem lines_eq_nil_iff {text : List Char} : lines text = [] ↔ text = [] := by
  constructor
  case mp =>
    intro h
    rw [← flatten_lines text, h]
    rfl
  case mpr =>
    intro h
    rw [h]
    rfl

theorem nil_not_mem_lines (text : List Char) : [] ∉ lines text := by
  fun_induction lines text with
  | case1 => simp
  | case2 text hi => simpa using hi
  | case3 c text hc hl hi => simp
  | case4 c text hc line rest hl hi => simp_all

theorem lines_of_not_mem {body : List Char} (h : '\n' ∉ body) (hb : body ≠ []) :
    lines body = [body] := by
  induction body with
  | nil => exact absurd rfl hb
  | cons c body hi =>
    have ⟨hc, hn⟩ : '\n' ≠ c ∧ '\n' ∉ body := by simpa using h
    cases body with
    | nil       => simp [lines, Ne.symm hc]
    | cons d ds => rw [lines, if_neg (Ne.symm hc), hi hn (List.cons_ne_nil d ds)]

-- What follows a line feed has lines of its own, and each line feed ends a line.
theorem lines_append {before : List Char} (h : before = [] ∨ before.getLast? = some '\n')
    (rest : List Char) : lines (before ++ rest) = lines before ++ lines rest ∧
      (lines before).length = before.count '\n' := by
  induction before with
  | nil => exact ⟨rfl, rfl⟩
  | cons c before hi =>
    cases before with
    | nil =>
      have hc : c = '\n' := by simpa using h
      simp [lines, hc]
    | cons d ds =>
      rw [List.getLast?_cons_cons] at h
      have ⟨hl, hn⟩ := hi (.inr (h.resolve_left (List.cons_ne_nil c (d :: ds))))
      by_cases hc : c = '\n'
      case pos =>
        rw [hc, List.cons_append, lines, if_pos rfl, lines, if_pos rfl, hl, List.count_cons_self,
          ← hn]
        exact ⟨rfl, rfl⟩
      case neg =>
        have ⟨line, rest', hs⟩ :=
          List.exists_cons_of_ne_nil (mt lines_eq_nil_iff.mp (List.cons_ne_nil d ds))
        rw [List.cons_append, lines, if_neg hc, lines, if_neg hc, hl, hs,
          List.count_cons_of_ne hc, ← hn, hs]
        exact ⟨rfl, rfl⟩

-- Lines are ended by line feeds and hold no others.
theorem exists_body_of_lines {text : List Char} {n : Nat} {line : List Char}
    (h : (lines text)[n]? = some line) : ∃ body, '\n' ∉ body ∧
      (line = body ++ ['\n'] ∨ (line = body ∧ n + 1 = (lines text).length)) := by
  fun_induction lines text generalizing n line with
  | case1 => cases h
  | case2 text hi =>
    cases n with
    | zero =>
      cases h
      exact ⟨[], by simp, .inl rfl⟩
    | succ n => simpa using hi h
  | case3 c text hc hl hi =>
    cases n with
    | zero =>
      cases h
      exact ⟨[c], by simpa using Ne.symm hc, .inr ⟨rfl, rfl⟩⟩
    | succ n => cases h
  | case4 c text hc line₀ rest hl hi =>
    rw [hl] at hi
    cases n with
    | zero =>
      cases h
      obtain ⟨body, hb, he⟩ := @hi 0 line₀ rfl
      refine ⟨c :: body, by simp [hb, Ne.symm hc], ?_⟩
      cases he
      case inl he => exact .inl (by simp [he])
      case inr he => exact .inr (by simpa using he)
    | succ n => exact hi h

theorem take_flatten_lines {text : List Char} {n : Nat} (h : n < (lines text).length) :
    (((lines text).take n).flatten = [] ∨
      ((lines text).take n).flatten.getLast? = some '\n') ∧
    ((lines text).take n).flatten.count '\n' = n := by
  induction n with
  | zero => simp
  | succ n hi =>
    have ⟨_, hc⟩ := hi (Nat.lt_of_succ_lt h)
    have ⟨body, hb, he⟩ := exists_body_of_lines (List.getElem?_eq_getElem (Nat.lt_of_succ_lt h))
    have hl := he.resolve_right fun ⟨_, hn⟩ => Nat.ne_of_lt h hn
    rw [List.take_add_one, List.getElem?_eq_getElem (Nat.lt_of_succ_lt h), hl]
    simp [hc, hb, List.count_eq_zero_of_not_mem]

theorem lineContent_carriage (body : List Char) : lineContent (body ++ ['\r', '\n']) = body := by
  simp [lineContent]

theorem lineContent_lineFeed {body : List Char} (h : body.getLast? ≠ some '\r') :
    lineContent (body ++ ['\n']) = body := by
  cases body using List.reverseRecOn with
  | nil => rfl
  | append_singleton body c =>
    have hc : c ≠ '\r' := by simpa using h
    simp [lineContent, hc]

theorem lineContent_of_not_mem {body : List Char} (h : '\n' ∉ body) : lineContent body = body := by
  cases body using List.reverseRecOn with
  | nil => rfl
  | append_singleton body c =>
    have hc : c ≠ '\n' := by
      intro hc
      exact h (by simp [hc])
    simp [lineContent, hc]

theorem lineCut_of_getElem? {text : List Char} {n : Nat} {line : List Char}
    (h : (lines text)[n]? = some line) : ∃ ending after, line = lineContent line ++ ending ∧
      LineCut text ((lines text).take n).flatten (lineContent line) ending after := by
  have ⟨hn, hl⟩ := List.getElem?_eq_some_iff.mp h
  have ht : text = ((lines text).take n).flatten ++ line ++ ((lines text).drop (n + 1)).flatten :=
    calc
      text = ((lines text).take n ++ (lines text).drop n).flatten := by
        rw [List.take_append_drop, flatten_lines]
      _ = _ := by
        rw [List.drop_eq_getElem_cons hn, hl, List.flatten_append, List.flatten_cons,
          List.append_assoc]
  have ⟨he, _⟩ := take_flatten_lines hn
  have ⟨body, hb, hline⟩ := exists_body_of_lines h
  cases hline
  case inl hline =>
    by_cases hr : body.getLast? = some '\r'
    case pos =>
      have ⟨content, hc⟩ := List.getLast?_eq_some_iff.mp hr
      rw [hc, List.append_assoc, List.cons_append, List.nil_append] at hline
      have hk : lineContent line = content := by rw [hline, lineContent_carriage]
      refine ⟨['\r', '\n'], ((lines text).drop (n + 1)).flatten, by rw [hk, hline], ?_, he, ?_, ?_⟩
      · rw [hk, List.append_assoc _ content, ← hline, ← ht]
      · rw [hk]
        exact fun hm => hb (by simp [hc, hm])
      · exact .inr (.inl rfl)
    case neg =>
      have hk : lineContent line = body := by rw [hline, lineContent_lineFeed hr]
      refine ⟨['\n'], ((lines text).drop (n + 1)).flatten, by rw [hk, hline], ?_, he, ?_, ?_⟩
      · rw [hk, List.append_assoc _ body, ← hline, ← ht]
      · rwa [hk]
      · rw [hk]
        exact .inl ⟨rfl, hr⟩
  case inr hline =>
    have ⟨hline, hlast⟩ := hline
    subst hline
    have hk : lineContent line = line := lineContent_of_not_mem hb
    refine ⟨[], [], by simp [hk], ?_, he, ?_, .inr (.inr ⟨rfl, rfl⟩)⟩
    · rw [hk, List.append_nil, List.append_nil]
      rw [hlast, List.drop_length, List.flatten_nil, List.append_nil] at ht
      exact ht
    · rwa [hk]

theorem count_encode (chars : List Char) : (encode chars).count 0x0A = chars.count '\n' := by
  induction chars with
  | nil => rfl
  | cons c chars hi =>
    rw [encode_cons, List.count_append, hi]
    by_cases hc : c = '\n'
    case pos =>
      subst hc
      rw [List.count_cons_self, Nat.add_comm]
      rfl
    case neg =>
      have hn : (0x0A : UInt8) ∉ String.utf8EncodeChar c :=
        fun hm => hc (@eq_of_mem_utf8EncodeChar c '\n' (by decide) hm)
      rw [List.count_eq_zero_of_not_mem hn, List.count_cons_of_ne (Ne.symm (Ne.symm hc)),
        Nat.zero_add]

namespace LineCut

variable {text before content ending after : List Char}

theorem exists_body (h : LineCut text before content ending after) : ∃ body, '\n' ∉ body ∧
    (content ++ ending = body ++ ['\n'] ∨ content ++ ending = body) := by
  cases h.ending_eq
  case inl he => exact ⟨content, h.one_line, .inl (by rw [he.left])⟩
  case inr he =>
    cases he
    case inl he => exact ⟨content ++ ['\r'], by simp [h.one_line], .inl (by simp [he])⟩
    case inr he => exact ⟨content, h.one_line, .inr (by simp [he.left])⟩

-- A line feed can only be the last byte of a line.
theorem count_take (h : LineCut text before content ending after) {offset : Nat}
    (hb : (encode before).length ≤ offset)
    (hc : offset < (encode (before ++ content ++ ending)).length) :
    ((encode text).take offset).count 0x0A = before.count '\n' := by
  have ⟨k, hk⟩ := Nat.exists_eq_add_of_le hb
  have hlt : k < (encode (content ++ ending)).length := by
    simp only [encode_append, List.length_append] at hc ⊢
    omega
  have ht : encode text = encode before ++ (encode (content ++ ending) ++ encode after) := by
    rw [h.text_eq]
    simp
  have hn : (0x0A : UInt8) ∉ (encode (content ++ ending)).take k := by
    have ⟨body, hb, he⟩ := h.exists_body
    have hm : (0x0A : UInt8) ∉ encode body :=
      fun hm => hb (@mem_of_mem_encode body '\n' (by decide) hm)
    cases he
    case inl he =>
      have hl : encode (content ++ ending) = encode body ++ [0x0A] := by
        rw [he, encode_append]
        rfl
      rw [hl] at hlt ⊢
      rw [List.take_append_of_le_length (Nat.le_of_lt_succ (by simpa using hlt))]
      exact fun hk => hm (List.mem_of_mem_take hk)
    case inr he =>
      rw [he]
      exact fun hk => hm (List.mem_of_mem_take hk)
  rw [ht, hk, List.take_length_add_append, List.take_append_of_le_length (Nat.le_of_lt hlt),
    List.count_append, count_encode, List.count_eq_zero_of_not_mem hn, Nat.add_zero]

theorem lineContent_eq (h : LineCut text before content ending after) :
    lineContent (content ++ ending) = content := by
  rcases h.ending_eq with ⟨he, hr⟩ | he | ⟨he, _⟩
  · rw [he, lineContent_lineFeed hr]
  · rw [he, lineContent_carriage]
  · rw [he, List.append_nil, lineContent_of_not_mem h.one_line]

-- The line that the text is cut around is the one that its lines have at this place.
theorem getElem?_lines (h : LineCut text before content ending after)
    (hc : content ++ ending ≠ []) :
    (lines text)[before.count '\n']? = some (content ++ ending) ∧
      ((lines text).take (before.count '\n')).flatten = before := by
  have hl : lines (content ++ ending ++ after) = (content ++ ending) :: lines after := by
    rcases h.ending_eq with ⟨he, _⟩ | he | ⟨he, ha⟩
    · rw [he, List.append_assoc]
      exact lines_append_lineFeed h.one_line after
    · have hr : '\n' ∉ content ++ ['\r'] := by simp [h.one_line]
      have hl := lines_append_lineFeed hr after
      simpa [he] using hl
    · rw [he, List.append_nil] at hc ⊢
      rw [ha, List.append_nil, lines_of_not_mem h.one_line hc]
      rfl
  have ⟨hb, hn⟩ := lines_append h.before_end (content ++ ending ++ after)
  have ht : lines text = lines before ++ (content ++ ending) :: lines after := by
    rw [← hl, ← hb, h.text_eq]
    simp only [List.append_assoc]
  rw [ht, ← hn, List.take_left, flatten_lines]
  exact ⟨by simp, rfl⟩

end LineCut

theorem exists_take_flatten {α : Type} {lists : List (List α)} {offset : Nat}
    (h : offset < lists.flatten.length) : ∃ n list, lists[n]? = some list ∧
      (lists.take n).flatten.length ≤ offset ∧
      offset < (lists.take n).flatten.length + list.length := by
  induction lists generalizing offset with
  | nil => cases h
  | cons list lists hi =>
    by_cases hl : offset < list.length
    case pos => exact ⟨0, list, rfl, Nat.zero_le _, by simpa using hl⟩
    case neg =>
      rw [List.flatten_cons, List.length_append] at h
      have ⟨n, l, hn, hle, hlt⟩ := @hi (offset - list.length) (by omega)
      refine ⟨n + 1, l, hn, ?_, ?_⟩ <;>
        simp only [List.take_succ_cons, List.flatten_cons, List.length_append] <;> omega

-- Counting line feeds leads to where the lines before it end.
theorem lineStart_eq (n : Nat) (text : List Char) :
    lineStart n text = (encode ((lines text).take n).flatten).length := by
  fun_induction lines text generalizing n with
  | case1 => simp [lineStart]
  | case2 text hi =>
    cases n with
    | zero   => rfl
    | succ n => simp [lineStart, hi]
  | case3 c text hc hl hi =>
    cases n with
    | zero   => rfl
    | succ n => simp [lineStart, hc, hi, hl]
  | case4 c text hc line rest hl hi =>
    cases n with
    | zero   => rfl
    | succ n => simp [lineStart, hc, hi, hl]

theorem lineSpan_of_getElem? {text : String} {n : Nat} {line : List Char}
    (h : (lines text.toList)[n]? = some line) : lineSpan text (n + 1) =
      ⟨(encode ((lines text.toList).take n).flatten).length,
        (encode (lineContent line)).length⟩ := by
  simp [lineSpan, lineStart_eq, utf8Length, utf8_ofList, h]

theorem encode_flatten (lists : List (List Char)) :
    encode lists.flatten = (lists.map encode).flatten := by
  induction lists with
  | nil => rfl
  | cons chars lists hi => simp [hi]

theorem count_of_append {chars before after : List Char} (h : chars = before ++ after) :
    ((encode chars).take (encode before).length).count 0x0A = before.count '\n' := by
  rw [h, encode_append, List.take_left, count_encode]

theorem isLineOf_of_offset {text : String} {offset : Nat} (h : offset < (utf8 text).length) :
    IsLineOf text offset (lineSpan text (((utf8 text).take offset).count 0x0A + 1)) := by
  have he : utf8 text = ((lines text.toList).map encode).flatten := by
    rw [← encode_flatten, flatten_lines]
    rfl
  have ⟨n, bytes, hn, hle, hlt⟩ := exists_take_flatten (he ▸ h)
  rw [← List.map_take, ← encode_flatten] at hle hlt
  rw [List.getElem?_map] at hn
  have ⟨line, hl, hb⟩ := Option.map_eq_some_iff.mp hn
  have ⟨ending, after, hs, hc⟩ := lineCut_of_getElem? hl
  have ho : offset < (encode (((lines text.toList).take n).flatten ++ lineContent line ++
      ending)).length := by
    rw [List.append_assoc, ← hs, encode_append, List.length_append, hb]
    exact hlt
  have hm : ((utf8 text).take offset).count 0x0A = n := by
    have ⟨hn, _⟩ := List.getElem?_eq_some_iff.mp hl
    have ⟨_, ht⟩ := take_flatten_lines hn
    exact (hc.count_take hle ho).trans ht
  rw [hm]
  exact ⟨_, _, ending, after, hc, lineSpan_of_getElem? hl, hle, ho⟩

theorem lineSpan_of_getElem?_eq_none {text : String} {n : Nat}
    (h : (lines text.toList)[n]? = none) : lineSpan text (n + 1) = ⟨(utf8 text).length, 0⟩ := by
  have ht : (lines text.toList).take n = lines text.toList :=
    List.take_of_length_le (List.getElem?_eq_none_iff.mp h)
  simp [lineSpan, lineStart_eq, h, ht, flatten_lines, utf8_eq_encode]

-- A line that is given by its number is the line of a byte exactly if the number is that of the
-- byte's line.
theorem isLineOf_lineSpan_iff {text : String} {offset n : Nat} (h : offset < (utf8 text).length) :
    IsLineOf text offset (lineSpan text (n + 1)) ↔ n = ((utf8 text).take offset).count 0x0A := by
  constructor
  case mp =>
    intro ⟨before, content, ending, after, hc, hs, hb, ho⟩
    have hm := hc.count_take hb ho
    have ht : text.toList = before ++ (content ++ (ending ++ after)) := by simpa using hc.text_eq
    cases hl : (lines text.toList)[n]?
    case none =>
      rw [lineSpan_of_getElem?_eq_none hl] at hs
      have hlen : (utf8 text).length = (encode before).length := congrArg Span.offset hs
      omega
    case some line =>
      have ⟨hn, _⟩ := List.getElem?_eq_some_iff.mp hl
      have ⟨_, hcount⟩ := take_flatten_lines hn
      have hp : text.toList =
          ((lines text.toList).take n).flatten ++ ((lines text.toList).drop n).flatten := by
        rw [← List.flatten_append, List.take_append_drop, flatten_lines]
      rw [lineSpan_of_getElem? hl] at hs
      have hlen : (encode ((lines text.toList).take n).flatten).length = (encode before).length :=
        congrArg Span.offset hs
      calc
        n = ((lines text.toList).take n).flatten.count '\n' := hcount.symm
        _ = before.count '\n' := by
          rw [← count_of_append hp, hlen, count_of_append ht]
        _ = _ := hm.symm
  case mpr =>
    intro hn
    rw [hn]
    exact isLineOf_of_offset h

end TagRegistry.Text
