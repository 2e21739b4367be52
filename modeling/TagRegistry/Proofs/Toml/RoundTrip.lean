import Mathlib.Data.List.TakeDrop
import TagRegistry.Proofs.Toml.Written

namespace TagRegistry.Toml

theorem skipSpace_blanks (blanks : Written.Blanks) (rest : List Char) :
    skipSpace (blanks ++ rest) = skipSpace rest :=
  List.dropWhile_append_of_pos blanks.property

theorem skipSpace_cons {c : Char} (h : isSpace c = false) (rest : List Char) :
    skipSpace (c :: rest) = c :: rest :=
  List.dropWhile_cons_of_neg (by simp [h])

theorem skipSpace_eq_self {text : List Char} (h : ∀ c ∈ text.head?, isSpace c = false) :
    skipSpace text = text := by
  cases text with
  | nil => rfl
  | cons c rest => exact skipSpace_cons (h c rfl) rest

theorem literalBody_line {key : List Char} (h : ∀ c ∈ key, c ≠ '\'' ∧ isControl c = false)
    (rest : List Char) : literalBody .line (key ++ '\'' :: rest) = some (key, rest) := by
  induction key with
  | nil => rfl
  | cons c cs hi =>
    have ⟨hq, hc⟩ := h c List.mem_cons_self
    have hi := hi fun c hm => h c (List.mem_cons_of_mem _ hm)
    simp [literalBody, hq, hc, hi, prepend]

-- What the first character of a key can be, and that of a statement.
def opensKey (c : Char) : Bool :=
  isBare c || c == '"' || c == '\''

def opensStatement (c : Char) : Bool :=
  c == '[' || opensKey c

theorem isSpace_iff {c : Char} : isSpace c ↔ c = ' ' ∨ c = '\t' := by
  simp [isSpace]

theorem isSpace_of_opensStatement {c : Char} (h : opensStatement c) : isSpace c = false := by
  rw [← Bool.not_eq_true, isSpace_iff]
  rintro (rfl | rfl) <;> cases h

theorem ne_of_opensStatement {c d : Char} (h : opensStatement c)
    (hd : opensStatement d = false) : c ≠ d := by
  rintro rfl
  exact absurd h (by simp [hd])

theorem WritesKey.exists_cons {key chars : List Char} (h : WritesKey key chars) :
    ∃ c cs, chars = c :: cs ∧ opensKey c := by
  cases h with
  | bare hne hb =>
    have ⟨c, cs, hk⟩ := List.exists_cons_of_ne_nil hne
    exact ⟨c, cs, hk, by simp [opensKey, hb c (by simp [hk])]⟩
  | basic => exact ⟨_, _, rfl, rfl⟩
  | literal => exact ⟨_, _, rfl, rfl⟩

theorem line?_bare {c : Char} (h : isBare c) (rest : List Char) : line? (c :: rest) = none := by
  rw [line?.eq_def]
  split
  case h_1 he =>
    cases he
    cases h
  case h_2 he =>
    cases he
    cases h
  case h_3 => rfl

theorem key?_written {key chars : List Char} (h : WritesKey key chars) {rest : List Char}
    (hr : ∀ c ∈ rest.head?, isBare c = false) :
    key? (chars ++ rest) = some (String.ofList key, rest) := by
  cases h with
  | bare hne hb =>
    have ⟨c, cs, hk⟩ := List.exists_cons_of_ne_nil hne
    have hl : line? (key ++ rest) = none := by
      rw [hk, List.cons_append, line?_bare (hb c (by simp [hk]))]
    have hd : rest.takeWhile isBare = [] ∧ rest.dropWhile isBare = rest := by
      cases rest with
      | nil => simp
      | cons c rest => simp [hr c rfl]
    have hs : (key ++ rest).span isBare = (key, rest) := by
      rw [List.span_eq_takeWhile_dropWhile, List.takeWhile_append_of_pos hb,
        List.dropWhile_append_of_pos hb, hd.1, hd.2, List.append_nil]
    rw [key?, hl, hs, hk]
  | basic hw => simp [key?, line?, basicBody_writes hw]
  | literal hl => simp [key?, line?, literalBody_line hl]

namespace Written

theorem head_blanks {p : Char → Prop} (hs : ∀ c, isSpace c → p c) (blanks : Blanks)
    {rest : List Char} (hr : ∀ c ∈ rest.head?, p c) : ∀ c ∈ (blanks.val ++ rest).head?, p c := by
  obtain ⟨chars, hc⟩ := blanks
  cases chars with
  | nil => exact hr
  | cons c cs => simpa using hs c (hc c List.mem_cons_self)

theorem isBare_of_isSpace {c : Char} (h : isSpace c) : isBare c = false := by
  obtain rfl | rfl := isSpace_iff.mp h <;> rfl

theorem path?_key (before : Blanks) (key : Key) (after : Blanks) {c : Char} (hc : c ∈ ['=', ']'])
    (rest : List Char) :
    path? depthLimit (before ++ (key.chars ++ (after ++ c :: rest))) =
      some (key.path, c :: rest) := by
  have ⟨d, ds, hd, ho⟩ := key.spelled.exists_cons
  have ⟨hb, hc, hn⟩ : isBare c = false ∧ isSpace c = false ∧ c ≠ '.' := by
    obtain rfl | rfl : c = '=' ∨ c = ']' := by simpa using hc
    all_goals decide
  have hs : skipSpace (key.chars ++ (after ++ c :: rest)) = key.chars ++ (after ++ c :: rest) := by
    rw [hd]
    exact skipSpace_cons (isSpace_of_opensStatement (by simp [opensStatement, ho])) _
  have hk : key? (key.chars ++ (after ++ c :: rest)) = some (key.text, after ++ c :: rest) := by
    have ha : ∀ d ∈ (after.val ++ c :: rest).head?, isBare d = false :=
      head_blanks (fun _ => isBare_of_isSpace) after (by simpa using hb)
    rw [key?_written key.spelled ha, String.ofList_toList]
  have ha : skipSpace (after ++ c :: rest) = c :: rest := by
    rw [skipSpace_blanks, skipSpace_cons hc]
  rw [depthLimit, path?, skipSpace_blanks, hs, hk]
  simp only [ha]
  split
  case h_1 he =>
    cases he
    contradiction
  case h_2 => rfl

theorem value?_quoted (value : Quoted) {rest : List Char} (hr : rest.head? ≠ some '"') :
    value? depthLimit (value.chars ++ rest) = some (.string value.text, rest) := by
  have hs : string? (value.chars ++ rest) = some (value.text.toList, rest) := by
    rw [Quoted.chars, List.cons_append, List.append_assoc]
    exact string?_writes value.spelled hr
  have hv : value? depthLimit (value.chars ++ rest) = scalar? (value.chars ++ rest) := rfl
  simp [hv, scalar?, hs]

theorem skipSpace_quoted (value : Quoted) (rest : List Char) :
    skipSpace (value.chars ++ rest) = value.chars ++ rest :=
  rfl

theorem Content.exists_cons {content : Content} {s : Statement} (h : content.statement? = some s) :
    ∃ c cs, content.chars = c :: cs ∧ opensStatement c := by
  cases content with
  | empty => cases h
  | tables => exact ⟨_, _, rfl, rfl⟩
  | assign key =>
    have ⟨c, cs, hc, ho⟩ := key.spelled.exists_cons
    exact ⟨c, _, by rw [chars, hc]; rfl, by simp [opensStatement, ho]⟩

theorem statement?_content {content : Content} {s : Statement} (h : content.statement? = some s)
    {rest : List Char} (hr : rest.head? ≠ some '"') :
    statement? (content.chars ++ rest) = some (s, rest) := by
  cases content with
  | empty => cases h
  | tables before key after =>
    cases h
    have hs : statement? ((Content.tables before key after).chars ++ rest) =
        header? ('[' :: '[' :: (before ++ (key.chars ++ (after ++ ']' :: ']' :: rest)))) := by
      simp [Content.chars, statement?]
    rw [hs, header?, path?_key before key after (by simp)]
    rfl
  | assign key before after value =>
    cases h
    have ⟨c, cs, hc, ho⟩ := key.spelled.exists_cons
    have hn : c ≠ '[' := by
      rintro rfl
      cases ho
    have hk : path? depthLimit (key.chars ++ (before ++ '=' :: (after ++ (value.chars ++ rest)))) =
        some (key.path, '=' :: (after ++ (value.chars ++ rest))) :=
      path?_key .none key before (by simp) _
    have hp : pair? (value? depthLimit)
        (key.chars ++ (before ++ '=' :: (after ++ (value.chars ++ rest)))) =
          some ((key.path, .string value.text), rest) := by
      rw [pair?, hk]
      simp [skipSpace_blanks, skipSpace_quoted, value?_quoted value hr]
    have hs : (Content.assign key before after value).chars ++ rest =
        key.chars ++ (before ++ '=' :: (after ++ (value.chars ++ rest))) := by
      simp [Content.chars]
    rw [hs, statement?, if_neg (by simp [hc, hn]), hp]
    rfl

end Written

theorem skipSpace_of_isControl {text : List Char} (h : ∀ c ∈ text.head?, isControl c) :
    skipSpace text = text := by
  refine skipSpace_eq_self fun c hc => ?_
  rw [← Bool.not_eq_true, isSpace_iff]
  rintro (rfl | rfl) <;> cases h _ hc

theorem lineEnd?_comment {comment : List Char} (hh : ∀ c ∈ comment.head?, c = '#')
    (hp : ∀ c ∈ comment, isControl c = false) {rest : List Char}
    (hr : ∀ c ∈ rest.head?, isControl c) : lineEnd? (comment ++ rest) = lineEnd? rest := by
  cases comment with
  | nil => rfl
  | cons c cs =>
    obtain rfl := hh c rfl
    have hc : lineEnd?.afterComment ('#' :: (cs ++ rest)) = rest := by
      have hs : ∀ c ∈ cs, !isControl c := fun c hm => by simp [hp c (List.mem_cons_of_mem _ hm)]
      rw [lineEnd?.afterComment, List.dropWhile_append_of_pos hs]
      cases rest with
      | nil => rfl
      | cons d ds => exact List.dropWhile_cons_of_neg (by simp [hr d rfl])
    have ha : lineEnd?.afterComment rest = rest := by
      rw [lineEnd?.afterComment.eq_def]
      split
      case h_1 => cases hr _ rfl
      case h_2 => rfl
    rw [lineEnd?, lineEnd?, skipSpace_of_isControl hr, ha, List.cons_append,
      skipSpace_eq_self (by simp [isSpace]), hc]

namespace Written

variable {line : Line} {rest : List Char}

theorem Line.ending_cases (line : Line) :
    line.ending = [] ∨ line.ending = ['\n'] ∨ line.ending = ['\r', '\n'] := by
  simpa using line.ending_end

-- A line end that is left out has nothing behind it.
theorem Line.head_ending (hr : line.ending = [] → rest = []) :
    ∀ c ∈ (line.ending ++ rest).head?, c = '\n' ∨ c = '\r' := by
  rcases line.ending_cases with he | he | he
  · simp [he, hr he]
  · simp [he]
  · simp [he]

theorem Line.lineEnd?_ending (hr : line.ending = [] → rest = []) :
    lineEnd? (line.ending ++ rest) = some rest := by
  rcases line.ending_cases with he | he | he
  · rw [he, hr he]
    rfl
  · rw [he]
    rfl
  · rw [he]
    rfl

theorem Line.lineEnd?_comment (hr : line.ending = [] → rest = []) :
    lineEnd? (line.comment ++ (line.ending ++ rest)) = some rest := by
  have hc : ∀ c ∈ (line.ending ++ rest).head?, isControl c := by
    intro c hm
    rcases head_ending hr c hm with rfl | rfl <;> rfl
  rw [Toml.lineEnd?_comment line.comment_head line.comment_plain hc, lineEnd?_ending hr]

theorem Line.lineEnd?_close (hr : line.ending = [] → rest = []) :
    lineEnd? (line.close ++ rest) = some rest := by
  rw [close, List.append_assoc, List.append_assoc, lineEnd?, skipSpace_blanks, ← lineEnd?,
    lineEnd?_comment hr]

theorem Line.head_comment (hr : line.ending = [] → rest = []) :
    ∀ c ∈ (line.comment ++ (line.ending ++ rest)).head?, c ∈ ['#', '\n', '\r'] := by
  have hh := line.comment_head
  cases hc : line.comment with
  | nil => exact fun c hm => List.mem_cons_of_mem _ <| by simpa using head_ending hr c hm
  | cons c cs => simp [hh c (by simp [hc])]

theorem Line.head_close (hr : line.ending = [] → rest = []) :
    ∀ c ∈ (line.close ++ rest).head?, c ∈ [' ', '\t', '#', '\n', '\r'] := by
  rw [close, List.append_assoc, List.append_assoc]
  refine head_blanks ?_ _ ?_
  · intro c hc
    obtain rfl | rfl := isSpace_iff.mp hc <;> decide
  · exact fun c hc => List.mem_cons_of_mem _ <| List.mem_cons_of_mem _ <| head_comment hr c hc

theorem Line.content_of_statement?_eq_none (hs : line.statement? = none) :
    line.content = .empty := by
  cases hc : line.content <;> simp_all [statement?, Content.statement?]

theorem Line.head?_chars_ne (hr : line.ending = [] → rest = []) :
    (line.chars ++ rest).head? ≠ some '\ufeff' := by
  suffices h : ∀ c ∈ (line.chars ++ rest).head?, c ≠ '\ufeff' from fun hc => h _ hc rfl
  rw [chars, List.append_assoc]
  refine head_blanks ?_ _ ?_
  · rintro c hc rfl
    cases hc
  cases hs : line.statement? with
  | none =>
    rintro c hc rfl
    rw [content_of_statement?_eq_none hs] at hc
    exact absurd (head_close hr _ hc) (by decide)
  | some s =>
    have ⟨c, cs, hc, ho⟩ := Content.exists_cons hs
    simpa [hc] using ne_of_opensStatement ho rfl

-- The rounds do not matter, as long as there are more of them than characters.
def Reads (text : List Char) (statements : List Statement) : Prop :=
  ∀ rounds, text.length < rounds → statementsIn? rounds text = some statements

variable {statements : List Statement}

theorem Reads.line_of_statement (hr : line.ending = [] → rest = []) (h : Reads rest statements)
    {s : Statement} (hs : line.statement? = some s) :
    Reads (line.chars ++ rest) (s :: statements) := by
  intro rounds hl
  have ⟨c, cs, hc, ho⟩ := Content.exists_cons hs
  have hk : skipSpace (line.chars ++ rest) = c :: (cs ++ (line.close ++ rest)) := by
    rw [Line.chars, List.append_assoc, skipSpace_blanks, hc, List.append_assoc]
    exact skipSpace_cons (isSpace_of_opensStatement ho) _
  have hn : statement? (c :: (cs ++ (line.close ++ rest))) = some (s, line.close ++ rest) := by
    have hq : (line.close ++ rest).head? ≠ some '"' :=
      fun hq => absurd (Line.head_close hr _ hq) (by decide)
    rw [← statement?_content hs hq, hc]
    rfl
  cases rounds with
  | zero => contradiction
  | succ rounds =>
    have hl : rest.length < rounds := by
      simp [Line.chars, hc] at hl
      omega
    have hm : (c == '#' || c == '\n' || c == '\r') = false := by
      have hne {d : Char} (hd : opensStatement d = false) : c ≠ d := ne_of_opensStatement ho hd
      simp [hne (d := '#') rfl, hne (d := '\n') rfl, hne (d := '\r') rfl]
    rw [statementsIn?, hk]
    simp [hm, hn, Line.lineEnd?_close hr, h rounds hl]

theorem Reads.line_of_empty (hr : line.ending = [] → rest = []) (h : Reads rest statements)
    (hs : line.statement? = none) : Reads (line.chars ++ rest) statements := by
  intro rounds hl
  have hh := Line.head_comment hr
  have hk : skipSpace (line.chars ++ rest) = line.comment ++ (line.ending ++ rest) := by
    have hc : ∀ c ∈ (line.comment ++ (line.ending ++ rest)).head?, isSpace c = false := by
      intro c hm
      have hc : ∀ c ∈ ['#', '\n', '\r'], isSpace c = false := by simp [isSpace]
      exact hc c (hh c hm)
    rw [Line.chars, Line.content_of_statement?_eq_none hs]
    simp [Line.close, Content.chars, skipSpace_blanks, skipSpace_eq_self hc]
  cases rounds with
  | zero => contradiction
  | succ rounds =>
    cases hc : line.comment ++ (line.ending ++ rest) with
    | nil =>
      -- Blanks at the end of the document.
      have hn : rest = [] := by simp_all
      have hs : statementsIn? 1 [] = some statements := hn ▸ h 1 (by simp [hn])
      rw [statementsIn?, hk, hc, ← hs]
      rfl
    | cons c cs =>
      have hl : rest.length < rounds := by
        have hlen := congrArg List.length hc
        simp only [Line.chars, Line.close, List.length_append, List.length_cons] at hl hlen
        by_cases he : line.ending = []
        · simp only [hr he, List.length_nil] at hl hlen ⊢
          omega
        · have := List.length_pos_of_ne_nil he
          omega
      have hm : (c == '#' || c == '\n' || c == '\r') = true := by
        simpa [or_assoc] using hh c (by simp [hc])
      have he : lineEnd? (c :: cs) = some rest := hc ▸ Line.lineEnd?_comment hr
      rw [statementsIn?, hk, hc]
      simp [hm, he, h rounds hl]

theorem ended_cons {lines : List Line} (h : ∀ l ∈ (line :: lines).dropLast, l.ending ≠ []) :
    (line.ending = [] → lines.flatMap Line.chars = []) ∧ ∀ l ∈ lines.dropLast, l.ending ≠ [] := by
  cases lines with
  | nil => exact ⟨fun _ => rfl, nofun⟩
  | cons line' lines =>
    exact ⟨fun he => absurd he (h line (by simp)), fun l hm => h l (by simp [hm])⟩

theorem reads_lines {lines : List Line} (h : ∀ line ∈ lines.dropLast, line.ending ≠ []) :
    Reads (lines.flatMap Line.chars) (lines.filterMap Line.statement?) := by
  induction lines with
  | nil =>
    intro rounds hl
    cases rounds with
    | zero => contradiction
    | succ => rfl
  | cons line lines hi =>
    have ⟨hr, hl⟩ := ended_cons h
    cases hs : line.statement? with
    | none => simpa [hs] using (hi hl).line_of_empty hr hs
    | some s => simpa [hs] using (hi hl).line_of_statement hr hs

theorem head?_chars_ne (w : Written) : w.chars.head? ≠ some '\ufeff' := by
  obtain ⟨lines, h⟩ := w
  cases lines with
  | nil => simp [chars]
  | cons line lines => exact Line.head?_chars_ne (ended_cons h).1

theorem statements?_written (w : Written) : statements? w.chars = some w.statements := by
  have hm := w.head?_chars_ne
  rw [statements?.eq_def]
  split
  case h_1 hc => simp [hc] at hm
  case h_2 => exact reads_lines w.ended _ (Nat.lt_succ_self _)

end Written
end TagRegistry.Toml
