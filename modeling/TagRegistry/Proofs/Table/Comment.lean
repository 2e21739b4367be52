import TagRegistry.Proofs.Table.Concatenation
import TagRegistry.Proofs.Table.Place
import TagRegistry.Proofs.Table.WrittenScan

namespace TagRegistry

open Text (utf8 encode)

namespace Table

def hash : UInt8 := 0x23

-- The first field of the record begins with a hash.
def Record.IsComment (record : Record) : Prop :=
  ∃ bytes fields, record.fields = (hash :: bytes) :: fields

theorem Mode.endsLine_of_read {mode : Mode} {byte : UInt8}
    (h : (mode.read byte).snd = .endRecord) : endsLine byte := by
  cases mode with
  | outside => by_cases hl : endsLine byte <;> simp_all [read, atStart_iff]
  | opening => exact (atStart_iff byte).right.mp h
  | plain   => exact (unquoted_iff byte).right.mp h
  | quoted  => by_cases hq : byte = quote <;> simp [read, hq] at h
  | closing => by_cases hq : byte = quote <;> simp_all [read, unquoted_iff]

namespace Scanner

-- The scanner is inside a comment.
structure HoldsComment (s : Scanner) : Prop where
  inside : s.mode ≠ .outside
  record : s.record.IsComment

namespace HoldsComment

variable {s : Scanner}

theorem step (h : s.HoldsComment) {byte : UInt8} (hs : (s.step byte).1 = none) :
    (s.step byte).2.HoldsComment where
  inside := fun ho => h.inside ((mode_step hs).mp ho).left
  record := by
    obtain ⟨bytes, fields, hf⟩ := h.record
    rcases hr : s.mode.read byte with ⟨mode, action⟩
    cases action
    case skip => exact ⟨bytes, fields, by simpa [Scanner.step, hr, Scanner.record] using hf⟩
    case keep =>
      have hk : (s.step byte).2.record.fields =
          s.fields.reverse ++ [s.field.reverse ++ [byte]] := by
        simp [Scanner.step, hr, Scanner.record]
      rw [Record.IsComment, hk]
      have hf : s.fields.reverse ++ [s.field.reverse] = (hash :: bytes) :: fields := by
        simpa [Scanner.record] using hf
      cases hs : s.fields.reverse with
      | nil =>
        obtain ⟨hb, _⟩ := List.cons_eq_cons.mp (hs ▸ hf)
        exact ⟨bytes ++ [byte], [], by rw [hb]; rfl⟩
      | cons field others =>
        obtain ⟨hb, _⟩ := List.cons_eq_cons.mp (hs ▸ hf)
        exact ⟨bytes, others ++ [s.field.reverse ++ [byte]], by rw [hb]; rfl⟩
    case endField =>
      have he : (s.step byte).2.record.fields = s.record.fields ++ [[]] := by
        simp [Scanner.step, hr, Scanner.record]
      exact ⟨bytes, fields ++ [[]], by rw [he, hf]; rfl⟩
    case endRecord => simp [Scanner.step, hr] at hs

-- A comment goes on as long as no record ends.
theorem run (h : s.HoldsComment) {bytes : Bytes} (hr : (s.run bytes).1 = []) :
    (s.run bytes).2.HoldsComment := by
  induction bytes generalizing s with
  | nil => exact h
  | cons byte bytes hi =>
    rw [run_cons] at hr ⊢
    have ⟨hs, hr⟩ := List.append_eq_nil_iff.mp hr
    exact hi (h.step (Option.toList_eq_nil_iff.mp hs)) hr

end HoldsComment

theorem run_of_not_endsLine {s : Scanner} {bytes : Bytes}
    (h : ∀ byte ∈ bytes, Mode.endsLine byte = false) : (s.run bytes).1 = [] := by
  induction bytes generalizing s with
  | nil => rfl
  | cons byte bytes hi =>
    have ⟨hb, hbs⟩ := List.forall_mem_cons.mp h
    have hs : (s.step byte).1 = none := by
      rw [← Option.not_isSome_iff_eq_none, isSome_step_iff]
      intro hr
      rw [Mode.endsLine_of_read hr] at hb
      cases hb
    rw [run_cons, hs, hi hbs]
    rfl

end Scanner

theorem Record.isSkipped_of_isComment {record : Record} {row : Row} (h : record.IsComment)
    (hr : record.row = .ok row) : row.isSkipped := by
  have ⟨bytes, fields, hf⟩ := h
  have ⟨texts, ht, he⟩ := row_eq_ok_iff.mp hr
  cases texts with
  | nil => rw [hf] at ht; cases ht
  | cons text texts =>
    have ⟨hb, _⟩ := List.cons_eq_cons.mp (hf.symm.trans ht)
    have hc : text.toList.head? = some '#' := by
      apply Text.head?_eq_of_head?_encode (by decide)
      rw [← Text.utf8_eq_encode, ← hb]
      rfl
    subst he
    simp [Row.isSkipped, Row.ofFields, hc]

-- A line of a table that begins with a hash.
def commentLine (comment : String) : String :=
  "#" ++ comment ++ "\n"

theorem utf8_commentLine (comment : String) :
    utf8 (commentLine comment) = hash :: utf8 comment ++ [Position.lineFeed] := by
  rw [commentLine, Text.utf8_append, Text.utf8_append]
  rfl

-- No line ends within `text`.
structure IsOneLine (text : String) : Prop where
  no_lineFeed       : '\n' ∉ text.toList
  no_carriageReturn : '\r' ∉ text.toList

variable {comment : String}

theorem IsOneLine.not_endsLine (h : IsOneLine comment) :
    ∀ byte ∈ utf8 comment, Mode.endsLine byte = false := by
  intro byte hb
  rw [Bool.eq_false_iff]
  intro he
  cases Mode.endsLine_iff.mp he <;> subst byte
  case inl => exact h.no_lineFeed (Text.mem_of_mem_encode (by decide) hb)
  case inr => exact h.no_carriageReturn (Text.mem_of_mem_encode (by decide) hb)

theorem not_mark_prefix_hash (bytes : Bytes) : ¬mark <+: hash :: bytes := by
  simp [mark, hash, List.cons_prefix_cons]

theorem scan_hash (bytes : Bytes) :
    scan (hash :: bytes) = ((initial false).step hash).2.run bytes := by
  rw [scan_of_no_mark (not_mark_prefix_hash bytes), Scanner.run_cons]
  rfl

theorem scan_comment (h : IsOneLine comment) : (scan (hash :: utf8 comment)).1 = [] := by
  rw [scan_hash]
  exact Scanner.run_of_not_endsLine h.not_endsLine

theorem holdsComment_scan {bytes : Bytes} (h : (scan (hash :: bytes)).1 = []) :
    (scan (hash :: bytes)).2.HoldsComment := by
  have hs : ((initial false).step hash).2.HoldsComment := ⟨by decide, [], [], rfl⟩
  rw [scan_hash] at h ⊢
  exact hs.run h

theorem exists_isComment_of_scan {bytes : Bytes} (h : (scan (hash :: bytes)).1 = []) :
    ∃ record, records (hash :: bytes) = [record] ∧ record.IsComment := by
  have hs := holdsComment_scan h
  refine ⟨(scan (hash :: bytes)).2.record, ?_, hs.record⟩
  rw [records, h, Scanner.pending?, if_neg hs.inside]
  rfl

-- The bytes are one record, and the last of them ends it.
structure IsRecord (bytes : Bytes) : Prop where
  isCut     : IsCut bytes
  length_eq : (records bytes).length = 1

theorem IsRecord.exists_isComment {bytes : Bytes} (h : IsRecord (hash :: bytes)) :
    ∃ record, records (hash :: bytes) = [record] ∧ record.IsComment := by
  have ⟨front, byte, hb, hs⟩ := h.isCut
  cases front with
  | nil => exact absurd rfl (Scanner.ne_outside_of_step hs)
  | cons first front =>
    rw [List.cons_append] at hb
    obtain ⟨rfl, rfl⟩ := List.cons_eq_cons.mp hb
    have hr : records (hash :: (front ++ [byte])) =
        (scan (hash :: front)).1 ++ [(scan (hash :: front)).2.record] := by
      rw [h.isCut.records_eq, ← List.cons_append, scan_append (mark_prefix_of_step hs),
        Scanner.run_singleton, Scanner.step_of_isSome hs]
      rfl
    have hn : (scan (hash :: front)).1 = [] := by
      have hl := h.length_eq
      rw [hr] at hl
      simpa using hl
    rw [hr, hn]
    exact ⟨(scan (hash :: front)).2.record, rfl, (holdsComment_scan hn).record⟩

theorem isRecord_commentLine (h : IsOneLine comment)
    (he : EndsRecord (utf8 (commentLine comment))) : IsRecord (utf8 (commentLine comment)) := by
  refine ⟨he.isCut, ?_⟩
  have ⟨front, hb, hl⟩ := he
  have hf : hash :: utf8 comment = front :=
    List.append_cancel_right ((utf8_commentLine comment).symm.trans hb)
  rw [he.isCut.records_eq, hl, ← hf, scan_comment h]
  rfl

-- A text without quotes does not get out of a quoted field.
theorem Scanner.run_of_quoted {s : Scanner} {bytes : Bytes} (hm : s.mode = .quoted)
    (hq : Mode.quote ∉ bytes) : (s.run bytes).1 = [] := by
  have hk : ∀ byte ∈ bytes, s.mode.read byte = (s.mode, .keep) := by
    intro byte hb
    have hne : byte ≠ Mode.quote := fun he => hq (he ▸ hb)
    simp [hm, Mode.read, hne]
  rw [run_of_keep hk]

-- A comment that leaves a quoted field open goes on at least to the next quote.
theorem IsRecord.mem_quote (h : IsOneLine comment) {taken : String}
    (he : ¬EndsRecord (utf8 (commentLine comment)))
    (hr : IsRecord (utf8 (commentLine comment ++ taken))) : '"' ∈ taken.toList := by
  by_contra hn
  rw [utf8_commentLine, endsRecord_iff] at he
  have hm : (scan (hash :: utf8 comment)).2.mode = .quoted := by
    by_contra hm
    exact he ⟨(holdsComment_scan (scan_comment h)).inside, hm⟩
  have hq : Mode.quote ∉ Position.lineFeed :: utf8 taken := by
    rw [List.mem_cons, not_or, Mode.quote_eq]
    exact ⟨by decide, fun hb => hn (Text.mem_of_mem_encode (by decide) hb)⟩
  have hb : utf8 (commentLine comment ++ taken) =
      hash :: utf8 comment ++ Position.lineFeed :: utf8 taken := by
    rw [Text.utf8_append, utf8_commentLine, List.append_assoc]
    rfl
  have hl := hr.length_eq
  rw [hr.isCut.records_eq, hb, scan_append fun hp => absurd hp (not_mark_prefix_hash _),
    scan_comment h, Scanner.run_of_quoted hm hq] at hl
  cases hl

theorem scan_snoc {front : Bytes} {byte : UInt8} (h : (scan (hash :: front)).1 = [])
    (hn : ¬IsRecord (hash :: front ++ [byte])) : (scan (hash :: front ++ [byte])).1 = [] := by
  have hs := @scan_append (hash :: front) [byte] fun hp => absurd hp (not_mark_prefix_hash _)
  rw [h, Scanner.run_singleton] at hs
  rw [hs]
  cases hb : ((scan (hash :: front)).2.step byte).1 with
  | none => rfl
  | some record =>
    have hc : IsCut (hash :: front ++ [byte]) := ⟨hash :: front, byte, rfl, by simp [hb]⟩
    refine absurd (IsRecord.mk hc ?_) hn
    rw [hc.records_eq, hs, hb]
    rfl

-- By induction from the end of what follows the comment. The bytes of a character outside ASCII end
-- no record, so a record that ends does so between two characters.
theorem scan_of_forall_encode (h : IsOneLine comment) {chars : List Char}
    (hn : ∀ taken rest, chars = taken ++ rest →
      ¬IsRecord (hash :: utf8 comment ++ [Position.lineFeed] ++ encode taken)) :
    (scan (hash :: utf8 comment ++ [Position.lineFeed] ++ encode chars)).1 = [] := by
  induction chars using List.reverseRecOn with
  | nil =>
    have hn := hn [] [] rfl
    rw [Text.encode_nil, List.append_nil] at hn ⊢
    exact scan_snoc (scan_comment h) hn
  | append_singleton chars c hi =>
    have hs := hi fun taken rest hc => hn taken (rest ++ [c]) (by simp [hc])
    have hn := hn (chars ++ [c]) [] (by simp)
    have he : encode [c] = String.utf8EncodeChar c := by
      rw [Text.encode_cons, Text.encode_nil, List.append_nil]
    rw [Text.encode_append, he, ← List.append_assoc] at hn ⊢
    by_cases hc : c.toNat < 0x80
    case pos =>
      rw [Text.utf8EncodeChar_of_lt hc] at hn ⊢
      exact scan_snoc hs hn
    case neg =>
      have hl : ∀ byte ∈ String.utf8EncodeChar c, Mode.endsLine byte = false := by
        intro byte hb
        have hb := Mode.not_structural_of_le (Text.le_of_mem_utf8EncodeChar (not_lt.mp hc) byte hb)
        exact (Bool.or_eq_false_iff.mp hb).right
      rw [scan_append fun hp => absurd hp (not_mark_prefix_hash _), hs,
        Scanner.run_of_not_endsLine hl]
      rfl

theorem scan_of_forall_not_isRecord (h : IsOneLine comment) {after : String}
    (hn : ∀ taken rest, after = taken ++ rest →
      ¬IsRecord (utf8 (commentLine comment ++ taken))) :
    (scan (utf8 (commentLine comment ++ after))).1 = [] := by
  rw [Text.utf8_append, utf8_commentLine, Text.utf8_eq_encode after]
  apply scan_of_forall_encode h
  intro taken rest ha
  have ht : after = .ofList taken ++ .ofList rest := by
    rw [← String.ofList_append, ← ha, String.ofList_toList]
  have hn := hn _ _ ht
  rwa [Text.utf8_append, utf8_commentLine, Text.utf8_ofList] at hn

theorem Mode.not_isStructural_of_mem {c : Char} (hc : c ≠ ',') (hq : c ≠ '"')
    (hl : ∀ byte ∈ String.utf8EncodeChar c, endsLine byte = false) :
    ∀ byte ∈ String.utf8EncodeChar c, isStructural byte = false := by
  intro byte hb
  have hcomma : byte ≠ comma := by
    intro he
    rw [he, comma_eq] at hb
    exact hc (Text.eq_of_mem_utf8EncodeChar (by decide) hb)
  have hquote : byte ≠ quote := by
    intro he
    rw [he, quote_eq] at hb
    exact hq (Text.eq_of_mem_utf8EncodeChar (by decide) hb)
  simp [isStructural, hcomma, hquote, hl byte hb]

theorem Scanner.mode_run_char {s : Scanner} {c : Char}
    (hs : s.mode = .plain ∨ s.mode = .opening ∧ c ≠ '"')
    (hl : ∀ byte ∈ String.utf8EncodeChar c, Mode.endsLine byte = false) :
    (s.run (String.utf8EncodeChar c)).2.mode = if c = ',' then .opening else .plain := by
  have hne : s.mode ≠ .quoted := by
    rcases hs with hs | ⟨hs, _⟩ <;> simp [hs]
  by_cases hc : c = ','
  case pos =>
    subst hc
    have he : String.utf8EncodeChar ',' = [Mode.comma] := rfl
    rw [he, run_singleton, step, Mode.read_comma hne]
    rfl
  case neg =>
    rw [if_neg hc]
    by_cases hq : c = '"'
    case pos =>
      subst hq
      have he : String.utf8EncodeChar '"' = [Mode.quote] := rfl
      have hp : s.mode = .plain := hs.resolve_right fun ho => ho.right rfl
      have hr : Mode.plain.read Mode.quote = (.plain, .keep) := rfl
      rw [he, run_singleton, step, hp, hr]
    case neg =>
      rw [run_of_not_structural String.utf8EncodeChar_ne_nil
        (Mode.not_isStructural_of_mem hc hq hl)]
      rcases hs with hs | ⟨hs, _⟩ <;> simp [hs, Mode.inField]

-- Only a quote that follows a comma opens a quoted field.
theorem Scanner.mode_run_encode {s : Scanner} {chars : List Char}
    (hs : s.mode = .plain ∨ s.mode = .opening ∧ chars.head? ≠ some '"')
    (hl : ∀ byte ∈ encode chars, Mode.endsLine byte = false) (hq : ¬[',', '"'] <:+: chars) :
    (s.run (encode chars)).2.mode = .plain ∨ (s.run (encode chars)).2.mode = .opening := by
  induction chars generalizing s with
  | nil => exact hs.imp_right And.left
  | cons c chars hi =>
    rw [Text.encode_cons, run_append]
    have hqs : ¬[',', '"'] <:+: chars := fun h => hq (h.trans (List.suffix_cons c chars).isInfix)
    apply hi ?start (fun byte hb => hl byte (by simp [hb])) hqs
    rw [mode_run_char (hs.imp_right fun ho => ⟨ho.left, by simpa using ho.right⟩)
      fun byte hb => hl byte (by simp [hb])]
    by_cases hc : c = ','
    case pos =>
      refine .inr ⟨if_pos hc, fun hh => hq ?_⟩
      obtain ⟨rest, hr⟩ := List.head?_eq_some_iff.mp hh
      rw [hc, hr]
      exact ⟨[], rest, rfl⟩
    case neg => exact .inl (if_neg hc)

theorem endsRecord_of_not_infix (h : IsOneLine comment) (hq : ¬[',', '"'] <:+: comment.toList) :
    EndsRecord (utf8 (commentLine comment)) := by
  have hm := @Scanner.mode_run_encode ((initial false).step hash).2 comment.toList (.inl rfl)
    h.not_endsLine hq
  rw [utf8_commentLine, endsRecord_iff, scan_hash, Text.utf8_eq_encode]
  rcases hm with hm | hm <;> simp [hm]

end Table

-- The tags of two tables that stand one after the other, if both have all of theirs.
theorem compileSource_append_eq_ok_iff {bytes₁ bytes₂ : Bytes}
    (h : bytes₁ = [] ∨ Table.IsCut bytes₁) (hm : ¬Table.mark <+: bytes₂) {tags : List Tag} :
    compileSource { bytes := bytes₁ ++ bytes₂ } = .ok tags ↔
      ∃ tags₁ tags₂, compileSource { bytes := bytes₁ } = .ok tags₁ ∧
        compileSource { bytes := bytes₂ } = .ok tags₂ ∧ tags₁ ++ tags₂ = tags := by
  rcases h with rfl | h
  · have hn : compileSource { bytes := [] } = .ok [] := rfl
    simp [hn]
  · simp only [compileSource, Table.read_append h hm, compileItems_append, compileItems_shift]
    cases compileItems (Table.read { bytes := bytes₁ })
    case error => simp [bind, Except.bind]
    case ok =>
      cases compileItems (Table.read { bytes := bytes₂ }) <;>
        simp [bind, Except.bind, pure, Except.pure, Except.mapError]

theorem compileSource_of_isComment {text : String} {record : Table.Record}
    (hr : Table.records (utf8 text) = [record]) (hc : record.IsComment) :
    compileSource (.ofText text) = .ok [] := by
  have ⟨row, he⟩ := (Table.records_isText text record (by simp [hr])).exists_row
  have hs := Table.Record.isSkipped_of_isComment hc he
  have ht : row.tags = .ok [] := by
    rw [Row.tags, Row.form?, if_pos hs]
    rfl
  have hread : Table.read (.ofText text) = [.ok row] := by
    rw [Table.Source.ofText, Table.read_of_no_failure, hr, List.map_singleton, he]
  rw [compileSource, hread, compileItems, tagsOf, ht]
  rfl

theorem compileSource_append_congr {bytes₁ bytes₂ bytes₂' : Bytes}
    (h : bytes₁ = [] ∨ Table.IsCut bytes₁) (hm : ¬Table.mark <+: bytes₂)
    (hm' : ¬Table.mark <+: bytes₂') (he : ∀ tags, compileSource { bytes := bytes₂ } = .ok tags ↔
      compileSource { bytes := bytes₂' } = .ok tags) (tags : List Tag) :
    compileSource { bytes := bytes₁ ++ bytes₂ } = .ok tags ↔
      compileSource { bytes := bytes₁ ++ bytes₂' } = .ok tags := by
  simp only [compileSource_append_eq_ok_iff h hm, compileSource_append_eq_ok_iff h hm', he]

open Table (commentLine)

theorem Table.not_mark_prefix_of_head {text : String} (h : text.toList.head? ≠ some '\uFEFF') :
    ¬mark <+: utf8 text := by
  intro hp
  have ⟨rest, hr⟩ := exists_of_mark_prefix hp
  exact h (by rw [hr]; rfl)

section

variable {before comment : String}

theorem ofText_comment (before comment text : String) :
    Table.Source.ofText (before ++ commentLine comment ++ text) =
      { bytes := utf8 before ++ utf8 (commentLine comment ++ text) } := by
  rw [Table.Source.ofText, String.append_assoc, Text.utf8_append]

theorem exists_utf8_comment (comment text : String) :
    ∃ bytes, utf8 (commentLine comment ++ text) = Table.hash :: bytes := by
  rw [Text.utf8_append, Table.utf8_commentLine]
  exact ⟨_, rfl⟩

theorem not_mark_prefix_comment (comment text : String) :
    ¬Table.mark <+: utf8 (commentLine comment ++ text) := by
  have ⟨bytes, hb⟩ := exists_utf8_comment comment text
  exact hb ▸ Table.not_mark_prefix_hash bytes

-- What belongs to the record of a comment may be left out with it.
theorem compileSource_of_isRecord (hb : utf8 before = [] ∨ Table.IsCut (utf8 before))
    {taken rest : String} (hr : Table.IsRecord (utf8 (commentLine comment ++ taken)))
    (hm : rest.toList.head? ≠ some '\uFEFF') (tags : List Tag) :
    compileSource (.ofText (before ++ commentLine comment ++ (taken ++ rest))) = .ok tags ↔
      compileSource (.ofText (before ++ rest)) = .ok tags := by
  have hm := Table.not_mark_prefix_of_head hm
  have ⟨bytes, hbytes⟩ := exists_utf8_comment comment taken
  have ⟨record, hrecord, hk⟩ := (hbytes ▸ hr).exists_isComment
  have hcomment : compileSource { bytes := utf8 (commentLine comment ++ taken) } = .ok [] :=
    compileSource_of_isComment (hbytes ▸ hrecord) hk
  rw [ofText_comment, Table.Source.ofText, Text.utf8_append before rest]
  refine compileSource_append_congr hb (not_mark_prefix_comment _ _) hm (fun tags => ?_) tags
  rw [← String.append_assoc, Text.utf8_append _ rest,
    compileSource_append_eq_ok_iff (.inr hr.isCut) hm, hcomment]
  simp

theorem compileSource_of_scan_comment (hb : utf8 before = [] ∨ Table.IsCut (utf8 before))
    {after : String} (hs : (Table.scan (utf8 (commentLine comment ++ after))).1 = [])
    (tags : List Tag) :
    compileSource (.ofText (before ++ commentLine comment ++ after)) = .ok tags ↔
      compileSource (.ofText before) = .ok tags := by
  have ⟨bytes, hbytes⟩ := exists_utf8_comment comment after
  have ⟨record, hrecord, hk⟩ := Table.exists_isComment_of_scan (hbytes ▸ hs)
  have hcomment : compileSource { bytes := utf8 (commentLine comment ++ after) } = .ok [] :=
    compileSource_of_isComment (hbytes ▸ hrecord) hk
  have hnil : compileSource { bytes := [] } = .ok [] := rfl
  have hm : ¬Table.mark <+: [] := by decide
  have ht := compileSource_append_congr hb (not_mark_prefix_comment comment after) hm
    (fun tags => by rw [hcomment, hnil]) tags
  rwa [List.append_nil, ← ofText_comment] at ht

end

-- A comment that leaves no quoted field open may be left out. One that leaves a field open takes
-- what follows with it, up to the first place that ends its record, or else all of it.
theorem compileSource_comment {before comment after : String}
    (hb : before = "" ∨ Table.EndsRecord (utf8 before)) (hc : Table.IsOneLine comment)
    (ha : after.toList.head? ≠ some '\uFEFF') :
    (Table.EndsRecord (utf8 (commentLine comment)) → ∀ tags,
      compileSource (.ofText (before ++ commentLine comment ++ after)) = .ok tags ↔
        compileSource (.ofText (before ++ after)) = .ok tags) ∧
    (¬Table.EndsRecord (utf8 (commentLine comment)) → '"' ∉ after.toList → ∀ tags,
      compileSource (.ofText (before ++ commentLine comment ++ after)) = .ok tags ↔
        compileSource (.ofText before) = .ok tags) ∧
    (¬[',', '"'] <:+: comment.toList → Table.EndsRecord (utf8 (commentLine comment))) ∧
    (∀ taken rest, after = taken ++ rest →
      Table.IsRecord (utf8 (commentLine comment ++ taken)) →
      rest.toList.head? ≠ some '\uFEFF' → ∀ tags,
        compileSource (.ofText (before ++ commentLine comment ++ after)) = .ok tags ↔
          compileSource (.ofText (before ++ rest)) = .ok tags) ∧
    ((∀ taken rest, after = taken ++ rest →
      ¬Table.IsRecord (utf8 (commentLine comment ++ taken))) → ∀ tags,
        compileSource (.ofText (before ++ commentLine comment ++ after)) = .ok tags ↔
          compileSource (.ofText before) = .ok tags) := by
  have hb : utf8 before = [] ∨ Table.IsCut (utf8 before) := by
    refine hb.imp (fun h => ?_) Table.EndsRecord.isCut
    rw [h]
    rfl
  have hall (hn : ∀ taken rest, after = taken ++ rest →
      ¬Table.IsRecord (utf8 (commentLine comment ++ taken))) :=
    compileSource_of_scan_comment hb (Table.scan_of_forall_not_isRecord hc hn)
  refine ⟨fun he => ?closed, fun he hq => hall ?opened, Table.endsRecord_of_not_infix hc, ?split,
    hall⟩
  case closed =>
    have hr := Table.isRecord_commentLine hc he
    have h := @compileSource_of_isRecord before comment hb "" after (by simpa using hr) ha
    simpa using h
  case opened =>
    intro taken rest ht hr
    have hm := hr.mem_quote hc he
    exact hq (by simp [ht, hm])
  case split =>
    intro taken rest ht hr hm
    exact ht ▸ compileSource_of_isRecord hb hr hm

theorem compileSource_comment_quotes :
    Table.EndsRecord (utf8 "ss01-ss02,Sets,1\n") ∧
    Table.EndsRecord (utf8 (commentLine ",\"the \"\"old\"\" set\", 5\" wide")) ∧
    compileSource (.ofText ("ss01-ss02,Sets,1\n" ++
      commentLine ",\"the \"\"old\"\" set\", 5\" wide" ++ "frac,Fractions,1\n")) =
        .ok [⟨"ss01"⟩, ⟨"ss02"⟩, ⟨"frac"⟩] := by
  have hb : Table.EndsRecord (utf8 "ss01-ss02,Sets,1\n") :=
    ⟨utf8 "ss01-ss02,Sets,1", by decide, by decide⟩
  have he : Table.EndsRecord (utf8 (commentLine ",\"the \"\"old\"\" set\", 5\" wide")) :=
    ⟨utf8 "#,\"the \"\"old\"\" set\", 5\" wide", by decide, by decide⟩
  have hr : compileSource (.ofText ("ss01-ss02,Sets,1\n" ++ "frac,Fractions,1\n")) =
      .ok [⟨"ss01"⟩, ⟨"ss02"⟩, ⟨"frac"⟩] := by
    rw [compileSource, Table.Source.ofText, Table.read_of_no_failure,
      @Table.Record.map_row_of_fields_eq _ [(⟨1, 0, 0⟩, ["ss01-ss02", "Sets", "1"]),
        (⟨2, 17, 1⟩, ["frac", "Fractions", "1"])] (by decide)]
    rfl
  obtain ⟨hclosed, _⟩ := @compileSource_comment "ss01-ss02,Sets,1\n"
    ",\"the \"\"old\"\" set\", 5\" wide" "frac,Fractions,1\n" (.inr hb)
    ⟨by decide, by decide⟩ (by decide)
  exact ⟨hb, he, (hclosed he _).mpr hr⟩

-- A row is lost in a comment that does not close its quote.
theorem compileSource_comment_open :
    Table.IsOneLine ",\"" ∧
    compileSource (.ofText ("" ++ commentLine ",\"" ++ "frac,Fractions,1\n")) = .ok [] ∧
    compileSource (.ofText ("" ++ "frac,Fractions,1\n")) = .ok [⟨"frac"⟩] := by
  refine ⟨⟨by decide, by decide⟩, ?_, ?_⟩
  · rw [compileSource, Table.Source.ofText, Table.read_of_no_failure,
      @Table.Record.map_row_of_fields_eq _ [(⟨1, 0, 0⟩, ["#", "\nfrac,Fractions,1\n"])]
        (by decide)]
    rfl
  · rw [compileSource, Table.Source.ofText, Table.read_of_no_failure,
      @Table.Record.map_row_of_fields_eq _ [(⟨1, 0, 0⟩, ["frac", "Fractions", "1"])] (by decide)]
    rfl

end TagRegistry
