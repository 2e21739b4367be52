import TagRegistry.Proofs.Table.Written

namespace TagRegistry.Table

open Text (utf8 encode)

namespace Mode

theorem comma_eq : comma = UInt8.ofNat ','.toNat := by
  decide

theorem quote_eq : quote = UInt8.ofNat '"'.toNat := by
  decide

theorem endsLine_iff {byte : UInt8} :
    endsLine byte ↔ byte = UInt8.ofNat '\n'.toNat ∨ byte = UInt8.ofNat '\r'.toNat := by
  simp [endsLine]

-- A field starts in these modes.
def IsStart (mode : Mode) : Prop :=
  mode = .outside ∨ mode = .opening

theorem read_comma {mode : Mode} (h : mode ≠ .quoted) :
    mode.read comma = (.opening, .endField) := by
  cases mode
  case quoted => exact absurd rfl h
  all_goals rfl

theorem read_of_endsLine {mode : Mode} (hq : mode ≠ .quoted) (ho : mode ≠ .outside) {byte : UInt8}
    (h : endsLine byte) : mode.read byte = (.outside, .endRecord) := by
  cases mode
  case quoted  => exact absurd rfl hq
  case outside => exact absurd rfl ho
  all_goals
    cases endsLine_iff.mp h <;> subst byte <;> rfl

end Mode

namespace Scanner

theorem run_plain {s : Scanner} (hs : s.mode.IsStart) {bytes : Bytes} (hne : bytes ≠ [])
    (hb : ∀ byte ∈ bytes, byte ≠ Mode.comma ∧ Mode.endsLine byte = false)
    (hq : bytes.head? ≠ some Mode.quote) :
    s.run bytes = ([], { s.keep bytes with mode := .plain }) := by
  cases bytes with
  | nil => contradiction
  | cons byte bytes =>
    have ⟨hc, hl⟩ := hb byte List.mem_cons_self
    have hr : s.mode.read byte = (.plain, .keep) := by
      have hq : byte ≠ Mode.quote := by simpa using hq
      cases hs <;> simp_all [Mode.read, Mode.read.atStart, Mode.read.unquoted]
    have hk : ∀ b ∈ bytes, Mode.plain.read b = (.plain, .keep) := by
      intro b hm
      have ⟨hc, hl⟩ := hb b (List.mem_cons_of_mem _ hm)
      simp [Mode.read, Mode.read.unquoted, hc, hl]
    rw [run_cons, step_of_keep hr, run_of_keep hk]
    simp [keep, Position.after_cons]

-- Of two quotes in a quoted field, one is kept.
theorem run_double (start here : Position) (fields : List Bytes) (field : Bytes)
    (chars : List Char) :
    run ⟨.quoted, start, here, fields, field⟩ (encode (Written.double chars)) =
      ([], ⟨.quoted, start, here.after (encode (Written.double chars)), fields,
        (encode chars).reverse ++ field⟩) := by
  induction chars generalizing here field with
  | nil => rfl
  | cons c chars hi =>
    rw [Written.double]
    split
    case isTrue hc =>
      subst hc
      have he : encode ('"' :: '"' :: Written.double chars) =
          [Mode.quote, Mode.quote] ++ encode (Written.double chars) := rfl
      have hs : run ⟨.quoted, start, here, fields, field⟩ [Mode.quote, Mode.quote] =
          ([], ⟨.quoted, start, here.after [Mode.quote, Mode.quote], fields,
            Mode.quote :: field⟩) := rfl
      have hq : String.utf8EncodeChar '"' = [Mode.quote] := rfl
      rw [he, run_append, hs, hi, Position.after_append, Text.encode_cons, hq]
      simp
    case isFalse hc =>
      have hk : ∀ byte ∈ String.utf8EncodeChar c, Mode.quoted.read byte = (.quoted, .keep) := by
        intro byte hm
        have hq : byte ≠ Mode.quote := by
          intro he
          subst he
          rw [Mode.quote_eq] at hm
          exact hc (Text.eq_of_mem_utf8EncodeChar (by decide) hm)
        simp [Mode.read, hq]
      rw [Text.encode_cons, run_append, run_of_keep hk, keep, hi, Position.after_append,
        Text.encode_cons]
      simp

theorem run_quoted {mode : Mode} (hm : mode.IsStart) (start here : Position) (fields : List Bytes)
    (chars : List Char) :
    run ⟨mode, start, here, fields, []⟩ (encode ('"' :: Written.double chars ++ ['"'])) =
      ([], ⟨.closing, start, here.after (encode ('"' :: Written.double chars ++ ['"'])), fields,
        (encode chars).reverse⟩) := by
  have he : encode ('"' :: Written.double chars ++ ['"']) =
      [Mode.quote] ++ encode (Written.double chars) ++ [Mode.quote] := by
    rw [Text.encode_append, Text.encode_cons]
    rfl
  have ho : run ⟨mode, start, here, fields, []⟩ [Mode.quote] =
      ([], ⟨.quoted, start, here.after [Mode.quote], fields, []⟩) := by
    cases hm <;> subst mode <;> rfl
  have hc (here : Position) (field : Bytes) :
      run ⟨.quoted, start, here, fields, field⟩ [Mode.quote] =
        ([], ⟨.closing, start, here.after [Mode.quote], fields, field⟩) := rfl
  rw [he, run_append, run_append, ho, run_double, hc, Position.after_append, Position.after_append]
  simp

theorem run_unquoted {mode : Mode} (hm : mode.IsStart) (start here : Position)
    (fields : List Bytes) {text : String} (hp : Written.CanBePlain text) (hne : text ≠ "") :
    run ⟨mode, start, here, fields, []⟩ (utf8 text) =
      ([], ⟨.plain, start, here.after (utf8 text), fields, (utf8 text).reverse⟩) := by
  have hl : utf8 text ≠ [] := fun h => hne (Text.utf8_injective h)
  have hb : ∀ byte ∈ utf8 text, byte ≠ Mode.comma ∧ Mode.endsLine byte = false := by
    intro byte hb
    constructor
    case left =>
      intro he
      subst he
      rw [Mode.comma_eq] at hb
      exact (hp.no_end _ (Text.mem_of_mem_encode (by decide) hb)).1 rfl
    case right =>
      rw [Bool.eq_false_iff]
      intro he
      cases Mode.endsLine_iff.mp he <;> subst byte
      case inl => exact (hp.no_end _ (Text.mem_of_mem_encode (by decide) hb)).2.1 rfl
      case inr => exact (hp.no_end _ (Text.mem_of_mem_encode (by decide) hb)).2.2 rfl
  have hq : (utf8 text).head? ≠ some Mode.quote := by
    intro h
    rw [Mode.quote_eq] at h
    exact hp.no_open (Text.head?_eq_of_head?_encode (by decide) h)
  rw [run_plain hm hl hb hq, keep]
  simp

-- A field leaves the scanner where the field may end, with the text of the field in hand. Only an
-- empty plain field leaves no trace.
theorem run_field {mode : Mode} (hm : mode.IsStart) (start here : Position) (fields : List Bytes)
    (f : Written.Field) :
    ∃ mode', run ⟨mode, start, here, fields, []⟩ (encode f.chars) =
        ([], ⟨mode', start, here.after (encode f.chars), fields, (utf8 f.text).reverse⟩) ∧
      mode' ≠ .quoted ∧ (mode' = .outside → mode = .outside ∧ f.quoted = false ∧ f.text = "") := by
  cases hq : f.quoted
  case true =>
    rw [Written.Field.chars_of_quoted hq]
    exact ⟨.closing, run_quoted hm start here fields _, by simp⟩
  case false =>
    rw [Written.Field.chars_of_plain hq, ← Text.utf8_eq_encode]
    by_cases ht : f.text = ""
    case pos =>
      refine ⟨mode, by rw [ht]; rfl, ?_, fun h => ⟨h, rfl, ht⟩⟩
      cases hm <;> subst mode <;> simp
    case neg => exact ⟨.plain, run_unquoted hm start here fields (f.plain hq) ht, by simp⟩

-- After the fields of a record the scanner is inside the record, unless the record is blank.
theorem run_fields {mode : Mode} (hm : mode.IsStart) (start here : Position) (before : List Bytes)
    (f : Written.Field) (fs : List Written.Field) :
    ∃ s : Scanner, run ⟨mode, start, here, before, []⟩
        (encode ([','].intercalate ((f :: fs).map Written.Field.chars))) = ([], s) ∧
      s.start = start ∧
      s.record.fields = before.reverse ++ ((f :: fs).map Written.Field.text).map utf8 ∧
      s.mode ≠ .quoted ∧
      (s.mode = .outside → mode = .outside ∧ fs = [] ∧ f.quoted = false ∧ f.text = "") := by
  induction fs generalizing mode here before f with
  | nil =>
    obtain ⟨mode', hr, hq, ho⟩ := run_field hm start here before f
    refine ⟨_, by simpa using hr, rfl, by simp [record], hq, fun h => ?_⟩
    obtain ⟨hm, hf⟩ := ho h
    exact ⟨hm, rfl, hf⟩
  | cons g gs hi =>
    obtain ⟨mode', hr, hq, _⟩ := run_field hm start here before f
    have hc (here : Position) :
        run ⟨mode', start, here, before, (utf8 f.text).reverse⟩ [Mode.comma] =
          ([], ⟨.opening, start, here.after [Mode.comma], utf8 f.text :: before, []⟩) := by
      rw [run_singleton]
      simp [step, Mode.read_comma hq, Position.after_singleton]
    obtain ⟨s, hs, hstart, hf, hq, ho⟩ := hi (.inr rfl)
      ((here.after (encode f.chars)).after [Mode.comma]) (utf8 f.text :: before) g
    have he : encode ([','].intercalate ((f :: g :: gs).map Written.Field.chars)) =
        encode f.chars ++ [Mode.comma] ++
          encode ([','].intercalate ((g :: gs).map Written.Field.chars)) := by
      simp only [List.map_cons, List.intercalate_cons_cons, Text.encode_append]
      rfl
    refine ⟨s, ?_, hstart, by simp [hf], hq, fun h => ?_⟩
    · rw [he, run_append, run_append, hr, hc, hs]
      rfl
    · obtain ⟨h, _⟩ := ho h
      cases h

-- What the scanner has in hand after a record that nothing ends.
theorem run_record (start here : Position) (r : Written.Record) :
    ∃ s : Scanner, (between start here).run
        (encode ([','].intercalate (r.fields.map Written.Field.chars))) = ([], s) ∧
      s.record.fields = r.texts.map utf8 ∧ s.mode ≠ .quoted ∧ s.mode ≠ .outside := by
  have ⟨f, fs, hfs⟩ := List.exists_cons_of_ne_nil r.fields_ne
  have ⟨s, hr, _, hf, hq, ho⟩ := run_fields (.inl rfl) start here [] f fs
  refine ⟨s, by rw [hfs]; exact hr, by rw [hf, Written.Record.texts, hfs]; rfl, hq, ?_⟩
  intro h
  obtain ⟨_, hn, hp, ht⟩ := ho h
  exact r.not_blank f (hn ▸ hfs) hp ht

-- A run of line ends ends the record once.
theorem run_ending {s : Scanner} (hq : s.mode ≠ .quoted) (ho : s.mode ≠ .outside) {ending : Bytes}
    (hne : ending ≠ []) (he : ∀ byte ∈ ending, Mode.endsLine byte) :
    ∃ start here, s.run ending = ([s.record], between start here) := by
  cases ending with
  | nil => contradiction
  | cons byte ending =>
    have hr := Mode.read_of_endsLine hq ho (he byte List.mem_cons_self)
    have hs : s.step byte =
        (some s.record, between (s.here.past byte).pastRecord (s.here.past byte).pastRecord) := by
      simp [step, hr]
    refine ⟨(s.here.past byte).pastRecord, (s.here.past byte).pastRecord.after ending, ?_⟩
    rw [run_cons, hs, run_of_endsLine fun b hb => he b (List.mem_cons_of_mem _ hb)]
    rfl

theorem found_nil {s : Scanner} (h : s.mode ≠ .outside) : s.found [] = [s.record] := by
  simp [found, run, pending?, h]

theorem endsLine_of_mem_ending (r : Written.Record) :
    ∀ byte ∈ encode r.ending, Mode.endsLine byte := by
  intro byte hb
  have ⟨c, hc, hb⟩ := List.mem_flatMap.mp hb
  have hc := r.ending_end c hc
  have hlt : c.toNat < 0x80 := by cases hc <;> subst c <;> decide
  rw [Text.utf8EncodeChar_of_lt hlt, List.mem_singleton] at hb
  apply Mode.endsLine_iff.mpr
  cases hc <;> subst c <;> simp [hb]

theorem found_records (start here : Position) (rs : List Written.Record)
    (h : ∀ r ∈ rs.dropLast, r.ending ≠ []) :
    ((between start here).found (encode (rs.flatMap Written.Record.chars))).map
      Table.Record.fields = rs.map fun r => r.texts.map utf8 := by
  induction rs generalizing start here with
  | nil => rfl
  | cons r rs hi =>
    have ⟨s, hr, hf, hq, ho⟩ := run_record start here r
    rw [List.flatMap_cons, Written.Record.chars, Text.encode_append, Text.encode_append,
      List.append_assoc, found_append, hr, found_append]
    by_cases hne : r.ending = []
    case pos =>
      -- Only the last record may be without an end.
      have hrs : rs = [] := by
        cases rs with
        | nil => rfl
        | cons r' rs => exact absurd hne (h r (by simp))
      subst hrs
      rw [hne]
      simp [run, found_nil ho, hf]
    case neg =>
      have hl : encode r.ending ≠ [] := by
        obtain ⟨c, cs, hc⟩ := List.exists_cons_of_ne_nil hne
        simp [hc]
      obtain ⟨_, _, he⟩ := run_ending hq ho hl (endsLine_of_mem_ending r)
      have h : ∀ r' ∈ rs.dropLast, r'.ending ≠ [] := by
        intro r' hm
        cases rs with
        | nil => cases hm
        | cons => exact h r' (List.mem_cons_of_mem _ hm)
      rw [he, List.map_cons, List.nil_append, List.map_append, hi _ _ h]
      simp [hf]

end Scanner
end TagRegistry.Table
