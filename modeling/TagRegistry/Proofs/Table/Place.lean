import Mathlib.Data.List.Induction
import TagRegistry.Proofs.Table.Scan

namespace TagRegistry.Table

namespace Mode

theorem not_endsLine_comma : endsLine comma = false :=
  rfl

theorem not_endsLine_quote : endsLine quote = false :=
  rfl

-- Outside quotes a record ends with a line end, and nowhere else.
theorem unquoted_iff (byte : UInt8) :
    ((read.unquoted byte).fst = .outside ↔ endsLine byte) ∧
      ((read.unquoted byte).snd = .endRecord ↔ endsLine byte) := by
  rw [read.unquoted]
  split
  case isTrue h =>
    have hb : byte = comma := by simpa using h
    simp [hb, not_endsLine_comma]
  case isFalse => split <;> simp_all

theorem atStart_iff (byte : UInt8) :
    ((read.atStart byte).fst = .outside ↔ endsLine byte) ∧
      ((read.atStart byte).snd = .endRecord ↔ endsLine byte) := by
  rw [read.atStart]
  split
  case isTrue h =>
    have hb : byte = quote := by simpa using h
    simp [hb, not_endsLine_quote]
  case isFalse => exact unquoted_iff byte

theorem read_eq_outside_iff {mode : Mode} {byte : UInt8} : (mode.read byte).fst = .outside ↔
    (mode = .outside ∧ endsLine byte) ∨ (mode.read byte).snd = .endRecord := by
  cases mode with
  | outside => by_cases hl : endsLine byte <;> simp [read, hl, atStart_iff]
  | opening => simp [read, atStart_iff]
  | plain   => simp [read, unquoted_iff]
  | quoted  => by_cases hq : byte = quote <;> simp [read, hq]
  | closing => by_cases hq : byte = quote <;> simp [read, hq, unquoted_iff]

theorem ne_outside_of_read {mode : Mode} {byte : UInt8} (h : (mode.read byte).snd = .endRecord) :
    mode ≠ .outside := by
  intro hm
  subst hm
  by_cases hl : endsLine byte <;> simp [read, hl, atStart_iff] at h

end Mode

namespace Scanner

theorem isSome_step_iff {s : Scanner} {byte : UInt8} :
    (s.step byte).1.isSome ↔ (s.mode.read byte).snd = .endRecord := by
  rcases h : s.mode.read byte with ⟨mode, action⟩
  cases action <;> simp [step, h]

theorem ne_outside_of_step {s : Scanner} {byte : UInt8} (h : (s.step byte).1.isSome) :
    s.mode ≠ .outside :=
  Mode.ne_outside_of_read (isSome_step_iff.mp h)

theorem mode_step {s : Scanner} {byte : UInt8} (h : (s.step byte).1 = none) :
    (s.step byte).2.mode = .outside ↔ s.mode = .outside ∧ Mode.endsLine byte := by
  have hr := @Mode.read_eq_outside_iff s.mode byte
  rcases hm : s.mode.read byte with ⟨mode, action⟩
  rw [hm] at hr
  cases action <;> simp_all [step]

theorem start_step {s : Scanner} {byte : UInt8} (h : (s.step byte).1 = none) :
    (s.step byte).2.start = s.start := by
  rcases hm : s.mode.read byte with ⟨mode, action⟩
  cases action <;> simp_all [step]

theorem run_snoc (s : Scanner) (bytes : Bytes) (byte : UInt8) :
    s.run (bytes ++ [byte]) = ((s.run bytes).1 ++ ((s.run bytes).2.step byte).1.toList,
      ((s.run bytes).2.step byte).2) := by
  rw [run_append, run_singleton]

-- What a scanner has read since it had nothing in hand: the records that have ended, line ends, and
-- the first bytes of a record.
structure Layout (s : Scanner) (bytes front gap body : Bytes) : Prop where
  bytes_eq  : bytes = front ++ gap ++ body
  front_eq  : front = [] ∨ ∃ before byte, front = before ++ [byte] ∧
    ((s.run before).2.step byte).1.isSome
  length_eq : (s.run front).1.length = (s.run bytes).1.length
  start_eq  : (s.run bytes).2.start = (s.run front).2.start
  gap_end   : ∀ byte ∈ gap, Mode.endsLine byte
  body_head : ∀ byte ∈ body.head?, Mode.endsLine byte = false
  body_eq   : (s.run bytes).2.mode = .outside ↔ body = []

namespace Layout

variable {s : Scanner} {bytes front gap body : Bytes} {byte : UInt8}

theorem nil (h : s.mode = .outside) : Layout s [] [] [] [] where
  bytes_eq  := rfl
  front_eq  := .inl rfl
  length_eq := rfl
  start_eq  := rfl
  gap_end   := by simp
  body_head := by simp
  body_eq   := by simp [run, h]

theorem endRecord (h : ((s.run bytes).2.step byte).1.isSome) :
    Layout s (bytes ++ [byte]) (bytes ++ [byte]) [] [] where
  bytes_eq  := by simp
  front_eq  := .inr ⟨bytes, byte, rfl, h⟩
  length_eq := rfl
  start_eq  := rfl
  gap_end   := by simp
  body_head := by simp
  body_eq   := by
    rw [run_snoc, step_of_isSome h]
    simp [between]

-- A byte that ends no record goes to the line ends only if no record has begun.
theorem step (h : Layout s bytes front gap body)
    (hs : ((s.run bytes).2.step byte).1 = none) :
    ∃ gap body, Layout s (bytes ++ [byte]) front gap body := by
  have hr : s.run (bytes ++ [byte]) =
      ((s.run bytes).1, ((s.run bytes).2.step byte).2) := by
    rw [run_snoc, hs, Option.toList_none, List.append_nil]
  have hlength : (s.run front).1.length =
      (s.run (bytes ++ [byte])).1.length := by
    rw [hr, h.length_eq]
  have hstart : (s.run (bytes ++ [byte])).2.start =
      (s.run front).2.start := by
    rw [hr, start_step hs, h.start_eq]
  have hmode : (s.run (bytes ++ [byte])).2.mode = .outside ↔
      body = [] ∧ Mode.endsLine byte := by
    rw [hr, mode_step hs, h.body_eq]
  by_cases hb : body = []
  case pos =>
    subst hb
    cases hl : Mode.endsLine byte
    case true =>
      refine ⟨gap ++ [byte], [], by simp [h.bytes_eq], h.front_eq, hlength, hstart, ?_, by simp, ?_⟩
      · intro b hm
        cases List.mem_append.mp hm
        case inl hm => exact h.gap_end b hm
        case inr hm => rwa [List.mem_singleton.mp hm]
      · simp [hmode, hl]
    case false =>
      refine ⟨gap, [byte], by simp [h.bytes_eq], h.front_eq, hlength, hstart, h.gap_end, ?_, ?_⟩
      · simp [hl]
      · simp [hmode, hl]
  case neg =>
    have ⟨first, body, hc⟩ := List.exists_cons_of_ne_nil hb
    subst hc
    refine ⟨gap, first :: body ++ [byte], by simp [h.bytes_eq], h.front_eq, hlength, hstart,
      h.gap_end, ?_, by simp [hmode]⟩
    have hf := h.body_head
    simpa using hf

end Layout

theorem exists_layout {s : Scanner} (h : s.mode = .outside) (bytes : Bytes) :
    ∃ front gap body, Layout s bytes front gap body := by
  induction bytes using List.reverseRecOn with
  | nil => exact ⟨[], [], [], .nil h⟩
  | append_singleton bytes byte hi =>
    have ⟨front, gap, body, h⟩ := hi
    cases hs : ((s.run bytes).2.step byte).1
    case none =>
      have ⟨gap, body, h⟩ := h.step hs
      exact ⟨front, gap, body, h⟩
    case some => exact ⟨bytes ++ [byte], [], [], .endRecord (by simp [hs])⟩

-- The byte that ends a record.
theorem exists_end_of_getElem? {s : Scanner} {bytes : Bytes} {index : Nat} {record : Record}
    (h : (s.run bytes).1[index]? = some record) : ∃ before byte after,
      bytes = before ++ byte :: after ∧ (s.run before).1.length = index ∧
        ((s.run before).2.step byte).1 = some record := by
  induction bytes generalizing s index with
  | nil => simp [run] at h
  | cons byte bytes hi =>
    rw [run_cons] at h
    cases hs : (s.step byte).1
    case none =>
      rw [hs] at h
      obtain ⟨before, b, after, hb, hl, hr⟩ := hi h
      refine ⟨byte :: before, b, after, by rw [hb]; rfl, ?_, ?_⟩
      · rw [run_cons, hs]
        exact hl
      · rw [run_cons]
        exact hr
    case some first =>
      rw [hs] at h
      cases index with
      | zero => exact ⟨[], byte, bytes, rfl, rfl, hs.trans h⟩
      | succ index =>
        obtain ⟨before, b, after, hb, hl, hr⟩ := hi h
        refine ⟨byte :: before, b, after, by rw [hb]; rfl, ?_, ?_⟩
        · rw [run_cons, hs]
          simp [hl]
        · rw [run_cons]
          exact hr

theorem pending?_eq_some_iff {s : Scanner} {record : Record} :
    s.pending? = some record ↔ s.mode ≠ .outside ∧ s.record = record := by
  simp [pending?]

theorem eq_of_getElem?_toList {α : Type} {a? : Option α} {n : Nat} {a : α}
    (h : a?.toList[n]? = some a) : a? = some a ∧ n = 0 := by
  cases a? with
  | none => cases h
  | some b =>
    cases n with
    | zero => exact ⟨h, rfl⟩
    | succ n => cases h

-- Each record is in hand when its first byte has been read, and has the position that the scanner
-- had when the record before it ended.
theorem exists_layout_of_found {s : Scanner} (h : s.mode = .outside) {bytes : Bytes} {index : Nat}
    {record : Record} (hr : (s.found bytes)[index]? = some record) : ∃ front gap body after,
      bytes = front ++ gap ++ body ++ after ∧ s.Layout (front ++ gap ++ body) front gap body ∧
        body ≠ [] ∧ (s.run front).1.length = index ∧ record.position = (s.run front).2.start := by
  by_cases hi : index < (s.run bytes).1.length
  case pos =>
    rw [found, List.getElem?_append_left hi] at hr
    obtain ⟨before, byte, after, hb, hl, hs⟩ := exists_end_of_getElem? hr
    have hsome : ((s.run before).2.step byte).1.isSome := by simp [hs]
    obtain ⟨front, gap, body, hlay⟩ := exists_layout h before
    have hb' := hlay.bytes_eq
    subst hb'
    refine ⟨front, gap, body, byte :: after, by simp [hb], hlay, ?_, hlay.length_eq.trans hl, ?_⟩
    · exact fun hn => ne_outside_of_step hsome (hlay.body_eq.mpr hn)
    · rw [step_of_isSome hsome] at hs
      cases hs
      exact hlay.start_eq
  case neg =>
    have hi := Nat.le_of_not_lt hi
    rw [found, List.getElem?_append_right hi] at hr
    obtain ⟨front, gap, body, hlay⟩ := exists_layout h bytes
    have hb' := hlay.bytes_eq
    subst hb'
    obtain ⟨hp, hn⟩ := eq_of_getElem?_toList hr
    obtain ⟨ho, he⟩ := pending?_eq_some_iff.mp hp
    refine ⟨front, gap, body, [], by simp, hlay, fun hb => ho (hlay.body_eq.mpr hb), ?_, ?_⟩
    · have hlen := hlay.length_eq
      omega
    · rw [← he]
      exact hlay.start_eq

end Scanner

-- Reading a table, the records up to `index` end in `front`, the line ends in `gap` are passed
-- over, and with `rest` the record with number `index` begins.
structure Place (bytes : Bytes) (index : Nat) (front gap rest : Bytes) : Prop where
  bytes_eq  : bytes = front ++ gap ++ rest
  front_eq  : (front = if mark.isPrefixOf bytes then mark else []) ∨
    ∃ before byte, front = before ++ [byte] ∧ ((scan before).2.step byte).1.isSome
  index_eq  : (scan front).1.length = index
  gap_end   : ∀ byte ∈ gap, Mode.endsLine byte
  rest_head : ∃ byte ∈ rest.head?, Mode.endsLine byte = false

-- What a table begins with is scanned from one start, wherever the table is cut after its mark.
theorem exists_initial (bytes : Bytes) : ∃ marked start rest, bytes = start ++ rest ∧
    start = (if mark.isPrefixOf bytes then mark else []) ∧
    ∀ front, front <+: rest → scan (start ++ front) = (initial marked).run front := by
  by_cases hm : mark <+: bytes
  case pos =>
    have ⟨rest, hr⟩ := hm
    refine ⟨true, mark, rest, hr.symm, by rw [if_pos (List.isPrefixOf_iff_prefix.mpr hm)], ?_⟩
    exact fun front _ => scan_of_mark front
  case neg =>
    refine ⟨false, [], bytes, rfl, by rw [if_neg (mt List.isPrefixOf_iff_prefix.mp hm)], ?_⟩
    exact fun front hf => scan_of_no_mark fun hp => hm (hp.trans hf)

theorem exists_place {bytes : Bytes} {index : Nat} {record : Record}
    (h : (records bytes)[index]? = some record) : ∃ front gap rest,
      Place bytes index front gap rest ∧ record.position = (scan front).2.start := by
  have ⟨marked, start, table, hb, hs, hscan⟩ := exists_initial bytes
  have hf : records bytes = (initial marked).found table := by
    rw [records, hb, hscan table (List.prefix_refl table)]
    rfl
  rw [hf] at h
  have ⟨front, gap, body, after, ht, hlay, hbody, hi, hpos⟩ := Scanner.exists_layout_of_found rfl h
  have hfront : scan (start ++ front) = (initial marked).run front := by
    apply hscan
    simp [ht]
  refine ⟨start ++ front, gap, body ++ after, ⟨by simp [hb, ht], ?_, ?_, hlay.gap_end, ?_⟩, ?_⟩
  · cases hlay.front_eq
    case inl hn =>
      rw [hn, List.append_nil]
      exact .inl hs
    case inr he =>
      have ⟨before, byte, he, hsome⟩ := he
      have hbefore : scan (start ++ before) = (initial marked).run before := by
        apply hscan
        simp [ht, he]
      exact .inr ⟨start ++ before, byte, by simp [he], by rwa [hbefore]⟩
  · rw [hfront, hi]
  · have ⟨first, body, hc⟩ := List.exists_cons_of_ne_nil hbody
    have hf := hlay.body_head
    rw [hc] at hf ⊢
    exact ⟨first, rfl, hf first rfl⟩
  · rw [hfront, hpos]

-- No byte of the mark ends a record.
theorem mark_prefix_of_step {before after : Bytes} {byte : UInt8}
    (h : ((scan before).2.step byte).1.isSome) (hm : mark <+: before ++ byte :: after) :
    mark <+: before := by
  cases Nat.lt_or_ge before.length mark.length
  case inl hl =>
    have hb : before ++ [byte] <+: before ++ byte :: after := ⟨after, by simp⟩
    have hs : (before ++ [byte]).length ≤ mark.length := by
      rw [List.length_append]
      exact hl
    have hp := List.prefix_of_prefix_length_le hb hm hs
    have hn : ∀ byte ∈ mark, Mode.isStructural byte = false := by
      intro byte hm
      obtain rfl | rfl | rfl : byte = 0xEF ∨ byte = 0xBB ∨ byte = 0xBF := by simpa [mark] using hm
      all_goals rfl
    rw [Scanner.isSome_step_iff, Mode.read_of_not_structural (hn byte (hp.subset (by simp)))] at h
    cases h
  case inr hl => exact List.prefix_of_prefix_length_le hm (List.prefix_append ..) hl

namespace Place

variable {bytes : Bytes} {index : Nat} {front gap rest : Bytes}

-- Where a record ends the next one starts, and the first starts at the top.
theorem start_eq (h : Place bytes index front gap rest) :
    (scan front).2.start = (scan front).2.here ∨ (scan front).2.start = .start ∧
      (front = if mark.isPrefixOf bytes then mark else []) := by
  cases h.front_eq
  case inl hf =>
    refine .inr ⟨?_, hf⟩
    rw [hf]
    split <;> rfl
  case inr hf =>
    have ⟨before, byte, he, hs⟩ := hf
    left
    rw [he, scan_append (mark_prefix_of_step hs), Scanner.run_singleton, Scanner.step_of_isSome hs]
    rfl

theorem start_line (h : Place bytes index front gap rest) :
    (scan front).2.start.line = 1 + front.count Position.lineFeed := by
  cases h.start_eq
  case inl hs =>
    rw [hs, here_scan]
    rfl
  case inr hs =>
    rw [hs.left, hs.right]
    split <;> rfl

theorem start_record (h : Place bytes index front gap rest) :
    (scan front).2.start.record = index := by
  cases h.start_eq
  case inl hs => rw [hs, here_scan, h.index_eq]
  case inr hs =>
    rw [hs.left, ← h.index_eq, hs.right]
    split <;> rfl

theorem take_eq (h : Place bytes index front gap rest) :
    bytes.take (front ++ gap).length = front ++ gap := by
  rw [h.bytes_eq, List.take_left]

theorem length_lt (h : Place bytes index front gap rest) :
    (front ++ gap).length < bytes.length := by
  have ⟨byte, hr, _⟩ := h.rest_head
  have ⟨rest, hc⟩ := List.head?_eq_some_iff.mp hr
  rw [h.bytes_eq, hc]
  simp

theorem front_prefix (h : Place bytes index front gap rest) : front <+: bytes :=
  ⟨gap ++ rest, by rw [h.bytes_eq, List.append_assoc]⟩

theorem mark_prefix (h : Place bytes index front gap rest) (hm : mark <+: bytes) :
    mark <+: front := by
  cases h.front_eq
  case inl hf =>
    have he : front = mark := by rw [hf, if_pos (List.isPrefixOf_iff_prefix.mpr hm)]
    exact ⟨[], by rw [List.append_nil, he]⟩
  case inr hf =>
    have ⟨before, byte, he, hs⟩ := hf
    have hb : bytes = before ++ byte :: (gap ++ rest) := by simp [h.bytes_eq, he]
    rw [he]
    exact (mark_prefix_of_step hs (hb ▸ hm)).trans (List.prefix_append ..)

theorem scan_eq (h : Place bytes index front gap rest) :
    scan bytes = ((scan front).1 ++ ((scan front).2.run (gap ++ rest)).1,
      ((scan front).2.run (gap ++ rest)).2) := by
  have hb : bytes = front ++ (gap ++ rest) := by rw [h.bytes_eq, List.append_assoc]
  conv => lhs; rw [hb]
  exact scan_append fun hm => h.mark_prefix (hb ▸ hm)

-- A record that comes later is behind all that stands before an earlier one.
theorem front_prefix_of_lt {index' : Nat} {front' gap' rest' : Bytes}
    (h : Place bytes index front gap rest) (h' : Place bytes index' front' gap' rest')
    (hi : index < index') : front <+: front' := by
  refine (List.prefix_or_prefix_of_prefix h.front_prefix h'.front_prefix).resolve_right ?_
  rintro ⟨more, hf⟩
  have hs := @scan_append front' more fun hm =>
    h'.mark_prefix ((hf ▸ hm).trans h.front_prefix)
  have hl := congrArg (fun scan => scan.1.length) hs
  rw [hf, List.length_append, h.index_eq, h'.index_eq] at hl
  omega

end Place

-- Records are counted from the first one, whatever is in them.
theorem record_eq_of_getElem? {bytes : Bytes} {index : Nat} {record : Record}
    (h : (records bytes)[index]? = some record) : record.position.record = index := by
  have ⟨_, _, _, hp, he⟩ := exists_place h
  rw [he, hp.start_record]

end TagRegistry.Table
