import TagRegistry.Table.Scanner

namespace TagRegistry.Table

namespace Position

-- The position after `bytes`, if no record ends in them.
def after (position : Position) (bytes : Bytes) : Position where
  line := position.line + bytes.count lineFeed
  byte := position.byte + bytes.length
  record := position.record

@[simp]
theorem after_nil (position : Position) : position.after [] = position :=
  rfl

theorem after_cons (position : Position) (byte : UInt8) (bytes : Bytes) :
    position.after (byte :: bytes) = (position.past byte).after bytes := by
  by_cases h : byte = lineFeed <;> simp [after, past, h] <;> omega

theorem after_append (position : Position) (bytes₁ bytes₂ : Bytes) :
    position.after (bytes₁ ++ bytes₂) = (position.after bytes₁).after bytes₂ := by
  simp [after, Nat.add_assoc]

theorem after_singleton (position : Position) (byte : UInt8) :
    position.after [byte] = position.past byte := by
  simp [after_cons]

end Position

namespace Mode

-- Where a mode goes on to by a byte that means nothing to the scanner.
def inField : Mode → Mode
  | .quoted => .quoted
  | .outside | .opening | .plain | .closing => .plain

def isStructural (byte : UInt8) : Bool :=
  byte == comma || byte == quote || endsLine byte

theorem read_of_not_structural {byte : UInt8} (h : isStructural byte = false) (mode : Mode) :
    mode.read byte = (mode.inField, .keep) := by
  simp only [isStructural, Bool.or_eq_false_iff] at h
  obtain ⟨⟨hc, hq⟩, hl⟩ := h
  cases mode <;> simp [read, read.atStart, read.unquoted, inField, hc, hq, hl]

theorem read_lineFeed (mode : Mode) :
    mode.read Position.lineFeed =
      match mode with
      | .outside => (.outside, .skip)
      | .quoted => (.quoted, .keep)
      | .opening | .plain | .closing => (.outside, .endRecord) := by
  cases mode <;> rfl

theorem inField_inField (mode : Mode) : mode.inField.inField = mode.inField := by
  cases mode <;> rfl

theorem not_structural_of_le {byte : UInt8} (h : 0x80 ≤ byte) : isStructural byte = false := by
  rw [UInt8.le_iff_toNat_le] at h
  have hne : ∀ ascii : UInt8, ascii.toNat < 0x80 → (byte == ascii) = false := by
    intro ascii ha
    rw [beq_eq_false_iff_ne]
    intro he
    subst he
    exact absurd ha (Nat.not_lt.mpr h)
  simp [isStructural, endsLine, comma, quote, hne]

end Mode

namespace Scanner

theorem run_cons (s : Scanner) (byte : UInt8) (bytes : Bytes) :
    s.run (byte :: bytes) =
      ((s.step byte).1.toList ++ ((s.step byte).2.run bytes).1, ((s.step byte).2.run bytes).2) := by
  rw [run]
  split
  case h_1 hs => simp [hs]
  case h_2 hs => simp [hs]

-- A record leaves the scanner with nothing in hand.
theorem step_of_isSome {s : Scanner} {byte : UInt8} (h : (s.step byte).1.isSome) :
    s.step byte =
      (some s.record, between (s.here.past byte).pastRecord (s.here.past byte).pastRecord) := by
  rw [step] at h ⊢
  split at h
  case h_4 => rfl
  all_goals cases h

theorem here_step (s : Scanner) (byte : UInt8) :
    (s.step byte).2.here =
      { s.here.past byte with record := s.here.record + (s.step byte).1.toList.length } := by
  rw [step]
  split <;> simp [Position.past, Position.pastRecord, between]

-- A run counts every byte once, and every record that ends in it.
theorem here_run (s : Scanner) (bytes : Bytes) :
    (s.run bytes).2.here =
      { s.here.after bytes with record := s.here.record + (s.run bytes).1.length } := by
  induction bytes generalizing s with
  | nil => rfl
  | cons byte bytes hi =>
    simp only [run_cons, hi, here_step, Position.after_cons, List.length_append]
    simp [Position.after, Nat.add_assoc]

theorem run_singleton (s : Scanner) (byte : UInt8) :
    s.run [byte] = ((s.step byte).1.toList, (s.step byte).2) := by
  rw [run_cons]
  simp [run]

-- The records that the scanner finds, with the one that the end of the table ends.
def found (s : Scanner) (bytes : Bytes) : List Record :=
  (s.run bytes).1 ++ (s.run bytes).2.pending?.toList

theorem found_append (s : Scanner) (bytes₁ bytes₂ : Bytes) :
    s.found (bytes₁ ++ bytes₂) = (s.run bytes₁).1 ++ (s.run bytes₁).2.found bytes₂ := by
  simp [found, run_append]

-- The scanner after bytes that all belong to its field.
def keep (s : Scanner) (bytes : Bytes) : Scanner :=
  { s with here := s.here.after bytes, field := bytes.reverse ++ s.field }

theorem step_of_keep {s : Scanner} {byte : UInt8} {mode : Mode}
    (h : s.mode.read byte = (mode, .keep)) :
    s.step byte = (none, { s.keep [byte] with mode }) := by
  simp [step, h, keep, Position.after_singleton]

theorem run_of_keep {s : Scanner} {bytes : Bytes}
    (h : ∀ byte ∈ bytes, s.mode.read byte = (s.mode, .keep)) :
    s.run bytes = ([], s.keep bytes) := by
  induction bytes generalizing s with
  | nil => rfl
  | cons byte bytes hi =>
    have hs : s.step byte = (none, s.keep [byte]) := step_of_keep (h byte List.mem_cons_self)
    have hr := @hi (s.keep [byte]) fun b hb => h b (List.mem_cons_of_mem _ hb)
    rw [run_cons, hs, hr]
    simp [keep, Position.after_cons]

-- The first of the bytes may change the mode, and the others keep it.
theorem run_of_not_structural {s : Scanner} {bytes : Bytes} (hne : bytes ≠ [])
    (h : ∀ byte ∈ bytes, Mode.isStructural byte = false) :
    s.run bytes = ([], { s.keep bytes with mode := s.mode.inField }) := by
  cases bytes with
  | nil => contradiction
  | cons byte bytes =>
    have hs := step_of_keep (Mode.read_of_not_structural (h byte List.mem_cons_self) s.mode)
    have hk : ∀ b ∈ bytes, s.mode.inField.read b = (s.mode.inField, .keep) := by
      intro b hb
      rw [Mode.read_of_not_structural (h b (List.mem_cons_of_mem _ hb)), Mode.inField_inField]
    rw [run_cons, hs, run_of_keep hk]
    simp [keep, Position.after_cons]

-- Line ends before a record are passed over, and only the place moves.
theorem run_of_endsLine {start here : Position} {bytes : Bytes}
    (h : ∀ byte ∈ bytes, Mode.endsLine byte) :
    (between start here).run bytes = ([], between start (here.after bytes)) := by
  induction bytes generalizing here with
  | nil => rfl
  | cons byte bytes hi =>
    have hb := h byte List.mem_cons_self
    have hs : (between start here).step byte = (none, between start (here.past byte)) := by
      simp [step, between, Mode.read, hb]
    rw [run_cons, hs, hi fun b hb => h b (List.mem_cons_of_mem _ hb), Position.after_cons]
    rfl

end Scanner
end TagRegistry.Table
