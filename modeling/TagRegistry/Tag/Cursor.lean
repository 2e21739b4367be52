import TagRegistry.Tag.Form

namespace TagRegistry

-- The numbers of a family that are still to come: the bytes from `first` to `last`, both included.
-- No byte comes after 255, so it takes `finished` to tell that `last` is not to come either.
structure Numbers where
  first : UInt8
  last : UInt8
  finished : Bool
  deriving DecidableEq, Repr

namespace Numbers

def between (first last : Nat) : Numbers where
  first := UInt8.ofNat first
  last := UInt8.ofNat last
  finished := false

def isEmpty (numbers : Numbers) : Bool :=
  numbers.finished || numbers.last < numbers.first

def toList (numbers : Numbers) : List Nat :=
  if numbers.isEmpty then []
  else List.range' numbers.first.toNat (numbers.last.toNat + 1 - numbers.first.toNat)

def next (numbers : Numbers) : Option UInt8 × Numbers :=
  if numbers.isEmpty then (none, numbers)
  else if numbers.first < numbers.last then
    (some numbers.first, { numbers with first := numbers.first + 1 })
  else
    (some numbers.first, { numbers with finished := true })

-- How many numbers come at least, and at most if that is known.
def sizeHint (numbers : Numbers) : Nat × Option Nat :=
  if numbers.isEmpty then (0, some 0)
  else
    let size := (numbers.last - numbers.first).toNat + 1
    (size, some size)

theorem next_of_isEmpty {numbers : Numbers} (h : numbers.isEmpty) :
    numbers.next = (none, numbers) := by
  rw [next, if_pos h]

theorem toList_of_isEmpty {numbers : Numbers} (h : numbers.isEmpty) : numbers.toList = [] := by
  rw [toList, if_pos h]

-- The last number is not passed by counting on, which would start again at 0.
theorem next_of_not_isEmpty {numbers : Numbers} (h : numbers.isEmpty = false) :
    ∃ rest, numbers.next = (some numbers.first, rest) ∧
      numbers.toList = numbers.first.toNat :: rest.toList := by
  obtain ⟨first, last, finished⟩ := numbers
  have hn := h
  simp only [isEmpty, Bool.or_eq_false_iff, decide_eq_false_iff_not, UInt8.not_lt] at hn
  obtain ⟨rfl, hle⟩ := hn
  have hle := UInt8.le_iff_toNat_le.mp hle
  rw [next, toList, h]
  by_cases hlt : first < last
  case pos =>
    have hlt' := UInt8.lt_iff_toNat_lt.mp hlt
    have hf : (first + 1).toNat = first.toNat + 1 := by
      have := last.toNat_lt
      rw [UInt8.toNat_add, UInt8.toNat_one, Nat.mod_eq_of_lt (by omega)]
    have hr : (⟨first + 1, last, false⟩ : Numbers).isEmpty = false := by
      simp only [isEmpty, Bool.false_or, decide_eq_false_iff_not, UInt8.lt_iff_toNat_lt]
      omega
    have hs : last.toNat + 1 - first.toNat = last.toNat + 1 - (first.toNat + 1) + 1 := by omega
    refine ⟨⟨first + 1, last, false⟩, by simp [hlt], ?_⟩
    rw [toList, hr, hs, hf]
    rfl
  case neg =>
    have hs : last.toNat + 1 - first.toNat = 1 := by
      have := mt UInt8.lt_iff_toNat_lt.mpr hlt
      omega
    refine ⟨⟨first, last, true⟩, by simp [hlt], ?_⟩
    rw [hs]
    rfl

theorem sizeHint_eq (numbers : Numbers) :
    numbers.sizeHint = (numbers.toList.length, some numbers.toList.length) := by
  rw [sizeHint, toList]
  split
  case isTrue => rfl
  case isFalse h =>
    have hle : numbers.first ≤ numbers.last := by
      simpa [isEmpty] using (Bool.or_eq_false_iff.mp (Bool.eq_false_iff.mpr h)).right
    have hs : (numbers.last - numbers.first).toNat + 1 =
        numbers.last.toNat + 1 - numbers.first.toNat := by
      have := UInt8.le_iff_toNat_le.mp hle
      rw [UInt8.toNat_sub_of_le _ _ hle]
      omega
    simp only [hs, List.length_range']

theorem toList_between {first last : Nat} (hf : first ≤ 255) (hl : last ≤ 255) :
    (between first last).toList = List.range' first (last + 1 - first) := by
  have hf : (UInt8.ofNat first).toNat = first := UInt8.toNat_ofNat_of_lt' (Nat.lt_succ_of_le hf)
  have hl : (UInt8.ofNat last).toNat = last := UInt8.toNat_ofNat_of_lt' (Nat.lt_succ_of_le hl)
  rw [toList]
  split
  case isTrue h =>
    have : last < first := by simpa [isEmpty, between, UInt8.lt_iff_toNat_lt, hf, hl] using h
    rw [Nat.sub_eq_zero_of_le this]
    rfl
  case isFalse => rw [between, hf, hl]

end Numbers

inductive Cursor where
  | literal (tag : Option String)
  | family (stem : String) (numbers : Numbers)
  deriving DecidableEq, Repr

namespace Cursor

def empty : Cursor :=
  .literal none

def toList : Cursor → List Tag
  | .literal tag => (tag.map Tag.mk).toList
  | .family stem numbers => numbers.toList.map (Form.member stem)

-- How many tags are still to come.
def size (cursor : Cursor) : Nat :=
  cursor.toList.length

def sizeHint : Cursor → Nat × Option Nat
  | .literal tag => (tag.toList.length, some tag.toList.length)
  | .family _ numbers => numbers.sizeHint

def next : Cursor → Option Tag × Cursor
  | .literal tag => (tag.map Tag.mk, empty)
  | .family stem numbers =>
    let (n, numbers) := numbers.next
    (n.map fun n => Form.member stem n.toNat, .family stem numbers)

-- A cursor gives its tags one by one, and at its end it stays where it is.
theorem next_cases (cursor : Cursor) :
    (cursor.next = (none, cursor) ∧ cursor.toList = []) ∨
    ∃ tag rest, cursor.next = (some tag, rest) ∧ cursor.toList = tag :: rest.toList := by
  cases cursor with
  | literal tag =>
    cases tag with
    | none => exact .inl ⟨rfl, rfl⟩
    | some tag => exact .inr ⟨⟨tag⟩, empty, rfl, rfl⟩
  | family stem numbers =>
    cases h : numbers.isEmpty with
    | true =>
      refine .inl ⟨?_, ?_⟩
      · rw [next, Numbers.next_of_isEmpty h]
        rfl
      · rw [toList, Numbers.toList_of_isEmpty h]
        rfl
    | false =>
      obtain ⟨rest, hn, hl⟩ := Numbers.next_of_not_isEmpty h
      refine .inr ⟨Form.member stem numbers.first.toNat, .family stem rest, ?_, ?_⟩
      · rw [next, hn]
        rfl
      · rw [toList, hl]
        rfl

theorem size_lt_of_next {cursor rest : Cursor} {tag : Tag} (h : cursor.next = (some tag, rest)) :
    rest.size < cursor.size := by
  rcases cursor.next_cases with ⟨hn, _⟩ | ⟨_, _, hn, hl⟩
  · rw [hn] at h
    cases h
  · rw [hn] at h
    cases h
    rw [size, size, hl]
    exact Nat.lt_succ_self _

theorem sizeHint_eq (cursor : Cursor) : cursor.sizeHint = (cursor.size, some cursor.size) := by
  cases cursor with
  | literal tag => cases tag <;> rfl
  | family stem numbers => rw [sizeHint, Numbers.sizeHint_eq, size, toList, List.length_map]

-- Passes over `count` tags and takes the one after them, if the end does not come before.
def nth : Nat → Cursor → Option Tag × Cursor
  | 0, cursor => cursor.next
  | count + 1, cursor =>
    match cursor.next with
    | (none, cursor) => (none, cursor)
    | (some _, cursor) => nth count cursor

-- Takes all tags still to come.
def rest (cursor : Cursor) : List Tag × Cursor :=
  match _h : cursor.next with
  | (none, cursor) => ([], cursor)
  | (some tag, cursor) =>
    let (tags, last) := rest cursor
    (tag :: tags, last)
termination_by cursor.size
decreasing_by exact size_lt_of_next _h

-- A cursor in use, beside one that was put aside earlier.
structure Walk where
  current : Cursor
  saved : Cursor
  deriving DecidableEq, Repr

def walk (cursor : Cursor) : Walk :=
  ⟨cursor, cursor⟩

inductive Step where
  | next
  | nth (count : Nat)
  | rest
  | save
  | restore
  deriving DecidableEq, Repr

inductive Answer where
  | done
  | tag (found : Option Tag)
  | tags (found : List Tag)
  deriving DecidableEq, Repr

def Step.run (walk : Walk) : Step → Answer × Walk
  | .next => let (tag, current) := walk.current.next; (.tag tag, { walk with current })
  | .nth count => let (tag, current) := walk.current.nth count; (.tag tag, { walk with current })
  | .rest => let (tags, current) := walk.current.rest; (.tags tags, { walk with current })
  | .save => (.done, { walk with saved := walk.current })
  | .restore => (.done, { walk with current := walk.saved })

end Cursor

def Form.cursor : Form → Cursor
  | .literal tag => .literal (some tag)
  | .family stem first last => .family stem (.between first last)

-- The bounds of a family are bytes.
def Form.HasByteBounds : Form → Prop
  | .literal _ => True
  | .family _ first last => first ≤ 255 ∧ last ≤ 255

theorem Form.toList_cursor {form : Form} (h : form.HasByteBounds) :
    form.cursor.toList = form.tags := by
  cases form with
  | literal tag => rfl
  | family stem first last =>
    rw [cursor, Cursor.toList, Numbers.toList_between h.left h.right]
    rfl

end TagRegistry
