import TagRegistry.Tree.View
import TagRegistry.Proofs.FirstFailure
import TagRegistry.Proofs.Text.Utf8

namespace TagRegistry

theorem View.readText_eq_ok_iff {view : View} {path text : String} :
    view.readText path = .ok text ↔ view.read path = .ok (Text.utf8 text) := by
  rw [readText, bind_eq_ok_iff]
  constructor
  case mp =>
    intro ⟨bytes, hr, ht⟩
    split at ht
    case h_1 hb =>
      cases ht
      rw [hr, Text.ofUtf8?_eq_some_iff.mp hb]
    case h_2 => cases ht
  case mpr =>
    intro hr
    exact ⟨_, hr, by rw [Text.ofUtf8?_utf8]⟩

namespace Tree

variable {tree tree' tree'' : Tree} {here there location location' : Location} {path : String}

theorem set_set_self (tree : Tree) (location : Location) (entry entry' : Entry) :
    (tree.set location entry).set location entry' = tree.set location entry' := by
  suffices ∀ entries, set.go location entry' (set.go location entry entries) =
      set.go location entry' entries by
    simp only [set, this]
  intro entries
  induction entries with
  | nil => simp [set.go]
  | cons old entries hi => by_cases ho : old.1 = location <;> simp [set.go, ho, hi]

-- What is there already keeps its place among the entries, so it can be put in before or after.
theorem set_comm_of_ne {entry entry' : Entry} (hn : location' ≠ [])
    (hs : tree.get? location' ≠ none) (hne : location ≠ location') :
    (tree.set location entry).set location' entry' =
      (tree.set location' entry').set location entry := by
  suffices ∀ entries, entries.lookup location' ≠ none →
      set.go location' entry' (set.go location entry entries) =
        set.go location entry (set.go location' entry' entries) by
    simp only [set]
    rw [this]
    simpa [get?, hn] using hs
  intro entries h
  induction entries with
  | nil => simp at h
  | cons old entries hi =>
    obtain ⟨location'', entry''⟩ := old
    by_cases ho : location'' = location
    case pos =>
      subst ho
      simp [set.go, hne]
    case neg =>
      by_cases ho' : location'' = location'
      case pos =>
        subst ho'
        simp [set.go, hne.symm]
      case neg =>
        have hb := beq_eq_false_iff_ne.mpr (Ne.symm ho')
        rw [List.lookup_cons, hb] at h
        simp [set.go, ho, ho', hi h]

theorem enter_eq_ok_iff {step : Step} : tree.enter here step = .ok there ↔
    tree.get? here = some .directory ∧
      match step with
      | .stay => here = there
      | .up => here.dropLast = there
      | .down name => isLong name = false ∧ tree.get? (here ++ [name]) ≠ none ∧
          here ++ [name] = there := by
  rw [enter.eq_def]
  split
  case h_1 hd =>
    cases step with
    | stay | up => simp [hd]
    | down name =>
      by_cases hl : isLong name <;> by_cases hn : tree.get? (here ++ [name]) = none <;>
        simp [hd, hl, hn]
  case h_2 hd =>
    have hd : tree.get? here ≠ some .directory := hd
    simp [hd]

-- Where a path leads that a file is to be read by.
def locate (tree : Tree) (path : String) : Except Error Location := do
  let path ← Path.check path
  if path.slash then .error .notDirectory else tree.walk path.steps

theorem locate_eq_ok_iff : tree.locate path = .ok location ↔
    ∃ checked, Path.check path = .ok checked ∧ checked.slash = false ∧
      tree.walk checked.steps = .ok location := by
  rw [locate, bind_eq_ok_iff]
  apply exists_congr
  intro checked
  cases checked.slash <;> simp

theorem read_eq_ok_iff {bytes : Bytes} : tree.read path = .ok bytes ↔
    ∃ location, tree.locate path = .ok location ∧ tree.get? location = some (.file bytes) := by
  simp only [read, bind_eq_ok_iff, locate_eq_ok_iff]
  constructor
  case mp =>
    rintro ⟨checked, hc, location, hw, hg⟩
    split at hg
    case h_1 hf =>
      split at hg
      case isTrue => cases hg
      case isFalse hs =>
        cases hg
        exact ⟨location, ⟨checked, hc, by simpa using hs, hw⟩, hf⟩
    all_goals cases hg
  case mpr =>
    rintro ⟨location, ⟨checked, hc, hs, hw⟩, hf⟩
    exact ⟨checked, hc, location, hw, by simp [hf, hs]⟩

theorem isDirectory_iff : tree.isDirectory path ↔
    ∃ checked, Path.check path = .ok checked ∧ ∃ location,
      tree.walk checked.steps = .ok location ∧ tree.get? location = some .directory := by
  have h : (∃ location, (do tree.walk (← Path.check path).steps) = .ok location ∧
      tree.get? location = some .directory) ↔ tree.isDirectory path := by
    rw [isDirectory]
    split
    case h_1 hw => simp [hw]
    case h_2 hw => simp [hw]
  simp only [← h, bind_eq_ok_iff]
  constructor
  case mp =>
    intro ⟨location, ⟨checked, hc, hw⟩, hd⟩
    exact ⟨checked, hc, location, hw, hd⟩
  case mpr =>
    intro ⟨checked, hc, location, hw, hd⟩
    exact ⟨location, ⟨checked, hc, hw⟩, hd⟩

-- A path to write to ends in a name, which is that of no directory.
theorem target_eq_ok_iff : tree.target path = .ok location ↔
    ∃ checked, Path.check path = .ok checked ∧ ∃ here,
      tree.walk checked.steps.dropLast = .ok here ∧ tree.get? here = some .directory ∧
        ∃ name, checked.steps.getLast? = some (.down name) ∧ checked.slash = false ∧
          isLong name = false ∧ tree.get? (here ++ [name]) ≠ some .directory ∧
          here ++ [name] = location := by
  rw [target, bind_eq_ok_iff]
  apply exists_congr
  intro checked
  apply and_congr_right
  intro _
  rw [bind_eq_ok_iff]
  apply exists_congr
  intro here
  apply and_congr_right
  intro _
  split
  case h_1 name hd hl =>
    cases checked.slash <;> by_cases hn : isLong name <;>
      by_cases ht : tree.get? (here ++ [name]) = some .directory <;> simp [hd, hl, hn, ht]
  case h_2 hd hl =>
    simp only [reduceCtorEq, false_iff]
    rintro ⟨_, name, hn, _⟩
    exact hl name hn
  case h_3 hd _ =>
    simp only [reduceCtorEq, false_iff]
    rintro ⟨h, _⟩
    exact hd h

theorem write_eq_ok_iff {bytes : Bytes} : tree.write path bytes = .ok tree' ↔
    ∃ location, tree.target path = .ok location ∧ tree.set location (.file bytes) = tree' := by
  simp [write, bind_eq_ok_iff, pure, Except.pure]

theorem write_eq_error_iff {bytes : Bytes} {cause : Error} :
    tree.write path bytes = .error cause ↔ tree.target path = .error cause := by
  simp [write, bind_eq_error_iff, pure, Except.pure]

theorem ne_nil_of_target (h : tree.target path = .ok location) : location ≠ [] := by
  have ⟨_, _, _, _, _, _, _, _, _, _, hl⟩ := target_eq_ok_iff.mp h
  simp [← hl]

theorem ne_directory_of_target (h : tree.target path = .ok location) :
    tree.get? location ≠ some .directory := by
  have ⟨_, _, _, _, _, _, _, _, _, hn, hl⟩ := target_eq_ok_iff.mp h
  rwa [← hl]

-- Trees with their directories in the same places. Their files may differ.
def SameDirectories (tree tree' : Tree) : Prop :=
  ∀ location, tree.get? location = some .directory ↔ tree'.get? location = some .directory

namespace SameDirectories

theorem refl (tree : Tree) : SameDirectories tree tree :=
  fun _ => .rfl

theorem symm (h : SameDirectories tree tree') : SameDirectories tree' tree :=
  fun location => (h location).symm

theorem trans (h₁ : SameDirectories tree tree') (h₂ : SameDirectories tree' tree'') :
    SameDirectories tree tree'' :=
  fun location => (h₁ location).trans (h₂ location)

theorem of_set (hn : location ≠ []) (hd : tree.get? location ≠ some .directory) (bytes : Bytes) :
    SameDirectories tree (tree.set location (.file bytes)) := by
  intro location'
  by_cases hl : location' = location
  case pos =>
    subst hl
    simp [hd, get?_set_self _ _ hn]
  case neg => rw [get?_set_of_ne _ _ hl]

theorem ne_none (h : SameDirectories tree tree') (hd : tree.get? location = some .directory) :
    tree'.get? location ≠ none := by
  simp [(h location).mp hd]

theorem enter (h : SameDirectories tree tree') {step : Step} (he : tree.enter here step = .ok there)
    (hn : tree'.get? there ≠ none) : tree'.enter here step = .ok there := by
  have ⟨hd, hs⟩ := enter_eq_ok_iff.mp he
  refine enter_eq_ok_iff.mpr ⟨(h here).mp hd, ?_⟩
  cases step with
  | stay | up => exact hs
  | down name =>
    obtain ⟨hl, _, rfl⟩ := hs
    exact ⟨hl, hn, rfl⟩

-- Who gets on from a place is in a directory, so only the place where the way ends may be missing.
theorem steps (h : SameDirectories tree tree') {steps : List Step}
    (hw : steps.foldlM tree.enter here = .ok there) (hn : tree'.get? there ≠ none) :
    steps.foldlM tree'.enter here = .ok there := by
  induction steps generalizing here with
  | nil => exact hw
  | cons step steps hi =>
    rw [List.foldlM_cons, bind_eq_ok_iff] at hw ⊢
    have ⟨next, he, hw⟩ := hw
    refine ⟨next, h.enter he ?_, hi hw⟩
    cases steps with
    | nil =>
      cases hw
      exact hn
    | cons step steps =>
      rw [List.foldlM_cons, bind_eq_ok_iff] at hw
      have ⟨_, he, _⟩ := hw
      exact h.ne_none (enter_eq_ok_iff.mp he).left

theorem target (h : SameDirectories tree tree') (ht : tree.target path = .ok location) :
    tree'.target path = .ok location := by
  have ⟨checked, hc, here, hw, hd, name, hl, hs, hn, ht, he⟩ := target_eq_ok_iff.mp ht
  exact target_eq_ok_iff.mpr ⟨checked, hc, here, h.steps hw (h.ne_none hd), (h here).mp hd, name,
    hl, hs, hn, mt (h _).mpr ht, he⟩

theorem target_iff (h : SameDirectories tree tree') :
    tree.target path = .ok location ↔ tree'.target path = .ok location where
  mp := h.target
  mpr := h.symm.target

theorem isDirectory (h : SameDirectories tree tree') (hd : tree.isDirectory path) :
    tree'.isDirectory path := by
  have ⟨checked, hc, location, hw, hg⟩ := isDirectory_iff.mp hd
  exact isDirectory_iff.mpr ⟨checked, hc, location, h.steps hw (h.ne_none hg), (h location).mp hg⟩

-- What is read by a path is the file that it leads to and nothing else.
theorem read (h : SameDirectories tree tree') {bytes : Bytes} (hr : tree.read path = .ok bytes)
    (hk : ∀ location, tree.locate path = .ok location → tree'.get? location = tree.get? location) :
    tree'.read path = .ok bytes := by
  have ⟨location, hl, hf⟩ := read_eq_ok_iff.mp hr
  have hf' : tree'.get? location = some (.file bytes) := by rw [hk location hl, hf]
  have ⟨checked, hc, hs, hw⟩ := locate_eq_ok_iff.mp hl
  have hl' := locate_eq_ok_iff.mpr ⟨checked, hc, hs, h.steps hw (by simp [hf'])⟩
  exact read_eq_ok_iff.mpr ⟨location, hl', hf'⟩

end SameDirectories
end Tree
end TagRegistry
