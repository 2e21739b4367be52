import Mathlib.Data.List.Nodup
import Mathlib.Logic.Function.Iterate
import TagRegistry.Row
import TagRegistry.Proofs.Tag.Form

namespace TagRegistry

-- The digits give the number back, as zeros in front of it do not count.
theorem Text.twoDigits_injective : Function.Injective twoDigits := by
  have hv : ∀ n, Nat.ofDigitChars 10 (twoDigits n).toList 0 = n := by
    intro n
    rw [twoDigits]
    split <;> simp [Nat.ofDigitChars_cons]
  intro n m h
  rw [← hv n, h, hv m]

namespace Form

theorem member_injective (stem : String) : Function.Injective (member stem) := by
  intro n m h
  have h : stem ++ Text.twoDigits n = stem ++ Text.twoDigits m := congrArg Tag.text h
  have h : (Text.twoDigits n).toList = (Text.twoDigits m).toList := by
    simpa using congrArg String.toList h
  exact Text.twoDigits_injective (String.toList_inj.mp h)

theorem nodup_tags (form : Form) : form.tags.Nodup := by
  cases form with
  | literal tag => exact List.nodup_singleton _
  | family stem first last => exact (List.nodup_range' 1).map (member_injective stem)

theorem getLast?_tags {stem : String} {first last : Nat} (h : first ≤ last) :
    (family stem first last).tags.getLast? = some (member stem last) := by
  have hs : last + 1 - first = last - first + 1 := by omega
  rw [tags, hs, List.range'_concat, List.map_append, List.map_singleton, List.getLast?_concat]
  congr
  omega

theorem hasByteBounds_ofField (field : String) : (ofField field).HasByteBounds := by
  cases hf : ofField field with
  | literal tag => trivial
  | family stem first last =>
    have hs := ofField_eq_family_iff.mp hf
    exact ⟨Nat.le_trans hs.first_le (by decide), Nat.le_trans hs.last_le (by decide)⟩

end Form

namespace Cursor

theorem next_fst (cursor : Cursor) : cursor.next.1 = cursor.toList.head? := by
  rcases cursor.next_cases with ⟨hn, hl⟩ | ⟨_, _, hn, hl⟩ <;> rw [hn, hl] <;> rfl

theorem toList_next (cursor : Cursor) : cursor.next.2.toList = cursor.toList.tail := by
  rcases cursor.next_cases with ⟨hn, hl⟩ | ⟨_, _, hn, hl⟩ <;> simp [hn, hl]

-- Takes a tag and does not look at it.
def discard (cursor : Cursor) : Cursor :=
  cursor.next.2

theorem toList_discard (count : Nat) (cursor : Cursor) :
    (discard^[count] cursor).toList = cursor.toList.drop count := by
  induction count generalizing cursor with
  | zero => rfl
  | succ count hi => rw [Function.iterate_succ_apply, hi, discard, toList_next, List.drop_tail]

-- At the end a cursor stays where it is, so it makes no difference to stop there.
theorem nth_eq_next (count : Nat) (cursor : Cursor) :
    cursor.nth count = (discard^[count] cursor).next := by
  induction count generalizing cursor with
  | zero => rfl
  | succ count hi =>
    rw [nth, Function.iterate_succ_apply, discard]
    rcases cursor.next_cases with ⟨hn, _⟩ | ⟨_, rest, hn, _⟩
    · have hd : cursor.discard = cursor := by rw [discard, hn]
      rw [hn, Function.iterate_fixed hd, hn]
    · rw [hn]
      exact hi rest

theorem nth_fst (count : Nat) (cursor : Cursor) : (cursor.nth count).1 = cursor.toList[count]? := by
  rw [nth_eq_next, next_fst, toList_discard, List.head?_drop]

theorem toList_nth (count : Nat) (cursor : Cursor) :
    (cursor.nth count).2.toList = cursor.toList.drop (count + 1) := by
  rw [nth_eq_next, toList_next, toList_discard, List.tail_drop]

theorem rest_spec (cursor : Cursor) :
    cursor.rest.1 = cursor.toList ∧ cursor.rest.2.toList = [] := by
  fun_induction rest cursor with
  | case1 cursor last hn =>
    rcases cursor.next_cases with ⟨hn', hl⟩ | ⟨_, _, hn', _⟩ <;> rw [hn] at hn' <;> cases hn'
    exact ⟨hl.symm, hl⟩
  | case2 cursor tag rest hn tags last hr hi =>
    rcases cursor.next_cases with ⟨hn', _⟩ | ⟨_, _, hn', hl⟩ <;> rw [hn] at hn' <;> cases hn'
    rw [hr] at hi
    exact ⟨by rw [hl, ← hi.left], hi.right⟩

-- Two places in a list of tags, as numbers of the tags before them.
structure Places where
  current : Nat
  saved : Nat

namespace Places

def start : Places :=
  ⟨0, 0⟩

def sizeHint (tags : List Tag) (places : Places) : Nat × Option Nat :=
  (tags.length - places.current, some (tags.length - places.current))

end Places

-- What a step does where all the tags are at hand.
def Step.runAt (tags : List Tag) (places : Places) : Step → Answer × Places
  | .next => (.tag tags[places.current]?, { places with current := places.current + 1 })
  | .nth count =>
    (.tag tags[places.current + count]?, { places with current := places.current + count + 1 })
  | .rest => (.tags (tags.drop places.current), { places with current := tags.length })
  | .save => (.done, { places with saved := places.current })
  | .restore => (.done, { places with current := places.saved })

-- The answers to `steps`, each with what is then said of the size.
def Places.answers (tags : List Tag) (places : Places) :
    List Step → List (Answer × Nat × Option Nat)
  | [] => []
  | step :: steps =>
    let (answer, places) := step.runAt tags places
    (answer, places.sizeHint tags) :: places.answers tags steps

namespace Walk

def answers (walk : Walk) : List Step → List (Answer × Nat × Option Nat)
  | [] => []
  | step :: steps =>
    let (answer, walk) := step.run walk
    (answer, walk.current.sizeHint) :: walk.answers steps

def runAll (walk : Walk) (steps : List Step) : Walk :=
  steps.foldl (fun walk step => (step.run walk).2) walk

-- The cursors of the walk hold the tags that come after the places.
structure StandsAt (walk : Walk) (tags : List Tag) (places : Places) : Prop where
  current : walk.current.toList = tags.drop places.current
  saved   : walk.saved.toList = tags.drop places.saved

variable {walk : Walk} {tags : List Tag} {places : Places}

theorem StandsAt.sizeHint_eq (h : walk.StandsAt tags places) :
    walk.current.sizeHint = places.sizeHint tags := by
  rw [Cursor.sizeHint_eq, size, h.current, List.length_drop, Places.sizeHint]

theorem StandsAt.step (h : walk.StandsAt tags places) (step : Step) :
    (step.run walk).1 = (step.runAt tags places).1 ∧
    (step.run walk).2.StandsAt tags (step.runAt tags places).2 := by
  cases step with
  | next =>
    have ha : walk.current.next.1 = tags[places.current]? := by
      rw [next_fst, h.current, List.head?_drop]
    have hc : walk.current.next.2.toList = tags.drop (places.current + 1) := by
      rw [toList_next, h.current, List.tail_drop]
    exact ⟨congrArg Answer.tag ha, hc, h.saved⟩
  | nth count =>
    have ha : (walk.current.nth count).1 = tags[places.current + count]? := by
      rw [nth_fst, h.current, List.getElem?_drop]
    have hc : (walk.current.nth count).2.toList = tags.drop (places.current + count + 1) := by
      rw [toList_nth, h.current, List.drop_drop, Nat.add_assoc]
    exact ⟨congrArg Answer.tag ha, hc, h.saved⟩
  | rest =>
    have ⟨ha, hc⟩ := walk.current.rest_spec
    exact ⟨congrArg Answer.tags (ha.trans h.current), hc.trans List.drop_length.symm, h.saved⟩
  | save    => exact ⟨rfl, h.current, h.current⟩
  | restore => exact ⟨rfl, h.saved, h.saved⟩

theorem StandsAt.answers_eq (h : walk.StandsAt tags places) (steps : List Step) :
    walk.answers steps = places.answers tags steps := by
  induction steps generalizing walk places with
  | nil => rfl
  | cons step steps hi =>
    have ⟨ha, hs⟩ := h.step step
    rw [answers, Places.answers]
    simp only [ha, hs.sizeHint_eq, hi hs]

theorem saved_runAll {steps : List Step} (h : .save ∉ steps) (walk : Walk) :
    (walk.runAll steps).saved = walk.saved := by
  induction steps generalizing walk with
  | nil => rfl
  | cons step steps hi =>
    have ⟨hne, hs⟩ : Step.save ≠ step ∧ .save ∉ steps := by simpa using h
    have hk : (step.run walk).2.saved = walk.saved := by
      cases step with
      | save => exact absurd rfl hne
      | _    => rfl
    exact (hi hs _).trans hk

end Walk

-- An answer without a tag.
def Answer.IsBare : Answer → Prop
  | .done => True
  | .tag found => found = none
  | .tags found => found = []

theorem Step.bare_of_ended {walk : Walk} {step : Step} (h : walk.current.toList = [])
    (hs : step ≠ .restore) :
    (step.run walk).1.IsBare ∧ (step.run walk).2.current.toList = [] := by
  cases step with
  | next =>
    exact ⟨by rw [run, Answer.IsBare, next_fst, h]; rfl, (toList_next _).trans (by rw [h]; rfl)⟩
  | nth count =>
    exact ⟨(nth_fst ..).trans (by rw [h]; rfl), (toList_nth ..).trans (by rw [h]; rfl)⟩
  | rest =>
    have ⟨ha, hc⟩ := walk.current.rest_spec
    exact ⟨ha.trans h, hc⟩
  | save    => exact ⟨trivial, h⟩
  | restore => exact absurd rfl hs

theorem Walk.bare_of_ended {walk : Walk} {steps : List Step} (h : walk.current.toList = [])
    (hs : .restore ∉ steps) :
    ∀ given ∈ walk.answers steps, given.1.IsBare ∧ given.2 = (0, some 0) := by
  induction steps generalizing walk with
  | nil => simp [answers]
  | cons step steps hi =>
    have ⟨hne, hs⟩ : Step.restore ≠ step ∧ .restore ∉ steps := by simpa using hs
    have ⟨hb, hc⟩ := step.bare_of_ended h hne.symm
    have hz : (step.run walk).2.current.sizeHint = (0, some 0) := by
      rw [Cursor.sizeHint_eq, size, hc]
      rfl
    exact List.forall_mem_cons.mpr ⟨⟨hb, hz⟩, hi hc hs⟩

-- What a cursor keeps to, wherever it stands.
structure IsExact (cursor : Cursor) : Prop where
  sizeHint : cursor.sizeHint = (cursor.rest.1.length, some cursor.rest.1.length)
  nth      : ∀ count, cursor.nth count = (discard^[count] cursor).next
  ended    : cursor.next.1 = none → ∀ saved steps, .restore ∉ steps →
    ∀ given ∈ (Walk.mk cursor saved).answers steps, given.1.IsBare ∧ given.2 = (0, some 0)
  restored : ∀ saved steps, .save ∉ steps →
    ((Walk.mk cursor saved).runAll (.save :: steps ++ [.restore])).current = cursor

theorem isExact (cursor : Cursor) : cursor.IsExact where
  sizeHint := by rw [sizeHint_eq, size, cursor.rest_spec.left]
  nth      := fun count => cursor.nth_eq_next count
  ended    := by
    intro hn saved steps hs
    have hl : cursor.toList = [] := by rwa [next_fst, List.head?_eq_none_iff] at hn
    exact Walk.bare_of_ended hl hs
  restored := by
    intro saved steps hs
    rw [Walk.runAll, List.foldl_append]
    exact Walk.saved_runAll hs ⟨cursor, cursor⟩

theorem toList_elim {form? : Option Form} (h : ∀ form ∈ form?, form.HasByteBounds) :
    (form?.elim empty Form.cursor).toList = form?.elim [] Form.tags := by
  cases form? with
  | none      => rfl
  | some form => exact Form.toList_cursor (h form rfl)

-- Whatever steps are taken, the cursor of a form, or of no form, answers as a place in the list of
-- its tags does. No tag comes twice, also where the last bound is the last byte.
theorem answers_of_form {form? : Option Form} (h : ∀ form ∈ form?, form.HasByteBounds)
    (steps : List Step) :
    let cursor := form?.elim empty Form.cursor
    let tags := form?.elim [] Form.tags
    cursor.sizeHint = Places.start.sizeHint tags ∧
    cursor.walk.answers steps = Places.start.answers tags steps ∧
    (cursor.walk.runAll steps).current.IsExact ∧
    tags.Nodup ∧
    ∀ stem first last, form? = some (.family stem first last) → first ≤ last →
      tags.getLast? = some (Form.member stem last) := by
  intro cursor tags
  have hl : cursor.toList = tags := toList_elim h
  have hs : cursor.walk.StandsAt tags .start := ⟨hl, hl⟩
  refine ⟨hs.sizeHint_eq, hs.answers_eq steps, isExact _, ?nodup, ?last⟩
  case nodup =>
    cases form? with
    | none      => exact List.nodup_nil
    | some form => exact form.nodup_tags
  case last =>
    intro stem first last hf hle
    subst hf
    exact Form.getLast?_tags hle

theorem answers_of_form_lastByte :
    (Form.family "ss" 253 255).HasByteBounds ∧
    (Form.family "ss" 253 255).cursor.walk.answers
        [.next, .save, .nth 1, .next, .restore, .rest, .nth 0, .restore, .nth 9] = [
      (.tag (some ⟨"ss253"⟩), 2, some 2), (.done, 2, some 2), (.tag (some ⟨"ss255"⟩), 0, some 0),
      (.tag none, 0, some 0), (.done, 2, some 2), (.tags [⟨"ss254"⟩, ⟨"ss255"⟩], 0, some 0),
      (.tag none, 0, some 0), (.done, 2, some 2), (.tag none, 0, some 0)] := by
  have hb : (Form.family "ss" 253 255).HasByteBounds := ⟨by decide, by decide⟩
  have ⟨_, ha, _⟩ := @answers_of_form (some (.family "ss" 253 255))
    (fun _ h => by cases h; exact hb)
    [.next, .save, .nth 1, .next, .restore, .rest, .nth 0, .restore, .nth 9]
  exact ⟨hb, ha.trans rfl⟩

end Cursor

namespace Row

theorem hasByteBounds_of_form? {row : Row} {form? : Option Form} (h : row.form? = .ok form?) :
    ∀ form ∈ form?, form.HasByteBounds := by
  intro form hm
  cases hm
  rw [Row.form?] at h
  split at h
  case isTrue => cases h
  case isFalse =>
    cases hd : row.isDefault
    case error => rw [hd] at h; cases h
    case ok isDefault =>
      rw [hd] at h
      cases isDefault <;> cases h
      exact Form.hasByteBounds_ofField row.tag

-- What a row adds to the default set is what its cursor gives.
theorem tags_eq_rest (row : Row) : row.tags = row.cursor.map fun cursor => cursor.rest.1 := by
  rw [tags, cursor]
  cases hf : row.form?
  case error => rfl
  case ok form? =>
    have hl := Cursor.toList_elim (hasByteBounds_of_form? hf)
    exact congrArg Except.ok (hl.symm.trans (Cursor.rest_spec _).left.symm)

end Row
end TagRegistry
