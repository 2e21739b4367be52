import Mathlib.Data.List.Forall2

namespace TagRegistry

variable {α β ε : Type} {f : α → Except ε β}

theorem bind_eq_ok_iff {a? : Except ε α} {b : β} :
    a? >>= f = .ok b ↔ ∃ a, a? = .ok a ∧ f a = .ok b := by
  cases a? <;> simp [bind, Except.bind]

theorem bind_eq_error_iff {a? : Except ε α} {error : ε} :
    a? >>= f = .error error ↔ a? = .error error ∨ ∃ a, a? = .ok a ∧ f a = .error error := by
  cases a? <;> simp [bind, Except.bind]

theorem mapError_eq_ok_iff {ε' : Type} {g : ε → ε'} {a? : Except ε α} {a : α} :
    a?.mapError g = .ok a ↔ a? = .ok a := by
  cases a? <;> simp [Except.mapError]

theorem mapError_eq_error_iff {ε' : Type} {g : ε → ε'} {a? : Except ε α} {error : ε'} :
    a?.mapError g = .error error ↔ ∃ cause, a? = .error cause ∧ g cause = error := by
  cases a? <;> simp [Except.mapError]

theorem exists_error_iff {a? : Except ε α} : (∃ error, a? = .error error) ↔ ¬∃ a, a? = .ok a := by
  cases a? <;> simp

-- `f` fails with `error` on an element of `list`, and on none before it.
def FirstFailure (f : α → Except ε β) (list : List α) (error : ε) : Prop :=
  ∃ before a after, list = before ++ a :: after ∧
    (∀ b ∈ before, ∃ result, f b = .ok result) ∧ f a = .error error

theorem mapM_cons_of_ok {a : α} {b : β} (list : List α) (h : f a = .ok b) :
    (a :: list).mapM f = (list.mapM f).map (b :: ·) := by
  rw [List.mapM_cons, h]
  cases list.mapM f <;> rfl

theorem mapM_cons_of_error {a : α} {error : ε} (list : List α) (h : f a = .error error) :
    (a :: list).mapM f = .error error := by
  rw [List.mapM_cons, h]
  rfl

theorem exists_mapM_iff {list : List α} :
    (∃ results, list.mapM f = .ok results) ↔ ∀ a ∈ list, ∃ b, f a = .ok b := by
  induction list with
  | nil => simp [pure, Except.pure]
  | cons a list hi =>
    cases h : f a
    case error => simp [mapM_cons_of_error list h, h]
    case ok =>
      rw [mapM_cons_of_ok list h, List.forall_mem_cons, ← hi]
      cases list.mapM f <;> simp [Except.map, h]

theorem mapM_eq_ok_iff {list : List α} {results : List β} :
    list.mapM f = .ok results ↔ List.Forall₂ (fun a b => f a = .ok b) list results := by
  induction list generalizing results with
  | nil => simp [pure, Except.pure, eq_comm]
  | cons a list hi =>
    rw [List.forall₂_cons_left_iff]
    cases h : f a
    case error => simp [mapM_cons_of_error list h]
    case ok b =>
      rw [mapM_cons_of_ok list h]
      simp only [← hi]
      cases list.mapM f <;> simp [Except.map, eq_comm]

theorem FirstFailure.cons_iff_of_ok {a : α} {b : β} {list : List α} {error : ε} (h : f a = .ok b) :
    FirstFailure f (a :: list) error ↔ FirstFailure f list error := by
  constructor
  case mp =>
    intro ⟨before, c, after, hl, hb, hc⟩
    cases before with
    | nil =>
      cases hl
      rw [h] at hc
      cases hc
    | cons _ before =>
      cases hl
      exact ⟨before, c, after, rfl, fun b hm => hb b (List.mem_cons_of_mem _ hm), hc⟩
  case mpr =>
    intro ⟨before, c, after, hl, hb, hc⟩
    subst hl
    exact ⟨a :: before, c, after, rfl, List.forall_mem_cons.mpr ⟨⟨b, h⟩, hb⟩, hc⟩

theorem FirstFailure.cons_iff_of_error {a : α} {list : List α} {error error' : ε}
    (h : f a = .error error) : FirstFailure f (a :: list) error' ↔ error = error' := by
  constructor
  case mp =>
    intro ⟨before, c, after, hl, hb, hc⟩
    cases before with
    | nil =>
      cases hl
      exact Except.error.inj (h ▸ hc)
    | cons _ before =>
      cases hl
      have ⟨_, ha⟩ := hb a List.mem_cons_self
      rw [h] at ha
      cases ha
  case mpr =>
    intro he
    subst he
    exact ⟨[], a, list, rfl, by simp, h⟩

theorem mapM_eq_error_iff {list : List α} {error : ε} :
    list.mapM f = .error error ↔ FirstFailure f list error := by
  induction list with
  | nil => simp [FirstFailure, pure, Except.pure]
  | cons a list hi =>
    cases h : f a
    case error => simp [mapM_cons_of_error list h, FirstFailure.cons_iff_of_error h]
    case ok =>
      rw [mapM_cons_of_ok list h, FirstFailure.cons_iff_of_ok h, ← hi]
      cases list.mapM f <;> simp [Except.map]

theorem mapM_mapError {ε' : Type} (g : ε → ε') (list : List α) :
    list.mapM (fun a => (f a).mapError g) = (list.mapM f).mapError g := by
  induction list with
  | nil => rfl
  | cons a list hi =>
    cases h : f a
    case error error =>
      have hg : (f a).mapError g = .error (g error) := by rw [h]; rfl
      rw [mapM_cons_of_error list h, mapM_cons_of_error list hg]
      rfl
    case ok b =>
      have hg : (f a).mapError g = .ok b := by rw [h]; rfl
      rw [mapM_cons_of_ok list h, mapM_cons_of_ok list hg, hi]
      cases list.mapM f <;> rfl

theorem mapM_append_eq_error_iff {list₁ list₂ : List α} {error : ε} :
    (list₁ ++ list₂).mapM f = .error error ↔
      list₁.mapM f = .error error ∨
        (∃ results, list₁.mapM f = .ok results) ∧ list₂.mapM f = .error error := by
  rw [List.mapM_append]
  cases list₁.mapM f <;> cases list₂.mapM f <;> simp [bind, Except.bind, pure, Except.pure]

theorem mapM_flatten (lists : List (List α)) :
    lists.flatten.mapM f = (lists.mapM (List.mapM f)).map List.flatten := by
  induction lists with
  | nil => rfl
  | cons list lists hi =>
    rw [List.flatten_cons, List.mapM_append, hi]
    cases h : list.mapM f
    case error => rw [mapM_cons_of_error lists h]; rfl
    case ok =>
      rw [mapM_cons_of_ok lists h]
      cases lists.mapM (List.mapM f) <;> rfl

end TagRegistry
