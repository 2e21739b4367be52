import Mathlib.Data.List.Induction
import TagRegistry.Output
import TagRegistry.Proofs.Tree

namespace TagRegistry.Write

open TagRegistry.Tree (SameDirectories)

variable {tree tree' tree'' : Tree} {write : Write} {writes before after : List Write}
  {location : Location} {report : Report}

theorem run_eq_ok_iff : write.run tree = .ok tree' ↔
    ∃ location, tree.target write.path = .ok location ∧
      tree.set location (.file (Text.utf8 write.text)) = tree' := by
  rw [run, mapError_eq_ok_iff, Tree.write_eq_ok_iff]

theorem run_eq_error_iff : write.run tree = .error report ↔
    ∃ cause, tree.target write.path = .error cause ∧ write.failure cause = report := by
  simp only [run, mapError_eq_error_iff, Tree.write_eq_error_iff]

theorem sameDirectories_of_run (h : write.run tree = .ok tree') : SameDirectories tree tree' := by
  have ⟨_, ht, he⟩ := run_eq_ok_iff.mp h
  exact he ▸ .of_set (Tree.ne_nil_of_target ht) (Tree.ne_directory_of_target ht) _

theorem ne_none_of_run (h : write.run tree = .ok tree') (hn : tree.get? location ≠ none) :
    tree'.get? location ≠ none := by
  have ⟨location', ht, he⟩ := run_eq_ok_iff.mp h
  subst he
  by_cases hl : location = location'
  case pos =>
    subst hl
    simp [Tree.get?_set_self _ _ (Tree.ne_nil_of_target ht)]
  case neg => rwa [Tree.get?_set_of_ne _ _ hl]

-- The writes succeed one after the other.
inductive Runs : Tree → List Write → Tree → Prop
  | nil (tree : Tree) : Runs tree [] tree
  | cons {tree tree' tree'' : Tree} {write : Write} {writes : List Write} :
    write.run tree = .ok tree' → Runs tree' writes tree'' → Runs tree (write :: writes) tree''

theorem runs_nil_iff : Runs tree [] tree' ↔ tree = tree' := by
  constructor
  case mp  => intro h; cases h; rfl
  case mpr => intro h; exact h ▸ .nil tree

theorem runs_cons_iff : Runs tree (write :: writes) tree'' ↔
    ∃ tree', write.run tree = .ok tree' ∧ Runs tree' writes tree'' := by
  constructor
  case mp =>
    intro h
    cases h with
    | cons hr h => exact ⟨_, hr, h⟩
  case mpr =>
    intro ⟨_, hr, h⟩
    exact .cons hr h

theorem runAll_eq_none_iff : runAll tree writes = (none, tree') ↔ Runs tree writes tree' := by
  induction writes generalizing tree with
  | nil => simp [runAll, runs_nil_iff]
  | cons write writes hi =>
    rw [runAll, runs_cons_iff]
    split
    case h_1 hr => simp [hr]
    case h_2 hr => simp [hr, hi]

-- The first write that fails is the last, and what was written before it stays.
theorem runAll_eq_some_iff : runAll tree writes = (some report, tree') ↔
    ∃ before write after, writes = before ++ write :: after ∧ Runs tree before tree' ∧
      write.run tree' = .error report := by
  induction writes generalizing tree with
  | nil => simp [runAll]
  | cons write writes hi =>
    rw [runAll]
    split
    case h_1 hr =>
      constructor
      case mp =>
        intro h
        cases h
        exact ⟨[], write, writes, rfl, .nil _, hr⟩
      case mpr =>
        intro ⟨before, _, _, hw, hb, he⟩
        cases before with
        | nil =>
          cases hw
          cases hb
          rw [hr] at he
          cases he
          rfl
        | cons =>
          cases hw
          have ⟨_, hr', _⟩ := runs_cons_iff.mp hb
          rw [hr] at hr'
          cases hr'
    case h_2 hr =>
      rw [hi]
      constructor
      case mp =>
        intro ⟨before, failing, after, hw, hb, he⟩
        exact ⟨write :: before, failing, after, by rw [hw, List.cons_append], .cons hr hb, he⟩
      case mpr =>
        intro ⟨before, failing, after, hw, hb, he⟩
        cases before with
        | nil =>
          cases hw
          cases hb
          rw [hr] at he
          cases he
        | cons _ before =>
          cases hw
          have ⟨_, hr', hb⟩ := runs_cons_iff.mp hb
          rw [hr] at hr'
          cases hr'
          exact ⟨before, failing, after, rfl, hb, he⟩

-- What is in `tree'` after `writes` in `tree`: of the writes to one place the last one remains, and
-- places that no write goes to are as they were.
structure Leaves (tree : Tree) (writes : List Write) (tree' : Tree) : Prop where
  written : ∀ before write after location, writes = before ++ write :: after →
    tree.target write.path = .ok location →
    (∀ later ∈ after, tree.target later.path ≠ .ok location) →
    tree'.get? location = some (.file (Text.utf8 write.text))
  kept : ∀ location, (∀ write ∈ writes, tree.target write.path ≠ .ok location) →
    tree'.get? location = tree.get? location

namespace Runs

theorem sameDirectories (h : Runs tree writes tree') : SameDirectories tree tree' := by
  induction h with
  | nil tree => exact .refl tree
  | cons hr _ hi => exact (sameDirectories_of_run hr).trans hi

theorem kept (h : Runs tree writes tree')
    (hn : ∀ write ∈ writes, tree.target write.path ≠ .ok location) :
    tree'.get? location = tree.get? location := by
  induction h with
  | nil => rfl
  | cons hr _ hi =>
    have ⟨hw, hws⟩ := List.forall_mem_cons.mp hn
    have hs := sameDirectories_of_run hr
    obtain ⟨location', ht, rfl⟩ := run_eq_ok_iff.mp hr
    have hne : location ≠ location' := fun he => hw (he ▸ ht)
    rw [hi fun write hm => mt hs.target_iff.mpr (hws write hm), Tree.get?_set_of_ne _ _ hne]

theorem append_iff : Runs tree (before ++ after) tree'' ↔
    ∃ tree', Runs tree before tree' ∧ Runs tree' after tree'' := by
  induction before generalizing tree with
  | nil => simp [runs_nil_iff]
  | cons write before hi =>
    simp only [List.cons_append, runs_cons_iff, hi]
    constructor
    case mp =>
      intro ⟨_, hr, _, hb, ha⟩
      exact ⟨_, ⟨_, hr, hb⟩, ha⟩
    case mpr =>
      intro ⟨_, ⟨_, hr, hb⟩, ha⟩
      exact ⟨_, hr, _, hb, ha⟩

theorem written (h : Runs tree (before ++ write :: after) tree')
    (ht : tree.target write.path = .ok location)
    (hn : ∀ later ∈ after, tree.target later.path ≠ .ok location) :
    tree'.get? location = some (.file (Text.utf8 write.text)) := by
  have ⟨_, hb, h⟩ := append_iff.mp h
  have ⟨_, hr, ha⟩ := runs_cons_iff.mp h
  have hs := hb.sameDirectories
  have hs' := hs.trans (sameDirectories_of_run hr)
  obtain ⟨location', ht', rfl⟩ := run_eq_ok_iff.mp hr
  rw [hs.target_iff.mp ht] at ht'
  cases ht'
  rw [ha.kept fun later hm => mt hs'.target_iff.mpr (hn later hm),
    Tree.get?_set_self _ _ (Tree.ne_nil_of_target ht)]

-- A path that cannot be written to after some writes could not be written to before them.
theorem not_exists_target (h : Runs tree writes tree') (he : write.run tree' = .error report) :
    ¬∃ location, tree.target write.path = .ok location := by
  intro ⟨location, hl⟩
  have ⟨cause, hc, _⟩ := run_eq_error_iff.mp he
  cases hc.symm.trans (h.sameDirectories.target hl)

theorem leaves (h : Runs tree writes tree') : Leaves tree writes tree' where
  written _ _ _ _ hw ht hn := written (hw ▸ h) ht hn
  kept _ hn := h.kept hn

-- A write fails or succeeds whatever is written before it.
theorem exists_iff : (∃ tree', Runs tree writes tree') ↔
    ∀ write ∈ writes, ∃ location, tree.target write.path = .ok location := by
  induction writes generalizing tree with
  | nil => simp [runs_nil_iff]
  | cons write writes hi =>
    rw [List.forall_mem_cons]
    constructor
    case mp =>
      intro ⟨tree'', h⟩
      have ⟨tree', hr, h⟩ := runs_cons_iff.mp h
      have hs := sameDirectories_of_run hr
      have ⟨location, ht, _⟩ := run_eq_ok_iff.mp hr
      refine ⟨⟨location, ht⟩, ?_⟩
      simp only [hs.target_iff]
      exact hi.mp ⟨tree'', h⟩
    case mpr =>
      intro ⟨⟨location, ht⟩, hws⟩
      have hr : write.run tree = .ok (tree.set location (.file (Text.utf8 write.text))) :=
        run_eq_ok_iff.mpr ⟨location, ht, rfl⟩
      simp only [(sameDirectories_of_run hr).target_iff] at hws
      have ⟨tree'', h⟩ := hi.mpr hws
      exact ⟨tree'', .cons hr h⟩

theorem ne_none (h : Runs tree writes tree') (hn : tree.get? location ≠ none) :
    tree'.get? location ≠ none := by
  induction h with
  | nil => exact hn
  | cons hr _ hi => exact hi (ne_none_of_run hr hn)

theorem ne_none_of_mem (h : Runs tree writes tree') (hm : write ∈ writes)
    (ht : tree.target write.path = .ok location) : tree'.get? location ≠ none := by
  have ⟨before, after, hw⟩ := List.append_of_mem hm
  have ⟨_, hb, ha⟩ := append_iff.mp (hw ▸ h)
  have ⟨_, hr, ha⟩ := runs_cons_iff.mp ha
  refine ha.ne_none ?_
  obtain ⟨location', ht', rfl⟩ := run_eq_ok_iff.mp hr
  rw [hb.sameDirectories.target_iff.mp ht] at ht'
  cases ht'
  simp [Tree.get?_set_self _ _ (Tree.ne_nil_of_target ht)]

-- A file that is put in before the writes and again after them is no different from one that is
-- only put in after them, if the writes find all of their files there.
theorem exists_set (h : Runs tree writes tree') (bytes : Bytes) (hl : location ≠ [])
    (hd : tree.get? location ≠ some .directory)
    (hw : ∀ write ∈ writes, ∀ there, tree.target write.path = .ok there → tree.get? there ≠ none) :
    ∃ tree'', Runs (tree.set location (.file bytes)) writes tree'' ∧
      tree''.set location (.file bytes) = tree'.set location (.file bytes) := by
  induction h with
  | nil tree => exact ⟨_, .nil _, Tree.set_set_self ..⟩
  | @cons tree tree₁ tree' write writes hr hrs hi =>
    have hs := SameDirectories.of_set hl hd bytes
    have hs₁ := sameDirectories_of_run hr
    have hw₁ : ∀ write ∈ writes, ∀ there, tree₁.target write.path = .ok there →
        tree₁.get? there ≠ none := fun write hm there ht =>
      ne_none_of_run hr (hw write (List.mem_cons_of_mem _ hm) there (hs₁.target_iff.mpr ht))
    obtain ⟨there, ht, rfl⟩ := run_eq_ok_iff.mp hr
    have hr' := run_eq_ok_iff.mpr ⟨there, hs.target ht, rfl⟩
    by_cases he : there = location
    case pos =>
      subst he
      rw [Tree.set_set_self] at hr'
      exact ⟨_, .cons hr' hrs, rfl⟩
    case neg =>
      have hn := hw write List.mem_cons_self there ht
      rw [Tree.set_comm_of_ne (Tree.ne_nil_of_target ht) hn (Ne.symm he)] at hr'
      have ⟨tree'', hrs', he⟩ := hi (mt (hs₁ location).mpr hd) hw₁
      exact ⟨tree'', .cons hr' hrs', he⟩

-- Written once more, the files settle on the same texts.
theorem again (h : Runs tree writes tree') : Runs tree' writes tree' := by
  induction writes using List.reverseRecOn generalizing tree' with
  | nil => exact .nil _
  | append_singleton writes write hi =>
    have ⟨tree₁, hb, hr⟩ := append_iff.mp h
    have ⟨_, hr, hn⟩ := runs_cons_iff.mp hr
    cases hn
    obtain ⟨location, ht, rfl⟩ := run_eq_ok_iff.mp hr
    have ⟨tree₂, hb', he⟩ := (hi hb).exists_set (Text.utf8 write.text) (Tree.ne_nil_of_target ht)
      (Tree.ne_directory_of_target ht) fun earlier hm there hw =>
        hb.ne_none_of_mem hm (hb.sameDirectories.target_iff.mpr hw)
    have hs := ((sameDirectories_of_run hr).trans hb'.sameDirectories).target ht
    exact append_iff.mpr ⟨tree₂, hb', .cons (run_eq_ok_iff.mpr ⟨location, hs, he⟩) (.nil _)⟩

end Runs
end TagRegistry.Write
