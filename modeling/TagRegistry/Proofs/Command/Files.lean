import TagRegistry.Proofs.Command.Job
import TagRegistry.Proofs.Generation.File

namespace TagRegistry.Command

variable {view view' : View} {args : Arguments} {job : Job} {path : String} {plan : Plan}
  {writes : List Write}

-- The paths that a command writes to if nothing fails. A plan has targets of its own.
def targets (view : View) (args : Arguments) : List String :=
  if isPlan args.input then
    match readPlan view args.input with
    | .ok plan => plan.map (·.target)
    | .error _ => []
  else
    args.output.toList

theorem targets_of_plan (hi : isPlan args.input) (hp : readPlan view args.input = .ok plan) :
    targets view args = plan.map (·.target) := by
  rw [targets, if_pos hi, hp]

theorem sources_of_plan (hi : isPlan args.input) (hp : readPlan view args.input = .ok plan) :
    sources view args = plan.map (·.source) := by
  rw [sources, if_pos hi, hp]

theorem map_path_of_prepares (h : List.Forall₂ (Prepares view) plan writes) :
    writes.map (·.path) = plan.map (·.target) := by
  induction h with
  | nil => rfl
  | cons hp _ hi => rw [List.map_cons, List.map_cons, hp.path_eq, hi]

theorem map_path_writes (h : prepare view args = .ok job) :
    job.writes.map (·.path) = targets view args := by
  cases hi : isPlan args.input with
  | true =>
    obtain ⟨plan, hp, writes, hw, rfl⟩ := (prepare_eq_ok_iff_of_plan hi).mp h
    rw [targets_of_plan hi hp]
    exact map_path_of_prepares hw
  | false =>
    obtain ⟨code, _, rfl⟩ := (prepare_eq_ok_iff_of_registry hi).mp h
    rw [targets, if_neg (by simp [hi])]
    cases args.output <;> rfl

theorem exists_generateFile_of_prepares (h : List.Forall₂ (Prepares view) plan writes) :
    ∀ write ∈ writes, ∃ source format, generateFile view source format = .ok write.text := by
  induction h with
  | nil => exact nofun
  | cons hp _ hi =>
    have ⟨format, _, hg⟩ := hp.text_eq
    exact List.forall_mem_cons.mpr ⟨⟨_, format, hg⟩, hi⟩

-- All that a command writes has been generated.
theorem exists_generateFile_of_prepare (h : prepare view args = .ok job) :
    ∀ write ∈ job.writes, ∃ source format, generateFile view source format = .ok write.text := by
  cases hi : isPlan args.input with
  | true =>
    obtain ⟨plan, _, writes, hw, rfl⟩ := (prepare_eq_ok_iff_of_plan hi).mp h
    exact exists_generateFile_of_prepares hw
  | false =>
    obtain ⟨code, hg, rfl⟩ := (prepare_eq_ok_iff_of_registry hi).mp h
    cases args.output with
    | none => exact nofun
    | some target => exact List.forall_mem_singleton.mpr ⟨_, _, hg⟩

theorem generateFile_eq_ok_of_read {source code : String} {format : Format}
    (h : generateFile view source format = .ok code)
    (hr : ∀ bytes, view.read source = .ok bytes → view'.read source = .ok bytes) :
    generateFile view' source format = .ok code := by
  have ⟨registry, ht, hg⟩ := generateFile_eq_ok_iff.mp h
  exact generateFile_eq_ok_iff.mpr ⟨registry, hr _ ht, hg⟩

theorem prepares_of_reads (h : List.Forall₂ (Prepares view) plan writes)
    (hr : ∀ source ∈ plan.map (·.source), ∀ bytes,
      view.read source = .ok bytes → view'.read source = .ok bytes) :
    List.Forall₂ (Prepares view') plan writes := by
  induction h with
  | nil => exact .nil
  | cons hp _ hi =>
    rw [List.map_cons, List.forall_mem_cons] at hr
    have ⟨format, hf, hg⟩ := hp.text_eq
    exact .cons ⟨hp.path_eq, format, hf, generateFile_eq_ok_of_read hg hr.left⟩ (hi hr.right)

theorem readPlan_eq_ok_of_read (h : readPlan view path = .ok plan)
    (hd : ∀ name ∈ landmarks, view.isDirectory name → view'.isDirectory name)
    (hr : ∀ bytes, view.read path = .ok bytes → view'.read path = .ok bytes) :
    readPlan view' path = .ok plan := by
  have ⟨hl, text, ht, hp⟩ := readPlan_eq_ok_iff.mp h
  have ht' := View.readText_eq_ok_iff.mpr (hr _ (View.readText_eq_ok_iff.mp ht))
  exact readPlan_eq_ok_iff.mpr ⟨fun name hm => hd name hm (hl name hm), text, ht', hp⟩

-- A command that gets to its job gets to it wherever the files that it reads are the same.
theorem prepare_eq_ok_of_reads (h : prepare view args = .ok job)
    (hd : ∀ name ∈ landmarks, view.isDirectory name → view'.isDirectory name)
    (hr : ∀ path ∈ args.input :: sources view args, ∀ bytes,
      view.read path = .ok bytes → view'.read path = .ok bytes) :
    prepare view' args = .ok job := by
  rw [List.forall_mem_cons] at hr
  cases hi : isPlan args.input with
  | true =>
    have ⟨plan, hp, writes, hw, hj⟩ := (prepare_eq_ok_iff_of_plan hi).mp h
    have hp' := readPlan_eq_ok_of_read hp hd hr.left
    have hw' := prepares_of_reads hw (sources_of_plan hi hp ▸ hr.right)
    exact (prepare_eq_ok_iff_of_plan hi).mpr ⟨plan, hp', writes, hw', hj⟩
  | false =>
    have ⟨code, hg, hj⟩ := (prepare_eq_ok_iff_of_registry hi).mp h
    have hg' := generateFile_eq_ok_of_read hg hr.left
    exact (prepare_eq_ok_iff_of_registry hi).mpr ⟨code, hg', hj⟩

end TagRegistry.Command
