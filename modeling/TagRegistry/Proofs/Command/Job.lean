import TagRegistry.Command.Job
import TagRegistry.Proofs.FirstFailure

namespace TagRegistry.Command

variable {view : View} {args : Arguments} {job : Job} {path : String} {plan : Plan}
  {entry : Plan.Entry} {write : Write} {failure : Failure}

-- `write` is what `entry` asks for.
structure Prepares (view : View) (entry : Plan.Entry) (write : Write) : Prop where
  path_eq : write.path = entry.target
  text_eq : ∃ format, entry.outputFormat = .ok format ∧
    generateFile view entry.source format = .ok write.text

-- The registry is looked at only once there is a format.
inductive Refuses (view : View) (entry : Plan.Entry) : Failure → Prop
  | format {unknown : Format.Unknown} :
    entry.outputFormat = .error unknown → Refuses view entry (.format entry.target unknown)
  | registry {format : Format} {report : Report} :
    entry.outputFormat = .ok format → generateFile view entry.source format = .error report →
      Refuses view entry (.report report)

theorem generateTo_eq_ok_iff {source target : String} {format : Format} :
    generateTo view source target format = .ok write ↔
      write.path = target ∧ generateFile view source format = .ok write.text := by
  cases write
  simp only [generateTo, bind_eq_ok_iff]
  constructor
  case mp =>
    intro ⟨text, hg, hw⟩
    cases hw
    exact ⟨rfl, hg⟩
  case mpr =>
    intro ⟨hp, hg⟩
    exact ⟨_, hg, by rw [← hp]; rfl⟩

theorem generateTo_eq_error_iff {source target : String} {format : Format} {report : Report} :
    generateTo view source target format = .error report ↔
      generateFile view source format = .error report := by
  simp [generateTo, bind_eq_error_iff, pure, Except.pure]

theorem prepareEntry_eq_ok_iff : prepareEntry view entry = .ok write ↔
    Prepares view entry write := by
  simp only [prepareEntry, bind_eq_ok_iff, mapError_eq_ok_iff, generateTo_eq_ok_iff]
  constructor
  case mp =>
    intro ⟨format, hf, hp, ht⟩
    exact ⟨hp, format, hf, ht⟩
  case mpr =>
    intro ⟨hp, format, hf, ht⟩
    exact ⟨format, hf, hp, ht⟩

theorem prepareEntry_eq_error_iff : prepareEntry view entry = .error failure ↔
    Refuses view entry failure := by
  simp only [prepareEntry, bind_eq_error_iff, mapError_eq_ok_iff, mapError_eq_error_iff,
    generateTo_eq_error_iff]
  constructor
  case mp =>
    rintro (⟨_, hf, rfl⟩ | ⟨_, hf, _, hg, rfl⟩)
    · exact .format hf
    · exact .registry hf hg
  case mpr =>
    intro h
    cases h with
    | format hf => exact .inl ⟨_, hf, rfl⟩
    | registry hf hg => exact .inr ⟨_, hf, _, hg, rfl⟩

theorem rightUnique_prepares (view : View) : Relator.RightUnique (Prepares view) :=
  fun _ _ _ h h' =>
    Except.ok.inj ((prepareEntry_eq_ok_iff.mpr h).symm.trans (prepareEntry_eq_ok_iff.mpr h'))

theorem exists_prepares_iff :
    (∃ write, Prepares view entry write) ↔ ∀ failure, ¬Refuses view entry failure := by
  simp only [← prepareEntry_eq_ok_iff, ← prepareEntry_eq_error_iff]
  cases prepareEntry view entry <;> simp

theorem mapM_prepareEntry_eq_ok_iff {writes : List Write} :
    plan.mapM (prepareEntry view) = .ok writes ↔ List.Forall₂ (Prepares view) plan writes := by
  simp only [mapM_eq_ok_iff, prepareEntry_eq_ok_iff]

theorem exists_forall₂_prepares_iff : (∃ writes, List.Forall₂ (Prepares view) plan writes) ↔
    ∀ entry ∈ plan, ∃ write, Prepares view entry write := by
  simp only [← mapM_prepareEntry_eq_ok_iff, exists_mapM_iff, prepareEntry_eq_ok_iff]

theorem readPlan_eq_ok_iff : readPlan view path = .ok plan ↔
    (∀ name ∈ landmarks, view.isDirectory name) ∧
      ∃ text, view.readText path = .ok text ∧ Plan.parse? text = some plan := by
  have hp (text : String) : (Plan.parse? text).elim (throw Failure.planSyntax) pure =
      (.ok plan : Except Failure Plan) ↔ Plan.parse? text = some plan := by
    cases Plan.parse? text <;> simp [throw, throwThe, MonadExceptOf.throw, pure, Except.pure]
  rw [readPlan]
  split
  case isTrue hd =>
    have hd : ∀ name ∈ landmarks, view.isDirectory name := List.all_eq_true.mp hd
    simp only [bind_eq_ok_iff, mapError_eq_ok_iff, hp, iff_true_intro hd, true_and]
  case isFalse hd =>
    have hd : ¬∀ name ∈ landmarks, view.isDirectory name := mt List.all_eq_true.mpr hd
    simp only [iff_false_intro hd, false_and, iff_false]
    exact nofun

theorem prepare_eq_ok_iff_of_plan (hi : isPlan args.input) : prepare view args = .ok job ↔
    ∃ plan, readPlan view args.input = .ok plan ∧
      ∃ writes, List.Forall₂ (Prepares view) plan writes ∧ { writes } = job := by
  simp only [prepare, if_pos hi, bind_eq_ok_iff, mapM_prepareEntry_eq_ok_iff, pure, Except.pure,
    Except.ok.injEq]

theorem prepare_eq_error_iff_of_plan (hi : isPlan args.input) :
    prepare view args = .error failure ↔ readPlan view args.input = .error failure ∨
      ∃ plan, readPlan view args.input = .ok plan ∧ ∃ before entry after,
        plan = before ++ entry :: after ∧
        (∀ earlier ∈ before, ∃ write, Prepares view earlier write) ∧
        Refuses view entry failure := by
  simp only [prepare, if_pos hi, bind_eq_error_iff, mapM_eq_error_iff, FirstFailure,
    prepareEntry_eq_ok_iff, prepareEntry_eq_error_iff, pure, Except.pure, reduceCtorEq, and_false,
    exists_false, or_false]

theorem prepare_eq_ok_iff_of_registry (hi : isPlan args.input = false) :
    prepare view args = .ok job ↔ ∃ code, generateFile view args.input args.format = .ok code ∧
      (match args.output with
        | none => { stdout := code }
        | some target => { writes := [{ path := target, text := code }] }) = job := by
  rw [prepare, if_neg (by simp [hi])]
  cases args.output with
  | none => simp only [bind_eq_ok_iff, mapError_eq_ok_iff, pure, Except.pure, Except.ok.injEq]
  | some target =>
    simp only [bind_eq_ok_iff, mapError_eq_ok_iff, generateTo_eq_ok_iff, pure, Except.pure,
      Except.ok.injEq]
    constructor
    case mp =>
      intro ⟨write, ⟨hp, hg⟩, hj⟩
      exact ⟨write.text, hg, by rw [← hj, ← hp]⟩
    case mpr =>
      intro ⟨code, hg, hj⟩
      exact ⟨_, ⟨rfl, hg⟩, hj⟩

theorem prepare_eq_error_iff_of_registry (hi : isPlan args.input = false) :
    prepare view args = .error failure ↔
      ∃ report, generateFile view args.input args.format = .error report ∧
        .report report = failure := by
  rw [prepare, if_neg (by simp [hi])]
  cases args.output <;>
    simp [bind_eq_error_iff, mapError_eq_error_iff, generateTo_eq_error_iff, pure, Except.pure]

-- What is printed is not followed by writes, so a command that fails to write has printed nothing.
theorem stdout_eq_or_writes_eq (hp : prepare view args = .ok job) :
    job.stdout = "" ∨ job.writes = [] := by
  cases hi : isPlan args.input with
  | true =>
    have ⟨_, _, _, _, hj⟩ := (prepare_eq_ok_iff_of_plan hi).mp hp
    exact .inl (hj ▸ rfl)
  | false =>
    have ⟨_, _, hj⟩ := (prepare_eq_ok_iff_of_registry hi).mp hp
    rw [← hj]
    cases args.output with
    | none   => exact .inr rfl
    | some _ => exact .inl rfl

theorem length_writes_le (hi : isPlan args.input = false) (hp : prepare view args = .ok job) :
    job.writes.length ≤ 1 := by
  have ⟨_, _, hj⟩ := (prepare_eq_ok_iff_of_registry hi).mp hp
  rw [← hj]
  cases args.output <;> simp

end TagRegistry.Command
