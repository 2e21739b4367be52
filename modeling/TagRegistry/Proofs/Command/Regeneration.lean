import TagRegistry.Proofs.Command
import TagRegistry.Proofs.Command.Files

namespace TagRegistry

-- Who writes to `target` writes to the file that is read by `source`.
def Tree.SameFile (tree : Tree) (target source : String) : Prop :=
  ∃ location, tree.target target = .ok location ∧ tree.locate source = .ok location

namespace Command

variable {args : List String} {tree tree' : Tree} {parsed : Arguments} {job : Job}

-- The command writes to none of the files that it reads, be it a plan or a registry.
def Arguments.IsApart (parsed : Arguments) (tree : Tree) : Prop :=
  ∀ target ∈ targets tree.view parsed, ∀ source ∈ parsed.input :: sources tree.view parsed,
    ¬tree.SameFile target source

theorem prepare_of_runs (h : parsed.IsApart tree) (hp : prepare tree.view parsed = .ok job)
    (hw : Write.Runs tree job.writes tree') : prepare tree'.view parsed = .ok job := by
  have hs := hw.sameDirectories
  refine prepare_eq_ok_of_reads hp (fun _ _ => hs.isDirectory) ?_
  intro source hm bytes hr
  refine hs.read hr fun location hl => hw.kept ?_
  intro write hmw ht
  have hmt : write.path ∈ targets tree.view parsed := map_path_writes hp ▸ List.mem_map_of_mem hmw
  exact h _ hmt _ hm ⟨location, ht, hl⟩

-- The second run finds the files that the first one found, and ends in the tree that it left.
theorem run_again (ha : Arguments.parse? args = some parsed) (hn : parsed.IsApart tree)
    (he : (run args tree).1.exitCode = 0) : run args (run args tree).2 = run args tree := by
  have h := ends_run args tree
  generalize run args tree = result at h he ⊢
  obtain ⟨outcome, tree'⟩ := result
  cases h with
  | stopped ha' => cases ha'.symm.trans (Arguments.parse?_eq_some_iff.mp ha)
  | unprepared | brokenOff => cases he
  | done ha' hp hw =>
    cases ha.symm.trans ha'
    exact run_of_ends (.done ha (prepare_of_runs hn hp hw) hw.again)

-- Both entries write to the same file, and the second one has the last word in either run.
def rewritingPlan : String :=
  "[[generate]]\nsource='a.csv'\ntarget='a.rs'\n" ++
  "[[generate]]\nsource='a.csv'\ntarget='./a.rs'\nformat='cpp'\n"

theorem readPlan_rewritingPlan : readPlan (workspace rewritingPlan).view "plan.toml" =
    .ok [⟨"a.csv", "a.rs", none⟩, ⟨"a.csv", "./a.rs", some "cpp"⟩] :=
  readPlan_eq_ok_iff.mpr ⟨isDirectory_workspace _, _, readText_workspace _, rfl⟩

theorem targets_rewritingPlan : targets (workspace rewritingPlan).view ⟨"plan.toml", .rust, none⟩ =
    ["a.rs", "./a.rs"] :=
  @targets_of_plan _ ⟨"plan.toml", .rust, none⟩ _ rfl readPlan_rewritingPlan

theorem target_rewritingPlan : ∀ target ∈ ["a.rs", "./a.rs"],
    (workspace rewritingPlan).target target = .ok ["a.rs"] := by
  simp only [List.forall_mem_cons]
  exact ⟨rfl, rfl, nofun⟩

theorem isApart_rewritingPlan :
    Arguments.IsApart ⟨"plan.toml", .rust, none⟩ (workspace rewritingPlan) := by
  have hs : sources (workspace rewritingPlan).view ⟨"plan.toml", .rust, none⟩ =
      ["a.csv", "a.csv"] :=
    @sources_of_plan _ ⟨"plan.toml", .rust, none⟩ _ rfl readPlan_rewritingPlan
  have hn : ∀ source ∈ ["plan.toml", "a.csv", "a.csv"],
      (workspace rewritingPlan).locate source ≠ .ok ["a.rs"] := by
    simp only [List.forall_mem_cons]
    exact ⟨nofun, nofun, nofun, nofun⟩
  rintro target hm source hm' ⟨location, h, h'⟩
  rw [targets_rewritingPlan] at hm
  rw [hs] at hm'
  cases (target_rewritingPlan target hm).symm.trans h
  exact hn source hm' h'

theorem run_rewritingPlan : (run ["plan.toml"] (workspace rewritingPlan)).1.exitCode = 0 := by
  have ⟨writes, hw⟩ : ∃ writes, List.Forall₂ (Prepares (workspace rewritingPlan).view)
      [⟨"a.csv", "a.rs", none⟩, ⟨"a.csv", "./a.rs", some "cpp"⟩] writes :=
    ⟨_, .cons (prepares_workspace _ _ rfl) (.cons (prepares_workspace _ _ rfl) .nil)⟩
  have hp : prepare (workspace rewritingPlan).view ⟨"plan.toml", .rust, none⟩ = .ok { writes } :=
    (prepare_eq_ok_iff_of_plan rfl).mpr ⟨_, readPlan_rewritingPlan, writes, hw, rfl⟩
  have ⟨tree', hr⟩ : ∃ tree', Write.Runs (workspace rewritingPlan) writes tree' := by
    refine Write.Runs.exists_iff.mpr fun write hm => ⟨_, target_rewritingPlan write.path ?_⟩
    rw [← targets_rewritingPlan, ← map_path_writes hp]
    exact List.mem_map_of_mem hm
  rw [run_of_ends (.done rfl hp hr)]
  rfl

theorem run_again_rewritingPlan :
    Arguments.IsApart ⟨"plan.toml", .rust, none⟩ (workspace rewritingPlan) ∧
    (run ["plan.toml"] (workspace rewritingPlan)).1.exitCode = 0 ∧
    run ["plan.toml"] (run ["plan.toml"] (workspace rewritingPlan)).2 =
      run ["plan.toml"] (workspace rewritingPlan) :=
  ⟨isApart_rewritingPlan, run_rewritingPlan,
    run_again rfl isApart_rewritingPlan run_rewritingPlan⟩

end Command
end TagRegistry
