import TagRegistry.Command
import TagRegistry.Proofs.Command.Arguments
import TagRegistry.Proofs.Command.Job
import TagRegistry.Proofs.Declaration
import TagRegistry.Proofs.Generation
import TagRegistry.Proofs.Output

namespace TagRegistry.Command

variable {args : List String} {tree tree' : Tree} {outcome : Outcome}

-- The ends that a command can come to. Only a job that has been prepared gets to the tree.
inductive Ends (args : List String) (tree : Tree) : Outcome → Tree → Prop
  | stopped {stop : Stop} : Arguments.parse args = .error stop → Ends args tree (.stopped stop) tree
  | unprepared {parsed : Arguments} {failure : Failure} :
    Arguments.parse? args = some parsed → prepare tree.view parsed = .error failure →
      Ends args tree (.failed failure.message) tree
  | done {parsed : Arguments} {job : Job} {tree' : Tree} :
    Arguments.parse? args = some parsed → prepare tree.view parsed = .ok job →
      Write.Runs tree job.writes tree' → Ends args tree (.done job.stdout) tree'
  | brokenOff {parsed : Arguments} {job : Job} {before after : List Write} {write : Write}
      {report : Report} {tree' : Tree} :
    Arguments.parse? args = some parsed → prepare tree.view parsed = .ok job →
      job.writes = before ++ write :: after → Write.Runs tree before tree' →
      write.run tree' = .error report → Ends args tree (.failed report.message) tree'

theorem ends_run (args : List String) (tree : Tree) :
    Ends args tree (run args tree).1 (run args tree).2 := by
  rw [run]
  split
  case h_1 stop ha => exact .stopped ha
  case h_2 parsed ha =>
    have ha := Arguments.parse?_eq_some_iff.mpr ha
    split
    case h_1 failure hp => exact .unprepared ha hp
    case h_2 job hp =>
      split
      case h_1 tree' hw => exact .done ha hp (Write.runAll_eq_none_iff.mp hw)
      case h_2 report tree' hw =>
        have ⟨before, write, after, hs, hb, he⟩ := Write.runAll_eq_some_iff.mp hw
        exact .brokenOff ha hp hs hb he

theorem run_of_ends (h : Ends args tree outcome tree') : run args tree = (outcome, tree') := by
  rw [run]
  cases h with
  | stopped ha => rw [ha]
  | unprepared ha hp => simp only [Arguments.parse?_eq_some_iff.mp ha, hp]
  | done ha hp hw =>
    simp only [Arguments.parse?_eq_some_iff.mp ha, hp, Write.runAll_eq_none_iff.mpr hw]
  | brokenOff ha hp hs hb he =>
    simp only [Arguments.parse?_eq_some_iff.mp ha, hp,
      Write.runAll_eq_some_iff.mpr ⟨_, _, _, hs, hb, he⟩]

-- A notice is given as soon as it is met, and is lost only behind a mistake.
theorem run_of_notice {before rest : List String} {text : String} {given : Given} {notice : Notice}
    (hs : ∀ word ∈ before, Word.ofText word ≠ .separator)
    (hb : Given.addAll {} before = .ok given) (hn : Word.ofText text = .notice notice)
    (tree : Tree) : run (before ++ text :: rest) tree = (.stopped (.notice notice), tree) := by
  have hp : Arguments.parse (before ++ text :: rest) = .error (.notice notice) := by
    rw [Arguments.parse, Given.addAll_append hs hb, Given.addAll, hn]
    rfl
  rw [run, hp]

-- Some of a plan's writes went well, and the next one failed.
inductive BrokenOff (args : List String) (tree : Tree) : Outcome → Tree → Prop
  | intro {parsed : Arguments} {plan : Plan} {before after : List Write} {write : Write}
      {report : Report} {tree' : Tree} :
    Arguments.parse? args = some parsed → isPlan parsed.input →
      readPlan tree.view parsed.input = .ok plan →
      List.Forall₂ (Prepares tree.view) plan (before ++ write :: after) → before ≠ [] →
      Write.Runs tree before tree' → write.run tree' = .error report →
      BrokenOff args tree (.failed report.message) tree'

-- A command that fails prints nothing, and leaves the tree as it was unless it has broken off a
-- plan between two writes.
theorem unchanged_or_brokenOff (h : (run args tree).1.exitCode ≠ 0) :
    (run args tree).1.stdout = "" ∧
      ((run args tree).2 = tree ∨ BrokenOff args tree (run args tree).1 (run args tree).2) := by
  have he := ends_run args tree
  generalize run args tree = result at h he
  obtain ⟨outcome, tree'⟩ := result
  cases he with
  | stopped | unprepared => exact ⟨rfl, .inl rfl⟩
  | done => exact absurd rfl h
  | @brokenOff parsed job before after write _ _ ha hp hs hb he =>
    refine ⟨rfl, ?_⟩
    by_cases hn : before = []
    case pos =>
      subst hn
      exact .inl (Write.runs_nil_iff.mp hb).symm
    case neg =>
      have hl : ¬job.writes.length ≤ 1 := by
        have := List.length_pos_of_ne_nil hn
        simp [hs]
        omega
      have hi : isPlan parsed.input := by
        by_contra hi
        exact hl (length_writes_le (by simpa using hi) hp)
      obtain ⟨plan, hr, writes, hw, hj⟩ := (prepare_eq_ok_iff_of_plan hi).mp hp
      subst hj
      cases hs
      exact .inr (.intro ha hi hr hw hn hb he)

-- A place to run a plan in.
def workspace (plan : String) : Tree where
  entries := [
    (["feature-registry"], .directory),
    (["resources"], .directory),
    (["a.csv"], .file (Text.utf8 "frac,Fractions,1\n")),
    (["plan.toml"], .file (Text.utf8 plan))]

theorem isDirectory_workspace (text : String) :
    ∀ name ∈ landmarks, (workspace text).isDirectory name := by
  intro name hn
  simp only [landmarks, List.mem_cons, List.not_mem_nil, or_false] at hn
  rcases hn with rfl | rfl <;> rfl

theorem readText_workspace (text : String) :
    (workspace text).view.readText "plan.toml" = .ok text :=
  View.readText_eq_ok_iff.mpr rfl

theorem prepares_workspace (text target : String) {name : Option String} {format : Format}
    (hf : Format.choose name = .ok format) :
    Prepares (workspace text).view ⟨"a.csv", target, name⟩
      ⟨target, Declaration.text format "a.csv" [⟨0x66, 0x72, 0x61, 0x63⟩]⟩ where
  path_eq := rfl
  text_eq := by
    have hr : Table.read (.ofText "frac,Fractions,1\n") =
        [.ok ⟨1, "frac", "Fractions", some "1"⟩] :=
      @Table.Record.map_row_of_fields_eq _ [(⟨1, 0, 0⟩, ["frac", "Fractions", "1"])] (by decide)
    have ht : (workspace text).view.readText "a.csv" = .ok "frac,Fractions,1\n" :=
      View.readText_eq_ok_iff.mpr rfl
    refine ⟨format, hf, ?_⟩
    rw [generateFile_of_readText ht, generate, generateFrom, compileSource, hr]
    rfl

-- The second of these entries has nowhere to go, and the first is written before that shows.
def halfPlan : String :=
  "[[generate]]\nsource='a.csv'\ntarget='a.rs'\n" ++
  "[[generate]]\nsource='a.csv'\ntarget='missing/a.rs'\n"

theorem run_halfPlan : ∃ tree', run ["plan.toml"] (workspace halfPlan) =
    (.failed "error writing 'missing/a.rs': No such file or directory (os error 2)", tree') ∧
      tree' ≠ workspace halfPlan := by
  have hr : readPlan (workspace halfPlan).view "plan.toml" =
      .ok [⟨"a.csv", "a.rs", none⟩, ⟨"a.csv", "missing/a.rs", none⟩] :=
    readPlan_eq_ok_iff.mpr ⟨isDirectory_workspace _, _, readText_workspace _, rfl⟩
  have hp : prepare (workspace halfPlan).view ⟨"plan.toml", .rust, none⟩ = .ok _ :=
    (prepare_eq_ok_iff_of_plan rfl).mpr ⟨_, hr, _,
      .cons (prepares_workspace _ _ rfl) (.cons (prepares_workspace _ _ rfl) .nil), rfl⟩
  have hb : (workspace halfPlan).target "a.rs" = .ok ["a.rs"] := rfl
  have he (bytes : Bytes) :
      ((workspace halfPlan).set ["a.rs"] (.file bytes)).target "missing/a.rs" =
        .error .notFound := rfl
  refine ⟨_, run_of_ends (@Ends.brokenOff _ _ _ _ [_] _ _ _ _ rfl hp rfl
    (.cons (Write.run_eq_ok_iff.mpr ⟨_, hb, rfl⟩) (.nil _))
    (Write.run_eq_error_iff.mpr ⟨_, he _, rfl⟩)), ?_⟩
  intro h
  have hn : (workspace halfPlan).get? ["a.rs"] = none := rfl
  rw [← h, Tree.get?_set_self _ _ (List.cons_ne_nil _ _)] at hn
  cases hn

theorem changed_by_halfPlan :
    (run ["plan.toml"] (workspace halfPlan)).1 =
      .failed "error writing 'missing/a.rs': No such file or directory (os error 2)" ∧
    (run ["plan.toml"] (workspace halfPlan)).2 ≠ workspace halfPlan := by
  have ⟨_, hr, hn⟩ := run_halfPlan
  rw [hr]
  exact ⟨rfl, hn⟩

theorem brokenOff_halfPlan :
    (run ["plan.toml"] (workspace halfPlan)).1.exitCode ≠ 0 ∧
    (run ["plan.toml"] (workspace halfPlan)).1.stdout = "" ∧
    BrokenOff ["plan.toml"] (workspace halfPlan) (run ["plan.toml"] (workspace halfPlan)).1
      (run ["plan.toml"] (workspace halfPlan)).2 := by
  have ⟨tree', hr, hn⟩ := run_halfPlan
  have hc : (run ["plan.toml"] (workspace halfPlan)).1.exitCode ≠ 0 := by
    rw [hr]
    exact Nat.one_ne_zero
  have ⟨hs, ht⟩ := unchanged_or_brokenOff hc
  refine ⟨hc, hs, ht.resolve_left ?_⟩
  rw [hr]
  exact hn

section

variable {parsed : Arguments} {plan : Plan} {writes : List Write}

theorem run_of_refuses (ha : Arguments.parse? args = some parsed) (hi : isPlan parsed.input)
    (hr : readPlan tree.view parsed.input = .ok plan)
    (hf : ∃ entry ∈ plan, ∃ failure, Refuses tree.view entry failure) :
    ∃ before entry after failure, plan = before ++ entry :: after ∧
      (∀ earlier ∈ before, ∃ write, Prepares tree.view earlier write) ∧
      Refuses tree.view entry failure ∧ run args tree = (.failed failure.message, tree) := by
  have ⟨entry, hm, failure, hf⟩ := hf
  cases hp : prepare tree.view parsed with
  | ok job =>
    have ⟨plan', hr', writes, hw, _⟩ := (prepare_eq_ok_iff_of_plan hi).mp hp
    cases hr.symm.trans hr'
    have hw := exists_forall₂_prepares_iff.mp ⟨writes, hw⟩ entry hm
    exact absurd hf (exists_prepares_iff.mp hw failure)
  | error failure =>
    rcases (prepare_eq_error_iff_of_plan hi).mp hp with hr' | ⟨plan', hr', hs⟩
    · cases hr.symm.trans hr'
    · cases hr.symm.trans hr'
      have ⟨before, entry, after, hs, hb, hf⟩ := hs
      exact ⟨before, entry, after, failure, hs, hb, hf, run_of_ends (.unprepared ha hp)⟩

theorem run_of_prepares (ha : Arguments.parse? args = some parsed) (hi : isPlan parsed.input)
    (hr : readPlan tree.view parsed.input = .ok plan)
    (hw : List.Forall₂ (Prepares tree.view) plan writes) :
    (∃ tree', Write.Runs tree writes tree' ∧ run args tree = (.done "", tree')) ∨
      ∃ before write after report tree', writes = before ++ write :: after ∧
        Write.Runs tree before tree' ∧ write.run tree' = .error report ∧
        run args tree = (.failed report.message, tree') := by
  have hp : prepare tree.view parsed = .ok { writes } :=
    (prepare_eq_ok_iff_of_plan hi).mpr ⟨plan, hr, writes, hw, rfl⟩
  rcases hx : Write.runAll tree writes with ⟨_ | report, tree'⟩
  · have hx := Write.runAll_eq_none_iff.mp hx
    exact .inl ⟨tree', hx, run_of_ends (.done ha hp hx)⟩
  · have ⟨before, write, after, hs, hb, he⟩ := Write.runAll_eq_some_iff.mp hx
    exact .inr ⟨before, write, after, report, tree', hs, hb, he,
      run_of_ends (.brokenOff ha hp hs hb he)⟩

end

-- All that is written comes from the tree as it was before the first write, and nothing is written
-- if an entry is refused. The writes are made in order, up to the first that fails.
theorem run_of_plan {parsed : Arguments} {text : String} {plan : Plan}
    (ha : Arguments.parse? args = some parsed) (hi : isPlan parsed.input)
    (hd : ∀ name ∈ landmarks, tree.isDirectory name)
    (ht : tree.view.readText parsed.input = .ok text) (hp : Plan.parse? text = some plan) :
    ((∃ entry ∈ plan, ∃ failure, Refuses tree.view entry failure) →
      ∃ before entry after failure, plan = before ++ entry :: after ∧
        (∀ earlier ∈ before, ∃ write, Prepares tree.view earlier write) ∧
        Refuses tree.view entry failure ∧ run args tree = (.failed failure.message, tree)) ∧
    ((∀ entry ∈ plan, ∀ failure, ¬Refuses tree.view entry failure) →
      ∃ writes, List.Forall₂ (Prepares tree.view) plan writes ∧
        ((run args tree).1.exitCode = 0 ↔
          ∀ write ∈ writes, ∃ location, tree.target write.path = .ok location) ∧
        ((∃ tree', Write.Runs tree writes tree' ∧ Write.Leaves tree writes tree' ∧
            run args tree = (.done "", tree')) ∨
          ∃ before write after report tree', writes = before ++ write :: after ∧
            Write.Runs tree before tree' ∧ Write.Leaves tree before tree' ∧
            write.run tree' = .error report ∧
            run args tree = (.failed report.message, tree'))) := by
  have hr : readPlan tree.view parsed.input = .ok plan := readPlan_eq_ok_iff.mpr ⟨hd, text, ht, hp⟩
  refine ⟨run_of_refuses ha hi hr, fun hf => ?_⟩
  have ⟨writes, hw⟩ := exists_forall₂_prepares_iff.mpr fun entry hm =>
    exists_prepares_iff.mpr (hf entry hm)
  refine ⟨writes, hw, ?_⟩
  rcases run_of_prepares ha hi hr hw with
    ⟨tree', hx, he⟩ | ⟨before, write, after, report, tree', hs, hb, hf, he⟩
  case inl =>
    rw [he]
    exact ⟨iff_of_true rfl (Write.Runs.exists_iff.mp ⟨tree', hx⟩), .inl ⟨tree', hx, hx.leaves, rfl⟩⟩
  case inr =>
    have hn : ¬∀ write ∈ writes, ∃ location, tree.target write.path = .ok location :=
      fun h => hb.not_exists_target hf (h write (by simp [hs]))
    rw [he]
    exact ⟨iff_of_false Nat.one_ne_zero hn,
      .inr ⟨before, write, after, report, tree', hs, hb, hb.leaves, hf, rfl⟩⟩

-- The registry of the second entry is what the first entry writes to, and what it writes to itself.
def aliasPlan : String :=
  "[[generate]]\nsource='a.csv'\ntarget='a.csv'\n" ++
  "[[generate]]\nsource='a.csv'\ntarget='./a.csv'\nformat='cpp'\n"

theorem run_aliasPlan :
    Plan.parse? aliasPlan = some [⟨"a.csv", "a.csv", none⟩, ⟨"a.csv", "./a.csv", some "cpp"⟩] ∧
    ∃ tree', run ["plan.toml"] (workspace aliasPlan) = (.done "", tree') ∧
      tree'.get? ["a.csv"] = some (.file (Text.utf8
        (Declaration.text .cpp "a.csv" [⟨0x66, 0x72, 0x61, 0x63⟩]))) := by
  have hp : Plan.parse? aliasPlan =
      some [⟨"a.csv", "a.csv", none⟩, ⟨"a.csv", "./a.csv", some "cpp"⟩] := rfl
  have hr := prepares_workspace aliasPlan "a.csv" (show Format.choose none = .ok .rust from rfl)
  have hc := prepares_workspace aliasPlan "./a.csv"
    (show Format.choose (some "cpp") = .ok .cpp from rfl)
  have ⟨_, h⟩ := @run_of_plan ["plan.toml"] _ _ _ _ rfl rfl (isDirectory_workspace aliasPlan)
    (readText_workspace aliasPlan) hp
  obtain ⟨writes, hw, hx, h⟩ := h (by
    simp only [List.forall_mem_cons, ← exists_prepares_iff]
    exact ⟨⟨_, hr⟩, ⟨_, hc⟩, nofun⟩)
  cases List.right_unique_forall₂' (rightUnique_prepares _) hw (.cons hr (.cons hc .nil))
  have ht : (workspace aliasPlan).target "a.csv" = .ok ["a.csv"] := rfl
  have ht' : (workspace aliasPlan).target "./a.csv" = .ok ["a.csv"] := rfl
  have he := hx.mpr (by
    simp only [List.forall_mem_cons]
    exact ⟨⟨_, ht⟩, ⟨_, ht'⟩, nofun⟩)
  rcases h with ⟨tree', _, hl, h⟩ | ⟨_, _, _, _, _, _, _, _, _, h⟩
  · have hg := hl.written [_] _ [] _ rfl ht' nofun
    exact ⟨hp, tree', h, hg⟩
  · rw [h] at he
    cases he

end TagRegistry.Command
