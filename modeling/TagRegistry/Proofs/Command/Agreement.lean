import TagRegistry.Proofs.Command
import TagRegistry.Proofs.Command.Arguments

namespace TagRegistry.Command

variable {args args' : List String} {view : View} {tree : Tree} {parsed parsed' : Arguments}
  {input output name code : String} {format : Format} {report : Report} {write : Write}

-- How a command ends that has only one file to write.
inductive Writes (tree : Tree) (write : Write) : Outcome × Tree → Prop
  | done {location : Location} {tree' : Tree} :
    tree.target write.path = .ok location →
      tree'.get? location = some (.file (Text.utf8 write.text)) →
      (∀ location', location' ≠ location → tree'.get? location' = tree.get? location') →
      Writes tree write (.done "", tree')
  | failed {cause : Tree.Error} :
    tree.target write.path = .error cause →
      Writes tree write (.failed (write.failure cause).message, tree)

theorem writes_of_prepare (ha : Arguments.parse? args = some parsed)
    (hp : prepare tree.view parsed = .ok { writes := [write] }) :
    Writes tree write (run args tree) := by
  cases ht : tree.target write.path with
  | ok location =>
    have hw := Write.run_eq_ok_iff.mpr ⟨location, ht, rfl⟩
    rw [run_of_ends (.done ha hp (.cons hw (.nil _)))]
    exact .done ht (Tree.get?_set_self _ _ (Tree.ne_nil_of_target ht))
      fun _ hl => Tree.get?_set_of_ne _ _ hl
  | error cause =>
    have hw := Write.run_eq_error_iff.mpr ⟨cause, ht, rfl⟩
    rw [run_of_ends (@Ends.brokenOff _ _ _ _ [] _ _ _ _ ha hp rfl (.nil _) hw)]
    exact .failed ht

-- Commands that come to the same job end in the same way.
theorem run_congr (ha : Arguments.parse? args = some parsed)
    (ha' : Arguments.parse? args' = some parsed')
    (hp : prepare tree.view parsed = prepare tree.view parsed') :
    run args tree = run args' tree := by
  simp only [run, Arguments.parse?_eq_some_iff.mp ha, Arguments.parse?_eq_some_iff.mp ha', hp]

section

variable (hn : isPlan input = false)

include hn

theorem prepare_of_generateFile (hg : generateFile view input format = .ok code) :
    prepare view ⟨input, format, none⟩ = .ok { stdout := code } :=
  (@prepare_eq_ok_iff_of_registry view ⟨input, format, none⟩ _ hn).mpr ⟨code, hg, rfl⟩

theorem prepare_output_of_generateFile (hg : generateFile view input format = .ok code) :
    prepare view ⟨input, format, some output⟩ = .ok { writes := [⟨output, code⟩] } :=
  (@prepare_eq_ok_iff_of_registry view ⟨input, format, output⟩ _ hn).mpr ⟨code, hg, rfl⟩

theorem prepare_of_generateFile_error {target : Option String}
    (hg : generateFile view input format = .error report) :
    prepare view ⟨input, format, target⟩ = .error (.report report) :=
  (@prepare_eq_error_iff_of_registry view ⟨input, format, target⟩ _ hn).mpr ⟨report, hg, rfl⟩

-- A plan of one entry asks for nothing else than the arguments that name the same files.
theorem prepare_of_single_entry (hi : isPlan parsed.input) (hf : Format.ofName name = .ok format)
    (hr : readPlan view parsed.input = .ok [⟨input, output, some name⟩]) :
    prepare view parsed = prepare view ⟨input, format, some output⟩ := by
  cases hg : generateFile view input format with
  | ok code =>
    rw [prepare_output_of_generateFile hn hg]
    have hp : Prepares view ⟨input, output, some name⟩ ⟨output, code⟩ := ⟨rfl, format, hf, hg⟩
    exact (prepare_eq_ok_iff_of_plan hi).mpr ⟨_, hr, _, .cons hp .nil, rfl⟩
  | error report =>
    rw [prepare_of_generateFile_error hn hg]
    have hp : Refuses view ⟨input, output, some name⟩ (.report report) := .registry hf hg
    exact (prepare_eq_error_iff_of_plan hi).mpr (.inr ⟨_, hr, [], _, [], rfl, nofun, hp⟩)

end

-- The plan may be anywhere, and be what is written to in the end.
theorem run_of_single_entry {text : String} (hi : IsPlain input) (ho : IsPlain output)
    (hn : isPlan input = false) (hf : Format.ofName name = .ok format)
    (hd : ∀ name ∈ landmarks, tree.isDirectory name) (ha : Arguments.parse? args = some parsed)
    (hp : isPlan parsed.input) (ht : tree.view.readText parsed.input = .ok text)
    (he : Plan.parse? text = some [⟨input, output, some name⟩]) :
    (∀ code, (run [input, "-f", name] tree).1 = .done code →
      (run [input, "-f", name] tree).2 = tree ∧
      Writes tree ⟨output, code⟩ (run [input, "-f", name, "-o", output] tree) ∧
      run args tree = run [input, "-f", name, "-o", output] tree) ∧
    ((run [input, "-f", name] tree).1.exitCode ≠ 0 → ∃ message,
      run [input, "-f", name] tree = (.failed message, tree) ∧
      run [input, "-f", name, "-o", output] tree = (.failed message, tree) ∧
      run args tree = (.failed message, tree)) := by
  have hs := Arguments.parse?_format hi hf
  have hw := Arguments.parse?_format_output hi hf ho
  have hr := readPlan_eq_ok_iff.mpr ⟨hd, text, ht, he⟩
  have hc : run args tree = run [input, "-f", name, "-o", output] tree :=
    run_congr ha hw (prepare_of_single_entry hn hp hf hr)
  cases hg : generateFile tree.view input format with
  | ok code =>
    rw [run_of_ends (.done hs (prepare_of_generateFile hn hg) (.nil tree))]
    refine ⟨?_, fun h => absurd rfl h⟩
    rintro _ ⟨⟩
    exact ⟨rfl, writes_of_prepare hw (prepare_output_of_generateFile hn hg), hc⟩
  | error report =>
    rw [hc, run_of_ends (.unprepared hs (prepare_of_generateFile_error hn hg)),
      run_of_ends (.unprepared hw (prepare_of_generateFile_error hn hg))]
    exact ⟨nofun, fun _ => ⟨_, rfl, rfl, rfl⟩⟩

def singlePlan : String :=
  "[[generate]]\nsource='a.csv'\ntarget='a.hpp'\nformat='cpp'\n"

theorem run_singlePlan :
    ∃ code, (run ["a.csv", "-f", "cpp"] (workspace singlePlan)).1 = .done code ∧
      Writes (workspace singlePlan) ⟨"a.hpp", code⟩ (run ["plan.toml"] (workspace singlePlan)) := by
  have ⟨hc, _⟩ := @run_of_single_entry ["plan.toml"] _ _ "a.csv" "a.hpp" "cpp" _ _
    ⟨by decide, by decide⟩ ⟨by decide, by decide⟩ rfl rfl (isDirectory_workspace singlePlan) rfl rfl
    (readText_workspace singlePlan) rfl
  have ⟨code, hs⟩ :
      ∃ code, (run ["a.csv", "-f", "cpp"] (workspace singlePlan)).1 = .done code := by
    have ⟨_, hf, hg⟩ := (prepares_workspace singlePlan "a.hpp"
      (show Format.choose (some "cpp") = .ok .cpp from rfl)).text_eq
    cases hf
    rw [run_of_ends (.done rfl (prepare_of_generateFile rfl hg) (.nil _))]
    exact ⟨_, rfl⟩
  have ⟨_, hw, hr⟩ := hc code hs
  exact ⟨code, hs, hr ▸ hw⟩

end TagRegistry.Command
