import Mathlib.Data.List.Chain
import TagRegistry.Operation
import TagRegistry.Proofs.Command
import TagRegistry.Proofs.Command.Files

namespace TagRegistry

open Text (utf8)

-- What time may do to a tree. Files may only change where `named` holds, and may only be given the
-- bytes that `given` holds of.
structure Tree.Evolves (named : Location → Prop) (given : Bytes → Prop) (tree tree' : Tree) :
    Prop where
  directories : Tree.SameDirectories tree tree'
  files : ∀ location bytes, tree.get? location = some (.file bytes) →
    ∃ bytes', tree'.get? location = some (.file bytes')
  kept : ∀ location, ¬named location → tree'.get? location = tree.get? location
  contents : ∀ location bytes, tree'.get? location = some (.file bytes) →
    tree.get? location = some (.file bytes) ∨ given bytes

namespace Tree.Evolves

variable {named : Location → Prop} {given : Bytes → Prop} {tree tree' tree'' : Tree}

theorem refl (tree : Tree) : Evolves named given tree tree where
  directories := .refl tree
  files _ bytes h := ⟨bytes, h⟩
  kept _ _ := rfl
  contents _ _ h := .inl h

theorem trans (h₁ : Evolves named given tree tree') (h₂ : Evolves named given tree' tree'') :
    Evolves named given tree tree'' where
  directories := h₁.directories.trans h₂.directories
  files location bytes h := by
    have ⟨bytes', h⟩ := h₁.files location bytes h
    exact h₂.files location bytes' h
  kept location h := by rw [h₂.kept location h, h₁.kept location h]
  contents location bytes h := by
    cases h₂.contents location bytes h with
    | inl h => exact h₁.contents location bytes h
    | inr h => exact .inr h

theorem of_run {write : Write} (hr : write.run tree = .ok tree')
    (hn : ∀ location, tree.target write.path = .ok location → named location)
    (hg : given (utf8 write.text)) : Evolves named given tree tree' := by
  have hd := Write.sameDirectories_of_run hr
  obtain ⟨place, ht, rfl⟩ := Write.run_eq_ok_iff.mp hr
  have hs := tree.get?_set_self (.file (utf8 write.text)) (Tree.ne_nil_of_target ht)
  refine ⟨hd, ?files, ?kept, ?contents⟩
  case files =>
    intro location bytes h
    by_cases hl : location = place
    case pos => exact ⟨_, by rw [hl, hs]⟩
    case neg => exact ⟨bytes, by rw [Tree.get?_set_of_ne _ _ hl, h]⟩
  case kept =>
    intro location h
    have hl : location ≠ place := fun he => h (he ▸ hn place ht)
    exact Tree.get?_set_of_ne _ _ hl
  case contents =>
    intro location bytes h
    by_cases hl : location = place
    case pos =>
      subst hl
      rw [hs] at h
      cases h
      exact .inr hg
    case neg => exact .inl (by rwa [Tree.get?_set_of_ne _ _ hl] at h)

end Tree.Evolves

namespace Write

variable {named : Location → Prop} {given : Bytes → Prop}

-- The trees that there are from before the first of the writes to the end.
def course (tree : Tree) : List Write → List Tree
  | [] => [tree]
  | write :: rest =>
    match write.run tree with
    | .error _ => [tree]
    | .ok tree' => tree :: course tree' rest

theorem head?_course (tree : Tree) (writes : List Write) :
    (course tree writes).head? = some tree := by
  cases writes with
  | nil => rfl
  | cons write writes =>
    rw [course]
    split <;> rfl

theorem getLast?_course (tree : Tree) (writes : List Write) :
    (course tree writes).getLast? = some (runAll tree writes).2 := by
  induction writes generalizing tree with
  | nil => rfl
  | cons write writes hi =>
    cases hr : write.run tree with
    | error => simp [course, runAll, hr]
    | ok tree' => simp [course, runAll, hr, List.getLast?_cons, hi]

theorem isChain_course {tree : Tree} {writes : List Write}
    (hn : ∀ write ∈ writes, ∀ location, tree.target write.path = .ok location → named location)
    (hg : ∀ write ∈ writes, given (utf8 write.text)) :
    (course tree writes).IsChain (Tree.Evolves named given) := by
  induction writes generalizing tree with
  | nil => exact .singleton _
  | cons write writes hi =>
    rw [List.forall_mem_cons] at hn hg
    rw [course]
    split
    case h_1 => exact .singleton _
    case h_2 tree' hr =>
      have he := Tree.Evolves.of_run hr hn.left hg.left
      have hn' : ∀ write ∈ writes, ∀ location, tree'.target write.path = .ok location →
          named location :=
        fun write hm location ht => hn.right write hm location (he.directories.target_iff.mpr ht)
      refine List.isChain_cons.mpr ⟨?_, hi hn' hg.right⟩
      rw [head?_course]
      rintro _ ⟨⟩
      exact he

end Write

-- The job that a command comes to, if it comes to one.
def Command.job? (view : View) (args : List String) : Option Job := do
  (prepare view (← Arguments.parse? args)).toOption

theorem Command.run_snd (args : List String) (tree : Tree) :
    (run args tree).2 = (Write.runAll tree ((job? tree.view args).elim [] Job.writes)).2 := by
  have h := ends_run args tree
  generalize run args tree = result at h ⊢
  obtain ⟨outcome, tree'⟩ := result
  cases h with
  | stopped ha => simp [job?, Arguments.parse?, ha, Except.toOption, Write.runAll]
  | unprepared ha hp => simp [job?, ha, hp, Except.toOption, Write.runAll]
  | done ha hp hw => simp [job?, ha, hp, Except.toOption, Write.runAll_eq_none_iff.mpr hw]
  | brokenOff ha hp hs hb he =>
    simp [job?, ha, hp, Except.toOption, Write.runAll_eq_some_iff.mpr ⟨_, _, _, hs, hb, he⟩]

namespace Operation

variable {tree tree' : Tree} {operation : Operation} {operations : List Operation}
  {location : Location} {bytes : Bytes}

-- The writes of an operation in their order, whether or not they succeed.
def writes (tree : Tree) : Operation → List Write
  | .read _ | .compile _ | .generate .. => []
  | .generateTo source target format =>
    (TagRegistry.generateTo tree.view source target format).toOption.toList
  | .write job => [job]
  | .command args => (Command.job? tree.view args).elim [] Command.Job.writes

theorem runWrite_snd (tree : Tree) (write : Except Report Write) :
    (runWrite tree write).2 = (Write.runAll tree write.toOption.toList).2 := by
  cases write with
  | error => rfl
  | ok write =>
    cases hr : write.run tree <;>
      simp [runWrite, Write.runAll, bind, Except.bind, Except.toOption, hr]

-- An operation does to a tree what its writes do.
theorem run_snd (tree : Tree) (operation : Operation) :
    (operation.run tree).2 = (Write.runAll tree (operation.writes tree)).2 := by
  cases operation with
  | read | compile | generate => rfl
  | generateTo source target format => exact runWrite_snd ..
  | write job => exact runWrite_snd tree (.ok job)
  | command args => exact Command.run_snd args tree

-- The paths that an operation names as targets.
def targets (tree : Tree) : Operation → List String
  | .read _ | .compile _ | .generate .. => []
  | .generateTo _ target _ => [target]
  | .write job => [job.path]
  | .command args => (Command.Arguments.parse? args).elim [] (Command.targets tree.view)

-- A write of an operation is one that has been generated, or one that was given.
theorem mem_writes_iff {write : Write} : write ∈ operation.writes tree ↔
    match operation with
    | .read _ | .compile _ | .generate .. => False
    | .generateTo source target format =>
      TagRegistry.generateTo tree.view source target format = .ok write
    | .write job => write = job
    | .command args => ∃ parsed job, Command.Arguments.parse? args = some parsed ∧
      Command.prepare tree.view parsed = .ok job ∧ write ∈ job.writes := by
  cases operation with
  | read | compile | generate => simp [writes]
  | generateTo source target format =>
    cases h : TagRegistry.generateTo tree.view source target format <;>
      simp [writes, h, Except.toOption, eq_comm]
  | write job => simp [writes]
  | command args =>
    cases ha : Command.Arguments.parse? args with
    | none => simp [writes, Command.job?, ha]
    | some parsed =>
      cases hp : Command.prepare tree.view parsed <;>
        simp [writes, Command.job?, ha, hp, Except.toOption]

theorem path_mem_targets {write : Write} (h : write ∈ operation.writes tree) :
    write.path ∈ operation.targets tree := by
  have h := mem_writes_iff.mp h
  cases operation with
  | read | compile | generate => cases h
  | generateTo source target format =>
    have ⟨hp, _⟩ := Command.generateTo_eq_ok_iff.mp h
    exact List.mem_singleton.mpr hp
  | write job => exact List.mem_singleton.mpr (h ▸ rfl)
  | command args =>
    obtain ⟨parsed, job, ha, hp, hm⟩ := h
    simp only [targets, ha, Option.elim, ← Command.map_path_writes hp]
    exact List.mem_map_of_mem hm

-- At some step an operation names the file at `location` as a target.
inductive IsTarget : Tree → List Operation → Location → Prop
  | head {tree : Tree} {operation : Operation} {operations : List Operation} {path : String}
      {location : Location} :
    path ∈ operation.targets tree → tree.target path = .ok location →
      IsTarget tree (operation :: operations) location
  | tail {tree : Tree} {operation : Operation} {operations : List Operation} {location : Location} :
    IsTarget (operation.run tree).2 operations location →
      IsTarget tree (operation :: operations) location

-- What operations may leave in a file.
inductive Puts (operations : List Operation) : Bytes → Prop
  | given {job : Write} : .write job ∈ operations → Puts operations (utf8 job.text)
  | declaration {registry name code : String} {format : Format} :
    TagRegistry.generate registry name format = .ok code → Puts operations (utf8 code)

theorem Puts.of_generateFile {source code : String} {format : Format}
    (h : generateFile tree.view source format = .ok code) : Puts operations (utf8 code) := by
  have ⟨_, _, hg⟩ := generateFile_eq_ok_iff.mp h
  exact .declaration hg

theorem Puts.of_mem_writes {write : Write} (h : write ∈ operation.writes tree)
    (hm : operation ∈ operations) : Puts operations (utf8 write.text) := by
  have h := mem_writes_iff.mp h
  cases operation with
  | read | compile | generate => cases h
  | generateTo source target format =>
    have ⟨_, hg⟩ := Command.generateTo_eq_ok_iff.mp h
    exact .of_generateFile hg
  | write job => exact h ▸ .given hm
  | command args =>
    obtain ⟨parsed, job, _, hp, hw⟩ := h
    have ⟨source, format, hg⟩ := Command.exists_generateFile_of_prepare hp write hw
    exact .of_generateFile hg

-- All trees that there are from the start of the operations to their end, in their order. The tree
-- between two operations is listed with either of them.
def moments (tree : Tree) : List Operation → List Tree
  | [] => [tree]
  | operation :: rest =>
    Write.course tree (operation.writes tree) ++ moments (operation.run tree).2 rest

theorem head?_moments (tree : Tree) (operations : List Operation) :
    (moments tree operations).head? = some tree := by
  cases operations with
  | nil => rfl
  | cons operation operations => simp [moments, List.head?_append, Write.head?_course]

theorem runAll_mem_moments {before : List Operation} (h : before <+: operations) :
    runAll tree before ∈ moments tree operations := by
  induction before generalizing tree operations with
  | nil => exact List.mem_of_head? (head?_moments tree operations)
  | cons operation before hi =>
    obtain ⟨after, rfl⟩ := h
    exact List.mem_append_right _ (hi (List.prefix_append before after))

-- One operation ends in the tree that the next one begins with.
theorem isChain_moments {named : Location → Prop} {given : Bytes → Prop}
    (hn : ∀ location, IsTarget tree operations location → named location)
    (hg : ∀ tree, ∀ operation ∈ operations, ∀ write ∈ operation.writes tree,
      given (utf8 write.text)) :
    (moments tree operations).IsChain (Tree.Evolves named given) := by
  induction operations generalizing tree with
  | nil => exact .singleton _
  | cons operation operations hi =>
    have hc : (Write.course tree (operation.writes tree)).IsChain (Tree.Evolves named given) :=
      Write.isChain_course (fun _ hm location ht => hn location (.head (path_mem_targets hm) ht))
        (hg tree operation List.mem_cons_self)
    have hr := hi (fun location ht => hn location (.tail ht))
      fun tree operation hm => hg tree operation (List.mem_cons_of_mem _ hm)
    refine hc.append hr ?_
    rw [Write.getLast?_course, head?_moments, run_snd]
    rintro _ ⟨⟩ _ ⟨⟩
    exact .refl _

theorem pairwise_evolves (tree : Tree) (operations : List Operation) :
    (moments tree operations).Pairwise
      (Tree.Evolves (IsTarget tree operations) (Puts operations)) := by
  have hc : (moments tree operations).IsChain
      (Tree.Evolves (IsTarget tree operations) (Puts operations)) :=
    isChain_moments (fun _ => id) fun _ _ hm _ hw => .of_mem_writes hw hm
  have : Trans (Tree.Evolves (IsTarget tree operations) (Puts operations))
    (Tree.Evolves (IsTarget tree operations) (Puts operations))
    (Tree.Evolves (IsTarget tree operations) (Puts operations)) := ⟨Tree.Evolves.trans⟩
  exact List.isChain_iff_pairwise.mp hc

-- Whatever there is in between, nothing else becomes of the first tree, nor of any tree later on.
theorem evolves_of_moments (tree : Tree) (operations : List Operation) :
    (∀ before, before <+: operations → runAll tree before ∈ moments tree operations) ∧
    (∀ tree' ∈ moments tree operations,
      Tree.Evolves (IsTarget tree operations) (Puts operations) tree tree') ∧
    (moments tree operations).Pairwise
      (Tree.Evolves (IsTarget tree operations) (Puts operations)) := by
  have hp := pairwise_evolves tree operations
  refine ⟨fun _ => runAll_mem_moments, ?_, hp⟩
  have ⟨rest, hm⟩ := List.head?_eq_some_iff.mp (head?_moments tree operations)
  rw [hm, List.pairwise_cons] at hp
  rw [hm, List.forall_mem_cons]
  exact ⟨.refl tree, hp.left⟩

end Operation
end TagRegistry
