import Mathlib.Tactic.ByContra
import TagRegistry.Command.Arguments
import TagRegistry.Proofs.FirstFailure

namespace TagRegistry.Command

variable {given given' : Given} {text value name input output : String} {rest : List String}
  {choice : Choice} {format : Format}

-- A path that cannot be taken for anything else.
structure IsPlain (text : String) : Prop where
  ne_empty : text ≠ ""
  head_ne : text.toList.head? ≠ some '-'

theorem IsPlain.isEmpty (h : IsPlain text) : text.isEmpty = false := by
  simpa using h.ne_empty

theorem Word.ofText_eq_input (h : text.toList.head? ≠ some '-') : ofText text = .input := by
  rw [ofText]
  split <;> simp_all

theorem Word.ofText_of_ofName (h : Format.ofName name = .ok format) : ofText name = .input := by
  have hw : ∀ name ∈ ["rust", "rs", "cpp", "cc", "c++"], ofText name = .input := by decide
  apply hw
  by_contra hn
  simp only [List.mem_cons, List.not_mem_nil, or_false, not_or] at hn
  simp [Format.ofName, hn] at h

namespace Given

theorem addAll_input (h : Word.ofText text = .input) (hg : given.addInput text = .ok given') :
    addAll given (text :: rest) = addAll given' rest := by
  rw [addAll, h]
  simp only [hg]
  rfl

theorem addAll_attached (h : Word.ofText text = .chosen choice (some value))
    (hg : given.add choice value = .ok given') :
    addAll given (text :: rest) = addAll given' rest := by
  rw [addAll, h]
  simp only [hg]
  rfl

-- The value of a choice in the argument after it.
theorem addAll_chosen (h : Word.ofText text = .chosen choice none)
    (hv : Word.ofText value = .input) (hg : given.add choice value = .ok given') :
    addAll given (text :: value :: rest) = addAll given' rest := by
  rw [addAll, h]
  simp only [if_pos hv, hg]
  rfl

-- Arguments are read from the left, and what comes later is not looked at before.
theorem addAll_append {before : List String}
    (hs : ∀ word ∈ before, Word.ofText word ≠ .separator) (hb : addAll given before = .ok given') :
    addAll given (before ++ rest) = addAll given' rest := by
  fun_induction addAll given before with
  | case1 => cases hb; rfl
  | case2 _ _ _ h hi =>
    have ⟨next, hg, hb⟩ := bind_eq_ok_iff.mp hb
    rw [List.cons_append, addAll_input h hg]
    exact hi next (List.forall_mem_cons.mp hs).right hb
  | case3 _ _ _ h => exact absurd h (hs _ List.mem_cons_self)
  | case4 _ _ _ _ _ h hi =>
    have ⟨next, hg, hb⟩ := bind_eq_ok_iff.mp hb
    rw [List.cons_append, addAll_attached h hg]
    exact hi next (List.forall_mem_cons.mp hs).right hb
  | case6 _ _ _ h _ _ hv hi =>
    have ⟨next, hg, hb⟩ := bind_eq_ok_iff.mp hb
    rw [List.cons_append, List.cons_append, addAll_chosen h hv hg]
    exact hi next (List.forall_mem_cons.mp (List.forall_mem_cons.mp hs).right).right hb
  | case5 | case7 | case8 | case9 => cases hb

theorem addInput_eq_ok (hg : given.input = none) (h : IsPlain text) :
    given.addInput text = .ok { given with input := some text } := by
  simp [addInput, hg, h.isEmpty, pure, Except.pure]

theorem add_format_eq_ok (hg : given.format = none) (h : Format.ofName name = .ok format) :
    given.add .format name = .ok { given with format := some format } := by
  simp [add, hg, h, pure, Except.pure]

theorem add_output_eq_ok (hg : given.output = none) (h : IsPlain text) :
    given.add .output text = .ok { given with output := some text } := by
  simp [add, hg, h.isEmpty, pure, Except.pure]

theorem addAll_format (hi : IsPlain input) (hf : Format.ofName name = .ok format) :
    addAll {} (input :: "-f" :: name :: rest) =
      addAll { input := some input, format := some format } rest := by
  have hw : Word.ofText "-f" = .chosen .format none := by decide
  rw [addAll_input (Word.ofText_eq_input hi.head_ne) (addInput_eq_ok rfl hi),
    addAll_chosen hw (Word.ofText_of_ofName hf) (add_format_eq_ok rfl hf)]

end Given

namespace Arguments

theorem parse?_eq_some_iff {args : List String} {parsed : Arguments} :
    parse? args = some parsed ↔ parse args = .ok parsed := by
  rw [parse?]
  cases parse args <;> simp [Except.toOption]

theorem parse?_format (hi : IsPlain input) (hf : Format.ofName name = .ok format) :
    parse? [input, "-f", name] = some ⟨input, format, none⟩ := by
  rw [parse?, parse, Given.addAll_format hi hf]
  rfl

theorem parse?_format_output (hi : IsPlain input) (hf : Format.ofName name = .ok format)
    (ho : IsPlain output) :
    parse? [input, "-f", name, "-o", output] = some ⟨input, format, some output⟩ := by
  have hw : Word.ofText "-o" = .chosen .output none := by decide
  rw [parse?, parse, Given.addAll_format hi hf,
    Given.addAll_chosen hw (Word.ofText_eq_input ho.head_ne) (Given.add_output_eq_ok rfl ho)]
  rfl

end Arguments
end TagRegistry.Command
