import Mathlib.Data.List.DropRight
import TagRegistry.Proofs.Declaration

namespace TagRegistry

namespace Declaration

variable {format : Format} {source : String} {codes : List Code} {line : List Char} {c : Char}

def blanks : List Char :=
  [' ', '\t', '\x0B', '\x0C', '\r', '\n']

-- A comment that ends a line goes on in the next one. In C++ a backslash at the end of a line does
-- this, with blanks behind it or without; in Rust nothing does.
def Continues (format : Format) (line : List Char) : Prop :=
  format = .cpp ∧ (line.rdropWhile (· ∈ blanks)).getLast? = some '\\'

instance : Decidable (Continues format line) :=
  inferInstanceAs (Decidable (_ ∧ _))

-- A name that is written on one line and leaves the next line alone.
def Confined (format : Format) (source : String) : Prop :=
  '\n' ∉ source.toList ∧ ¬Continues format source.toList

-- The banner as it stands in a declaration.
def comment (source : String) : List Char :=
  (banner source).toList ++ ['\n']

-- How many lines stand before the banner.
def bannerIndex : Format → Nat
  | .rust => 2
  | .cpp => 1

-- How many lines a declaration of no tags has, if its banner is one line.
def frameSize : Format → Nat
  | .rust => 9
  | .cpp => 20

def above (format : Format) : List String :=
  (opening "" format).take (bannerIndex format)

def below (format : Format) (codes : List Code) : List String :=
  (opening "" format).drop (bannerIndex format + 1) ++ codes.map (tagLine · format) ++
    closing format

theorem lines_eq (format : Format) (source : String) (codes : List Code) :
    lines format source codes = above format ++ banner source :: below format codes := by
  cases format <;> rfl

theorem length_above_below (format : Format) (codes : List Code) :
    (above format).length + 1 + (below format codes).length = frameSize format + codes.length := by
  cases format <;>
    simp only [above, below, opening, closing, bannerIndex, frameSize, List.length_append,
      List.length_map, List.length_take, List.length_drop, List.length_cons, List.length_nil] <;>
    omega

theorem continues_blank_iff (hc : c ∈ blanks) :
    Continues format (line ++ [c]) ↔ Continues format line := by
  rw [Continues, List.rdropWhile_concat_pos _ _ _ (by simpa using hc), Continues]

theorem continues_not_blank_iff (hc : c ∉ blanks) :
    Continues format (line ++ [c]) ↔ format = .cpp ∧ c = '\\' := by
  rw [Continues, List.rdropWhile_concat_neg _ _ _ (by simpa using hc), List.getLast?_concat,
    Option.some_inj]

-- A backslash at the end of a line stands in the last part of it that is not blank.
theorem continues_append_iff {front : List Char} (h : ¬Continues format front)
    (line : List Char) : Continues format (front ++ line) ↔ Continues format line := by
  induction line using List.reverseRecOn with
  | nil =>
    rw [List.append_nil]
    exact iff_of_false h (by simp [Continues])
  | append_singleton line c hi =>
    rw [← List.append_assoc]
    by_cases hc : c ∈ blanks
    case pos => rw [continues_blank_iff hc, continues_blank_iff hc, hi]
    case neg => rw [continues_not_blank_iff hc, continues_not_blank_iff hc]

theorem toList_banner (source : String) :
    (banner source).toList = "// Generated by feature-codegen from ".toList ++ source.toList :=
  String.toList_append

theorem continues_comment_iff : Continues format (comment source) ↔
    Continues format source.toList := by
  rw [comment, continues_blank_iff (by decide), toList_banner]
  exact continues_append_iff (by cases format <;> decide) source.toList

theorem getLast?_comment (source : String) : (comment source).getLast? = some '\n' :=
  List.getLast?_concat

theorem length_lines_comment (source : String) :
    (Text.lines (comment source)).length = 1 + source.toList.count '\n' := by
  have ⟨_, hn⟩ := Text.lines_append (.inr (getLast?_comment source)) []
  have hb : "// Generated by feature-codegen from ".toList.count '\n' = 0 := by decide
  rw [hn, comment, toList_banner, List.count_append, List.count_append, hb, Nat.zero_add,
    List.count_singleton_self, Nat.add_comm]

theorem lines_comment_eq_iff : Text.lines (comment source) = [comment source] ↔
    '\n' ∉ source.toList := by
  constructor
  case mp =>
    intro h
    have hl := length_lines_comment source
    rw [h] at hl
    exact List.count_eq_zero.mp (Nat.add_left_cancel hl).symm
  case mpr =>
    intro h
    have hb : '\n' ∉ (banner source).toList := by
      rw [toList_banner, List.mem_append]
      exact not_or.mpr ⟨by decide, h⟩
    exact Text.lines_append_lineFeed hb []

-- A line feed in a name ends the comment there. What follows it is written on lines of its own.
theorem lines_comment_lineFeed (name rest : String) : Text.lines (comment (name ++ "\n" ++ rest)) =
    Text.lines (comment name) ++ Text.lines (rest.toList ++ ['\n']) := by
  have he : comment (name ++ "\n" ++ rest) = comment name ++ (rest.toList ++ ['\n']) := by
    simp [comment, toList_banner]
  have ⟨hl, _⟩ := Text.lines_append (.inr (getLast?_comment name)) (rest.toList ++ ['\n'])
  rw [he, hl]

theorem lineFeed_not_mem_frame : ∀ text ∈ above format ++ below format [],
    '\n' ∉ text.toList := by
  cases format <;> decide +kernel

theorem lineFeed_not_mem_above_below
    (hp : ∀ code ∈ codes, ∀ byte ∈ code.bytes, 0x20 ≤ byte ∧ byte ≤ 0x7E) :
    (∀ text ∈ above format, '\n' ∉ text.toList) ∧
      ∀ text ∈ below format codes, '\n' ∉ text.toList := by
  have hf := @lineFeed_not_mem_frame format
  simp only [below, List.map_nil, List.append_nil, List.forall_mem_append] at hf ⊢
  have ⟨ha, hb, hc⟩ := hf
  refine ⟨ha, ⟨hb, List.forall_mem_map.mpr fun code hm => ?_⟩, hc⟩
  exact lineFeed_not_mem_tagLine (hp code hm) format

theorem lines_text (hp : ∀ code ∈ codes, ∀ byte ∈ code.bytes, 0x20 ≤ byte ∧ byte ≤ 0x7E)
    (format : Format) (source : String) : Text.lines (text format source codes).toList =
      (above format).map (fun text => text.toList ++ ['\n']) ++ Text.lines (comment source) ++
        (below format codes).map fun text => text.toList ++ ['\n'] := by
  have ⟨ha, hb⟩ := @lineFeed_not_mem_above_below format codes hp
  have ht : (text format source codes).toList =
      (String.join ((above format).map (· ++ "\n"))).toList ++ (comment source ++
        ((String.join ((below format codes).map (· ++ "\n"))).toList ++ [])) := by
    rw [text, lines_eq]
    simp [comment]
  obtain ⟨hl, _⟩ := Text.lines_append (.inr (getLast?_comment source))
    ((String.join ((below format codes).map (· ++ "\n"))).toList ++ [])
  rw [ht, Text.lines_join ha, hl, Text.lines_join hb]
  simp [Text.lines]

theorem length_lines_text (hp : ∀ code ∈ codes, ∀ byte ∈ code.bytes, 0x20 ≤ byte ∧ byte ≤ 0x7E)
    (format : Format) (source : String) : (Text.lines (text format source codes).toList).length =
      frameSize format + codes.length + source.toList.count '\n' := by
  rw [lines_text hp, List.length_append, List.length_append, List.length_map, List.length_map,
    length_lines_comment, ← length_above_below]
  omega

end Declaration

open Declaration

-- All names that are confined to one line give the same lines but for the one of the banner. A name
-- with a line feed gives more lines, and a name that goes on in the next line hides one.
theorem lines_of_render {format : Format} {source out : String} {tags : List Tag}
    (h : render format source tags = .ok out) : ∃ above below : List (List Char),
      above.length + 1 + below.length = frameSize format + tags.length ∧
      (∀ source', ∃ out', render format source' tags = .ok out' ∧
        Text.lines out'.toList = above ++ Text.lines (comment source') ++ below ∧
        (Text.lines out'.toList).length =
          frameSize format + tags.length + source'.toList.count '\n' ∧
        (Text.lines (comment source') = [comment source'] ∧ ¬Continues format (comment source') ↔
          Confined format source')) ∧
      ∀ name rest, ∃ out', render format (name ++ "\n" ++ rest) tags = .ok out' ∧
        Text.lines out'.toList = above ++ Text.lines (comment name) ++
          Text.lines (rest.toList ++ ['\n']) ++ below := by
  have ⟨codes, hc, _⟩ := render_eq_ok_iff.mp h
  have hp := printable_of_mapM_ofTag hc
  have hn : codes.length = tags.length := by
    simpa using congrArg List.length (bytes_of_mapM_ofTag hc)
  have hr (source' : String) : render format source' tags = .ok (text format source' codes) :=
    render_eq_ok_iff.mpr ⟨codes, hc, rfl⟩
  rw [← hn]
  refine ⟨_, _, ?size,
    fun source' => ⟨_, hr _, lines_text hp .., length_lines_text hp .., ?confined⟩,
    fun name rest => ⟨_, hr _, ?lineFeed⟩⟩
  case size => rw [List.length_map, List.length_map, length_above_below]
  case confined => rw [lines_comment_eq_iff, continues_comment_iff, Confined]
  case lineFeed =>
    rw [lines_text hp, lines_comment_lineFeed, List.append_assoc _ (Text.lines (comment name))]

theorem lines_of_render_twoTags :
    ∃ out, render .cpp "it's.csv" [⟨"a'b\\"⟩, ⟨"\"), "⟩] = .ok out ∧
      ∃ above below : List (List Char), above.length + 1 + below.length = 22 ∧
        ∀ source', ∃ out', render .cpp source' [⟨"a'b\\"⟩, ⟨"\"), "⟩] = .ok out' ∧
          Text.lines out'.toList = above ++ Text.lines (comment source') ++ below := by
  have h : render .cpp "it's.csv" [⟨"a'b\\"⟩, ⟨"\"), "⟩] =
      .ok (text .cpp "it's.csv" [⟨0x61, 0x27, 0x62, 0x5C⟩, ⟨0x22, 0x29, 0x2C, 0x20⟩]) := rfl
  obtain ⟨above, below, hl, hs, _⟩ := lines_of_render h
  refine ⟨_, h, above, below, hl, fun source' => ?_⟩
  obtain ⟨out', hr, ht, _⟩ := hs source'
  exact ⟨out', hr, ht⟩

-- The second name has a line feed, and what follows it stands outside of the comment.
theorem lines_of_render_brokenName :
    ∃ out out', render .rust "registry.csv" [⟨"frac"⟩] = .ok out ∧
      render .rust "feature\nregistry.csv" [⟨"frac"⟩] = .ok out' ∧
      (Text.lines out.toList).length = 10 ∧ (Text.lines out'.toList).length = 11 ∧
      "registry.csv".toList ++ ['\n'] ∈ Text.lines out'.toList := by
  have hc : [(⟨"frac"⟩ : Tag)].mapM Code.ofTag = .ok [⟨0x66, 0x72, 0x61, 0x63⟩] := rfl
  have hp := printable_of_mapM_ofTag hc
  refine ⟨text .rust "registry.csv" [⟨0x66, 0x72, 0x61, 0x63⟩],
    text .rust "feature\nregistry.csv" [⟨0x66, 0x72, 0x61, 0x63⟩], rfl, rfl, ?_, ?_, ?_⟩
  · rw [length_lines_text hp]
    decide
  · rw [length_lines_text hp]
    decide
  · have hs : "feature\nregistry.csv" = "feature" ++ "\n" ++ "registry.csv" := by decide
    have hn : '\n' ∉ "registry.csv".toList := by decide
    rw [lines_text hp, hs, lines_comment_lineFeed, Text.lines_append_lineFeed hn []]
    simp

end TagRegistry
