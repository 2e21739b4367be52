import Mathlib.Data.List.Forall2
import TagRegistry.Declaration
import TagRegistry.Proofs.FirstFailure
import TagRegistry.Proofs.Tag.Code
import TagRegistry.Proofs.Text.Line

namespace TagRegistry

namespace Declaration

def text (format : Format) (source : String) (codes : List Code) : String :=
  String.join ((lines format source codes).map (· ++ "\n"))

def front (format : Format) (source : String) : String :=
  String.join ((opening source format).map (· ++ "\n"))

def back (format : Format) : String :=
  String.join ((closing format).map (· ++ "\n"))

def tagLines (format : Format) (codes : List Code) : String :=
  String.join (codes.map fun code => tagLine code format ++ "\n")

theorem text_eq (format : Format) (source : String) (codes : List Code) :
    text format source codes = front format source ++ tagLines format codes ++ back format := by
  apply String.toList_inj.mp
  simp [text, lines, front, tagLines, back, List.flatMap_map]

-- What stands in a literal before the delimiter, as bytes, and what follows the delimiter. After a
-- backslash the delimiter and the backslash stand for themselves; other escapes are not read.
def literal? (delimiter : Char) : List Char → Option (Bytes × List Char)
  | [] => none
  | '\\' :: c :: rest =>
    if c = delimiter ∨ c = '\\' then
      (literal? delimiter rest).map fun (bytes, rest) => (UInt8.ofNat c.toNat :: bytes, rest)
    else none
  | c :: rest =>
    if c = delimiter then some ([], rest)
    else if c.toNat < 0x80 then
      (literal? delimiter rest).map fun (bytes, rest) => (UInt8.ofNat c.toNat :: bytes, rest)
    else none

-- A literal of one byte.
def character? (line : List Char) : Option (UInt8 × List Char) := do
  match ← literal? '\'' (← line.dropPrefix? ['\'']) with
  | ([byte], rest) => some (byte, rest)
  | _ => none

-- What a line declares, if the line is a tag line with its line feed.
def code? (format : Format) (line : List Char) : Option Code :=
  match format with
  | .rust => do
    let (bytes, rest) ← literal? '"' (← line.dropPrefix? "    Tag::new(b\"".toList)
    if rest = "),\n".toList then Code.ofBytes? bytes else none
  | .cpp => do
    let (first, rest) ← character? (← line.dropPrefix? "    HB_TAG(".toList)
    let (second, rest) ← character? (← rest.dropPrefix? ", ".toList)
    let (third, rest) ← character? (← rest.dropPrefix? ", ".toList)
    let (fourth, rest) ← character? (← rest.dropPrefix? ", ".toList)
    if rest = "),\n".toList then some { first, second, third, fourth } else none

-- `text` has one line for each of `codes`, which is read as that code. What stands before and after
-- these lines hangs on the format and the source only.
def Declares (format : Format) (source text : String) (codes : List Code) : Prop :=
  ∃ body, text = front format source ++ body ++ back format ∧
    (Text.lines body.toList).map (code? format) = codes.map some

section

variable {delimiter : Char} {byte : UInt8} {bytes : Bytes}

theorem literal?_delimiter (hd : delimiter ≠ '\\') (rest : List Char) :
    literal? delimiter (delimiter :: rest) = some ([], rest) := by
  simp [literal?, hd]

theorem literal?_escaped {c : Char} (hc : c = delimiter ∨ c = '\\') (rest : List Char) :
    literal? delimiter ('\\' :: c :: rest) =
      (literal? delimiter rest).map fun (bytes, rest) => (UInt8.ofNat c.toNat :: bytes, rest) := by
  simp [literal?, hc]

theorem literal?_plain {c : Char} (hd : c ≠ delimiter) (hb : c ≠ '\\') (hc : c.toNat < 0x80)
    (rest : List Char) : literal? delimiter (c :: rest) =
      (literal? delimiter rest).map fun (bytes, rest) => (UInt8.ofNat c.toNat :: bytes, rest) := by
  simp [literal?, hd, hb, hc]

theorem literal?_escape (hd : delimiter ≠ '\\') (hp : ∀ byte ∈ bytes, 0x20 ≤ byte ∧ byte ≤ 0x7E)
    (rest : List Char) :
    literal? delimiter (bytes.flatMap (escape delimiter) ++ delimiter :: rest) =
      some (bytes, rest) := by
  induction bytes with
  | nil => exact literal?_delimiter hd rest
  | cons byte bytes hi =>
    have ⟨hb, hbs⟩ := List.forall_mem_cons.mp hp
    have hn := Code.toNat_character hb.right
    rw [List.flatMap_cons, List.append_assoc, escape]
    split
    case isTrue hc =>
      have hc : Code.character byte = delimiter ∨ Code.character byte = '\\' := by simpa using hc
      rw [List.cons_append, List.cons_append, List.nil_append, literal?_escaped hc, hi hbs, hn]
      simp
    case isFalse hc =>
      have ⟨hd, hs⟩ : Code.character byte ≠ delimiter ∧ Code.character byte ≠ '\\' := by
        simpa using hc
      have hlt : (Code.character byte).toNat < 0x80 := by
        rw [hn]
        exact Nat.lt_of_le_of_lt (UInt8.le_iff_toNat_le.mp hb.right) (by decide)
      rw [List.cons_append, List.nil_append, literal?_plain hd hs hlt, hi hbs, hn]
      simp

theorem character?_character (hb : 0x20 ≤ byte ∧ byte ≤ 0x7E) (rest : List Char) :
    character? ((character byte).toList ++ rest) = some (byte, rest) := by
  have hp : ∀ b ∈ [byte], 0x20 ≤ b ∧ b ≤ 0x7E := by simpa using hb
  have hl := @literal?_escape '\'' [byte] (by decide) hp rest
  have he : (character byte).toList ++ rest =
      ['\''] ++ ([byte].flatMap (escape '\'') ++ '\'' :: rest) := by
    simp [character]
  rw [he, character?, List.dropPrefix?_append_of_beq _ (by decide)]
  simp only [Option.bind_eq_bind, Option.bind_some, hl]

end

variable {code : Code}

theorem code?_rust (hp : ∀ byte ∈ code.bytes, 0x20 ≤ byte ∧ byte ≤ 0x7E) :
    code? .rust ((tagLine code .rust).toList ++ ['\n']) = some code := by
  have hl : (tagLine code .rust).toList ++ ['\n'] = "    Tag::new(b\"".toList ++
      (code.bytes.flatMap (escape '"') ++ '"' :: "),\n".toList) := by
    simp [tagLine, byteString]
  rw [hl, code?, List.dropPrefix?_append_of_beq _ (by decide)]
  simp [@literal?_escape '"' code.bytes (by decide) hp, Code.ofBytes?_bytes]

theorem code?_cpp (hp : ∀ byte ∈ code.bytes, 0x20 ≤ byte ∧ byte ≤ 0x7E) :
    code? .cpp ((tagLine code .cpp).toList ++ ['\n']) = some code := by
  have hl : (tagLine code .cpp).toList ++ ['\n'] = "    HB_TAG(".toList ++
      ((character code.first).toList ++ (", ".toList ++
      ((character code.second).toList ++ (", ".toList ++
      ((character code.third).toList ++ (", ".toList ++
      ((character code.fourth).toList ++ "),\n".toList))))))) := by
    simp [tagLine, Code.bytes]
  simp only [Code.bytes, List.forall_mem_cons] at hp
  obtain ⟨h₁, h₂, h₃, h₄, _⟩ := hp
  have hs (rest : List Char) : (", ".toList ++ rest).dropPrefix? ", ".toList = some rest :=
    List.dropPrefix?_append_of_beq rest (by decide)
  rw [hl, code?, List.dropPrefix?_append_of_beq _ (by decide)]
  simp only [Option.bind_eq_bind, Option.bind_some, hs, character?_character h₁,
    character?_character h₂, character?_character h₃, character?_character h₄, if_true]

theorem code?_tagLine (hp : ∀ byte ∈ code.bytes, 0x20 ≤ byte ∧ byte ≤ 0x7E) (format : Format) :
    code? format ((tagLine code format).toList ++ ['\n']) = some code := by
  cases format with
  | rust => exact code?_rust hp
  | cpp  => exact code?_cpp hp

theorem lineFeed_not_mem_escape {byte : UInt8} (hb : 0x20 ≤ byte ∧ byte ≤ 0x7E)
    (delimiter : Char) : '\n' ∉ escape delimiter byte := by
  have hn : '\n' ≠ Code.character byte := by
    intro he
    have ht : '\n'.toNat = byte.toNat := he ▸ Code.toNat_character hb.right
    exact absurd (UInt8.le_iff_toNat_le.mp hb.left) (by rw [← ht]; decide)
  rw [escape]
  split <;> simp [hn]

-- A tag line is one line, whatever the bytes of its code.
theorem lineFeed_not_mem_tagLine (hp : ∀ byte ∈ code.bytes, 0x20 ≤ byte ∧ byte ≤ 0x7E)
    (format : Format) : '\n' ∉ (tagLine code format).toList := by
  have he (delimiter : Char) : ∀ byte ∈ code.bytes, '\n' ∉ escape delimiter byte :=
    fun byte hb => lineFeed_not_mem_escape (hp byte hb) delimiter
  cases format with
  | rust =>
    simp only [tagLine, byteString]
    simpa using he '"'
  | cpp =>
    have he := he '\''
    simp only [Code.bytes, List.forall_mem_cons] at he
    simpa [tagLine, character, Code.bytes] using he

theorem lines_tagLines {codes : List Code}
    (hp : ∀ code ∈ codes, ∀ byte ∈ code.bytes, 0x20 ≤ byte ∧ byte ≤ 0x7E) (format : Format) :
    Text.lines (tagLines format codes).toList =
      codes.map fun code => (tagLine code format).toList ++ ['\n'] := by
  have hn : ∀ text ∈ codes.map (tagLine · format), '\n' ∉ text.toList :=
    List.forall_mem_map.mpr fun code hc => lineFeed_not_mem_tagLine (hp code hc) format
  have hl := Text.lines_join hn []
  rw [List.append_nil, List.map_map, List.map_map] at hl
  exact hl.trans (List.append_nil _)

theorem map_code?_tagLines {codes : List Code}
    (hp : ∀ code ∈ codes, ∀ byte ∈ code.bytes, 0x20 ≤ byte ∧ byte ≤ 0x7E) (format : Format) :
    (Text.lines (tagLines format codes).toList).map (code? format) = codes.map some := by
  rw [lines_tagLines hp, List.map_map]
  apply List.map_congr_left
  intro code hc
  exact code?_tagLine (hp code hc) format

theorem declares_text_iff {codes codes' : List Code}
    (hp : ∀ code ∈ codes, ∀ byte ∈ code.bytes, 0x20 ≤ byte ∧ byte ≤ 0x7E) {format : Format}
    {source : String} : Declares format source (text format source codes) codes' ↔
      codes' = codes := by
  constructor
  case mp =>
    intro ⟨body, hb, hc⟩
    rw [text_eq] at hb
    have hb : (tagLines format codes).toList = body.toList := by
      simpa using congrArg String.toList hb
    rw [← hb, map_code?_tagLines hp] at hc
    exact (List.map_injective_iff.mpr (fun _ _ => Option.some.inj) hc).symm
  case mpr =>
    intro he
    subst he
    exact ⟨_, text_eq .., map_code?_tagLines hp format⟩

end Declaration

open Declaration

theorem render_eq_ok_iff {format : Format} {source out : String} {tags : List Tag} :
    render format source tags = .ok out ↔
      ∃ codes, tags.mapM Code.ofTag = .ok codes ∧ text format source codes = out := by
  have he : render format source tags = (tags.mapM Code.ofTag).map (text format source) := by
    rw [render]
    cases tags.mapM Code.ofTag <;> rfl
  rw [he]
  cases tags.mapM Code.ofTag <;> simp [Except.map]

section

variable {tags : List Tag} {codes : List Code}

theorem bytes_of_mapM_ofTag (h : tags.mapM Code.ofTag = .ok codes) :
    codes.map Code.bytes = tags.map Tag.bytes := by
  have hb : List.Forall₂ (· = ·) (tags.map Tag.bytes) (codes.map Code.bytes) := by
    rw [List.forall₂_map_left_iff, List.forall₂_map_right_iff]
    exact (mapM_eq_ok_iff.mp h).imp fun _ _ hc => (Code.bytes_of_ofTag hc).symm
  rw [List.forall₂_eq_eq_eq] at hb
  exact hb.symm

theorem printable_of_mapM_ofTag (h : tags.mapM Code.ofTag = .ok codes) :
    ∀ code ∈ codes, ∀ byte ∈ code.bytes, 0x20 ≤ byte ∧ byte ≤ 0x7E := by
  intro code hc
  have hm : code.bytes ∈ tags.map Tag.bytes := bytes_of_mapM_ofTag h ▸ List.mem_map_of_mem hc
  have ⟨tag, ht, hb⟩ := List.mem_map.mp hm
  have hv := exists_mapM_iff.mp ⟨codes, h⟩ tag ht
  exact hb ▸ (Code.exists_ofTag_iff.mp hv).printable

end

-- What is rendered is read as the bytes of its tags and as nothing else, in either format and
-- whatever the source is called. So no two lists of tags have one declaration.
theorem declares_of_render {format : Format} {source out : String} {tags : List Tag}
    (h : render format source tags = .ok out) :
    ∃ codes : List Code, codes.map Code.bytes = tags.map Tag.bytes ∧
      (∀ codes', Declares format source out codes' ↔ codes' = codes) ∧
      (∀ format' source', ∃ out', render format' source' tags = .ok out' ∧
        ∀ codes', Declares format' source' out' codes' ↔ codes' = codes) ∧
      ∀ tags', render format source tags' = .ok out → tags' = tags := by
  have ⟨codes, hc, ht⟩ := render_eq_ok_iff.mp h
  have hp := printable_of_mapM_ofTag hc
  subst ht
  refine ⟨codes, bytes_of_mapM_ofTag hc, fun _ => declares_text_iff hp, ?_, ?_⟩
  · intro format' source'
    exact ⟨_, render_eq_ok_iff.mpr ⟨codes, hc, rfl⟩, fun _ => declares_text_iff hp⟩
  · intro tags' h'
    have ⟨codes', hc', ht'⟩ := render_eq_ok_iff.mp h'
    have hd : Declares format source (text format source codes) codes' := by
      rw [← ht']
      exact (declares_text_iff (printable_of_mapM_ofTag hc')).mpr rfl
    have he := (declares_text_iff hp).mp hd
    subst he
    apply List.map_injective_iff.mpr Tag.bytes_injective
    rw [← bytes_of_mapM_ofTag hc, ← bytes_of_mapM_ofTag hc']

theorem declares_of_render_quotes :
    ∃ out, render .cpp "it's.csv" [⟨"a'b\\"⟩, ⟨"\"), "⟩] = .ok out ∧
      ∃ codes : List Code,
        codes.map Code.bytes = [[0x61, 0x27, 0x62, 0x5C], [0x22, 0x29, 0x2C, 0x20]] ∧
        ∀ codes', Declares .cpp "it's.csv" out codes' ↔ codes' = codes := by
  have h : render .cpp "it's.csv" [⟨"a'b\\"⟩, ⟨"\"), "⟩] =
      .ok (text .cpp "it's.csv" [⟨0x61, 0x27, 0x62, 0x5C⟩, ⟨0x22, 0x29, 0x2C, 0x20⟩]) := rfl
  obtain ⟨codes, hb, hd, _⟩ := declares_of_render h
  exact ⟨_, h, codes, hb, hd⟩

end TagRegistry
