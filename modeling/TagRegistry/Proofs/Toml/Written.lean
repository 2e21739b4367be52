import TagRegistry.Proofs.Toml.Quoted
import TagRegistry.Toml.Grammar

namespace TagRegistry.Toml

inductive WritesKey (key : List Char) : List Char → Prop
  | bare (hne : key ≠ []) (hb : ∀ c ∈ key, isBare c) : WritesKey key key
  | basic {written : List Char} (hw : Writes key written) : WritesKey key ('"' :: written ++ ['"'])
  | literal (hl : ∀ c ∈ key, c ≠ '\'' ∧ isControl c = false) :
      WritesKey key ('\'' :: key ++ ['\''])

namespace Written

abbrev Blanks := { chars : List Char // ∀ c ∈ chars, isSpace c }

def Blanks.none : Blanks :=
  ⟨[], nofun⟩

structure Key where
  text    : String
  chars   : List Char
  spelled : WritesKey text.toList chars

def Key.path (key : Key) : Path where
  parents := []
  key     := key.text

structure Quoted where
  text    : String
  body    : List Char
  spelled : Writes text.toList body

def Quoted.chars (quoted : Quoted) : List Char :=
  '"' :: (quoted.body ++ ['"'])

-- Every text can be a key or a value, since all characters can be escaped.
def Key.quote (text : String) : Key where
  text
  chars   := '"' :: text.toList.flatMap escape ++ ['"']
  spelled := .basic (writes_escape text.toList)

def Quoted.quote (text : String) : Quoted where
  text
  body    := text.toList.flatMap escape
  spelled := writes_escape text.toList

inductive Content where
  | empty
  | tables (before : Blanks) (key : Key) (after : Blanks)
  | assign (key : Key) (before after : Blanks) (value : Quoted)

namespace Content

def chars : Content → List Char
  | .empty => []
  | .tables before key after => '[' :: '[' :: (before ++ (key.chars ++ (after ++ [']', ']'])))
  | .assign key before after value => key.chars ++ (before ++ '=' :: (after ++ value.chars))

def statement? : Content → Option Statement
  | .empty => none
  | .tables _ key _ => some (.tables key.path)
  | .assign key _ _ value => some (.assign key.path (.string value.text))

end Content

-- A comment goes on to the end of its line.
structure Line where
  indent        : Blanks
  content       : Content
  trail         : Blanks
  comment       : List Char
  ending        : List Char
  comment_head  : ∀ c ∈ comment.head?, c = '#'
  comment_plain : ∀ c ∈ comment, isControl c = false
  ending_end    : ending ∈ [[], ['\n'], ['\r', '\n']]

namespace Line

def close (line : Line) : List Char :=
  line.trail ++ (line.comment ++ line.ending)

def chars (line : Line) : List Char :=
  line.indent ++ (line.content.chars ++ line.close)

def statement? (line : Line) : Option Statement :=
  line.content.statement?

def plain (content : Content) : Line where
  indent        := .none
  content
  trail         := .none
  comment       := []
  ending        := ['\n']
  comment_head  := nofun
  comment_plain := nofun
  ending_end    := by simp

end Line
end Written

-- The line end may be left out after the last line only.
structure Written where
  lines : List Written.Line
  ended : ∀ line ∈ lines.dropLast, line.ending ≠ []

namespace Written

def chars (w : Written) : List Char :=
  w.lines.flatMap Line.chars

def statements (w : Written) : List Statement :=
  w.lines.filterMap Line.statement?

def plain (contents : List Content) : Written where
  lines := contents.map Line.plain
  ended := by
    intro line hm
    have ⟨_, _, he⟩ := List.mem_map.mp (List.dropLast_subset _ hm)
    simp [← he, Line.plain]

theorem statements_plain (contents : List Content) :
    (plain contents).statements = contents.filterMap Content.statement? := by
  simp [statements, plain, List.filterMap_map, Function.comp_def, Line.statement?, Line.plain]

end Written
end TagRegistry.Toml
