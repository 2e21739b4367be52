import TagRegistry.Text.Utf8

namespace TagRegistry.Text

-- A line is cut after its line feed, so the lines put together are the text again.
def lines : List Char → List (List Char)
  | [] => []
  | c :: text =>
    if c = '\n' then [c] :: lines text
    else match lines text with
      | [] => [[c]]
      | line :: rest => (c :: line) :: rest

theorem flatten_lines (text : List Char) : (lines text).flatten = text := by
  fun_induction lines text with
  | case1 => rfl
  | case2 text ih => simp [ih]
  | case3 c text h hl ih => simp_all
  | case4 c text h line rest hl ih => simp_all

-- A line without its end, which is a line feed or a carriage return and a line feed. A carriage
-- return that no line feed follows is part of the content.
def lineContent (line : List Char) : List Char :=
  match line.reverse with
  | '\n' :: '\r' :: content => content.reverse
  | '\n' :: content => content.reverse
  | _ => line

-- The place of a line in a text, in bytes.
structure Span where
  offset : Nat
  length : Nat
  deriving DecidableEq, Repr

-- Where the line begins that has `missing` line feeds before it, in bytes. A text with fewer line
-- feeds is gone through to its end.
def lineStart : Nat → List Char → Nat
  | _, [] => 0
  | 0, _ => 0
  | missing + 1, c :: text =>
    (String.utf8EncodeChar c).length +
      lineStart (if c = '\n' then missing else missing + 1) text

-- Lines are counted from 1. A line that the text does not have is an empty one at its end. The two
-- numbers come from two searches: one passes over characters, the other cuts lines.
def lineSpan (text : String) (line : Nat) : Span where
  offset := lineStart (line - 1) text.toList
  length := ((lines text.toList)[line - 1]?).elim 0 fun line =>
    utf8Length (String.ofList (lineContent line))

end TagRegistry.Text
