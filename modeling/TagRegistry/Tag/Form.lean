import TagRegistry.Tag
import TagRegistry.Text.Digits

namespace TagRegistry

-- What the tag field of a row stands for: one tag, or a family of tags that differ in a number. The
-- numbers run from `first` to `last`, both included.
inductive Form where
  | literal (tag : String)
  | family (stem : String) (first last : Nat)
  deriving DecidableEq, Repr

namespace Form

def isLetter (c : Char) : Bool :=
  'a' ≤ c && c ≤ 'z'

def number (tens ones : Char) : Nat :=
  (tens.toNat - '0'.toNat) * 10 + (ones.toNat - '0'.toNat)

-- A family is written with both of its ends in full, as in `ss01-ss20`.
def family? : List Char → Option Form
  | [a, b, tens₁, ones₁, '-', a', b', tens₂, ones₂] =>
    if [a, b].all isLetter && [tens₁, ones₁, tens₂, ones₂].all Char.isDigit &&
        [a, b] == [a', b'] then
      some (.family (String.ofList [a, b]) (number tens₁ ones₁) (number tens₂ ones₂))
    else
      none
  | _ => none

def ofField (field : String) : Form :=
  (family? field.toList).getD (.literal field)

def member (stem : String) (n : Nat) : Tag :=
  ⟨stem ++ Text.twoDigits n⟩

def tags : Form → List Tag
  | .literal tag => [⟨tag⟩]
  | .family stem first last => (List.range' first (last + 1 - first)).map (member stem)

end Form
end TagRegistry
