import TagRegistry.Tag
import TagRegistry.Text.Digits

namespace TagRegistry

-- A tag as fonts store it: four bytes of printable ASCII, padded with spaces at the end. That they
-- are such bytes is up to `ofTag`.
structure Code where
  first : UInt8
  second : UInt8
  third : UInt8
  fourth : UInt8
  deriving DecidableEq, Repr, Inhabited

namespace Code

def bytes (code : Code) : Bytes :=
  [code.first, code.second, code.third, code.fourth]

def ofBytes? : Bytes → Option Code
  | [first, second, third, fourth] => some { first, second, third, fourth }
  | _ => none

theorem ofBytes?_bytes (code : Code) : ofBytes? code.bytes = some code :=
  rfl

theorem bytes_of_ofBytes? {bs : Bytes} {code : Code} (h : ofBytes? bs = some code) :
    code.bytes = bs := by
  unfold ofBytes? at h
  split at h <;> cases h
  rfl

def space : UInt8 := 0x20

def isPrintable (byte : UInt8) : Bool :=
  0x20 ≤ byte && byte ≤ 0x7E

structure BadByte where
  byte : UInt8
  index : Nat
  deriving DecidableEq, Repr

-- The first byte that a code may not hold: one that is not printable, a space at the start, or
-- something else than a space after a space.
def badByte? (bs : Bytes) : Option BadByte :=
  go 0 false bs
where
  go (index : Nat) (padding : Bool) : Bytes → Option BadByte
    | [] => none
    | byte :: rest =>
      if !isPrintable byte || (byte == space && index == 0) || (byte != space && padding) then
        some { byte, index }
      else
        go (index + 1) (byte == space) rest

inductive Error where
  | wrongLength (tag : Tag) (length : Nat)
  | badByte (tag : Tag) (found : BadByte)
  deriving DecidableEq, Repr

def Error.message : Error → String
  | .wrongLength tag length =>
    "Tag '" ++ tag.text ++ "' has " ++ toString length ++ " bytes, expected exactly 4"
  | .badByte tag found =>
    "Tag '" ++ tag.text ++ "' is invalid: Invalid byte 0x" ++ Text.hexDigits found.byte.toNat ++
      " at index " ++ toString found.index

def ofTag (tag : Tag) : Except Error Code :=
  match ofBytes? tag.bytes with
  | none => .error (.wrongLength tag tag.bytes.length)
  | some code =>
    match badByte? code.bytes with
    | none => .ok code
    | some found => .error (.badByte tag found)

theorem bytes_of_ofTag {tag : Tag} {code : Code} (h : ofTag tag = .ok code) :
    code.bytes = tag.bytes := by
  unfold ofTag at h
  split at h
  case h_1 => cases h
  case h_2 hc =>
    split at h
    case h_1 => cases h; exact bytes_of_ofBytes? hc
    case h_2 => cases h

def character (byte : UInt8) : Char :=
  Char.ofNat byte.toNat

-- The code as text. A byte that is not printable shows as its number.
def display (code : Code) : String :=
  String.join (code.bytes.map fun byte =>
    if isPrintable byte then String.singleton (character byte)
    else "\x7b0x" ++ Text.hexByte byte ++ "\x7d")

-- Ascending by the first bytes that differ.
def le (code₁ code₂ : Code) : Bool :=
  code₁.bytes ≤ code₂.bytes

end Code
end TagRegistry
