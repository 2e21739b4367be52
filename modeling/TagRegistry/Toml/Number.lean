import TagRegistry.Toml.Quoted

namespace TagRegistry.Toml

-- Digits without the underscores between them.
def ungroup (isDigit : Char → Bool) : List Char → Option (List Char)
  | [] => none
  | [c] => if isDigit c then some [c] else none
  | c :: '_' :: rest => if isDigit c then (ungroup isDigit rest).map (c :: ·) else none
  | c :: rest => if isDigit c then (ungroup isDigit rest).map (c :: ·) else none

def valueIn (base : Nat) (digits : List Char) : Nat :=
  digits.foldl (fun value c => value * base + (hexValue? c).getD 0) 0

-- A decimal number has no zero in front.
def decimal? (text : List Char) : Option (List Char) :=
  match ungroup Char.isDigit text with
  | none | some ('0' :: _ :: _) => none
  | digits => digits

def based? : List Char → Option Nat
  | '0' :: 'x' :: digits => (ungroup (hexValue? · |>.isSome) digits).map (valueIn 16)
  | '0' :: 'o' :: digits => (ungroup (fun c => '0' ≤ c && c ≤ '7') digits).map (valueIn 8)
  | '0' :: 'b' :: digits => (ungroup (fun c => c == '0' || c == '1') digits).map (valueIn 2)
  | _ => none

-- A decimal number behind a sign or none, where `digits?` says which digits it may have.
def signed? (digits? : List Char → Option (List Char)) : List Char → Option Int
  | '-' :: text => (digits? text).map fun digits => -Int.ofNat (valueIn 10 digits)
  | '+' :: text => (digits? text).map fun digits => Int.ofNat (valueIn 10 digits)
  | text => (digits? text).map fun digits => Int.ofNat (valueIn 10 digits)

-- Integers are signed and have 64 bits.
def integer? (text : List Char) : Option Int :=
  (signed? decimal? text).or ((based? text).map Int.ofNat) |>.filter fun value =>
    -Int.pow 2 63 ≤ value && value < Int.pow 2 63

-- The least number that is rounded to no double: half a unit above the greatest.
def doubleBound : Nat :=
  Nat.pow 2 1024 - Nat.pow 2 970

-- Far from the bound the number of digits decides, so that no huge power is computed.
def isBeyondDoubles (digits : Nat) (exponent : Int) : Bool :=
  let size : Int := (Nat.toDigits 10 digits).length + exponent
  if digits = 0 || size < 300 then false
  else if size > 320 then true
  else match exponent with
    | .ofNat e => doubleBound ≤ digits * Nat.pow 10 e
    | .negSucc e => doubleBound * Nat.pow 10 (e + 1) ≤ digits

-- A number with a fraction, an exponent or both, as its digits and the power of ten they count.
def scientific? (text : List Char) : Option (Nat × Int) := do
  let (mantissa, power) := text.span (fun c => c != 'e' && c != 'E')
  let (whole, fraction) := mantissa.span (· != '.')
  guard (!(power.isEmpty && fraction.isEmpty))
  let whole ← decimal? whole
  let fraction ← if fraction.isEmpty then some [] else ungroup Char.isDigit fraction.tail
  let power ← if power.isEmpty then some 0 else signed? (ungroup Char.isDigit) power.tail
  return (valueIn 10 (whole ++ fraction), power - fraction.length)

-- Below all doubles there is a negative infinity to round to. The positive one has to be written
-- out.
def isFloat (text : List Char) : Bool :=
  match text with
  | '-' :: body => isNamed body || (scientific? body).isSome
  | '+' :: body => isNamed body || isBounded body
  | body => isNamed body || isBounded body
where
  isNamed (body : List Char) : Bool :=
    body == ['i', 'n', 'f'] || body == ['n', 'a', 'n']
  isBounded (body : List Char) : Bool :=
    (scientific? body).any fun (digits, exponent) => !isBeyondDoubles digits exponent

end TagRegistry.Toml
