import TagRegistry.Text.Blank

namespace TagRegistry

-- A default flag has to be an integer, and the integer 1 marks a default.
inductive Flag where
  | default
  | other
  | malformed
  deriving DecidableEq, Repr

namespace Flag

-- What a run of digits amounts to, if numbers have a limit.
inductive Magnitude where
  | exactly (n : Nat)
  | tooLarge
  | malformed
  deriving DecidableEq, Repr

-- Digits are read from the left, and reading stops at the digit that passes the limit. So a number
-- which is too large hides whatever comes after it.
def Magnitude.read (limit : Nat) : Nat → List Char → Magnitude
  | value, [] => .exactly value
  | value, c :: rest =>
    if c.isDigit then
      let value := value * 10 + (c.toNat - '0'.toNat)
      if value ≤ limit then read limit value rest else .tooLarge
    else
      .malformed

def Magnitude.ofDigits (limit : Nat) : List Char → Magnitude
  | [] => .malformed
  | digits => read limit 0 digits

-- The limits are those of signed 64-bit integers. A number beyond them is an integer still, only
-- not 1.
def ofText (text : String) : Flag :=
  match Text.trim text.toList with
  | '-' :: digits =>
    match Magnitude.ofDigits (Nat.pow 2 63) digits with
    | .malformed => .malformed
    | _ => .other
  | '+' :: digits => positive digits
  | digits => positive digits
where
  positive (digits : List Char) : Flag :=
    match Magnitude.ofDigits (Nat.pow 2 63 - 1) digits with
    | .exactly 1 => .default
    | .malformed => .malformed
    | _ => .other

end Flag
end TagRegistry
