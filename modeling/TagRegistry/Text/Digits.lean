namespace TagRegistry.Text

def twoDigits (n : Nat) : String :=
  if n < 10 then "0" ++ toString n else toString n

def hexDigits (n : Nat) : String :=
  String.ofList ((Nat.toDigits 16 n).map Char.toUpper)

-- Two hexadecimal digits, as a byte is dumped.
def hexByte (byte : UInt8) : String :=
  if byte < 16 then "0" ++ hexDigits byte.toNat else hexDigits byte.toNat

end TagRegistry.Text
