import TagRegistry.Toml.Layout

namespace TagRegistry.Toml

def digits? (count low high : Nat) (text : List Char) : Option (Nat × List Char) :=
  let digits := text.take count
  let value := digits.foldl (fun value c => value * 10 + (c.toNat - '0'.toNat)) 0
  if digits.length = count && digits.all Char.isDigit && low ≤ value && value ≤ high then
    some (value, text.drop count)
  else
    none

def sign? (c : Char) : List Char → Option (List Char)
  | c' :: rest => if c' = c then some rest else none
  | [] => none

def isLeap (year : Nat) : Bool :=
  year % 4 = 0 && (year % 100 ≠ 0 || year % 400 = 0)

def daysIn (year month : Nat) : Nat :=
  if month = 2 then (if isLeap year then 29 else 28)
  else if month ∈ [4, 6, 9, 11] then 30
  else 31

-- Dates and times are passed over: each reader gives back what comes after.
def date? (text : List Char) : Option (List Char) := do
  let (year, text) ← digits? 4 0 9999 text
  let (month, text) ← digits? 2 1 12 (← sign? '-' text)
  let (_, text) ← digits? 2 1 (daysIn year month) (← sign? '-' text)
  return text

-- The 60th second is for leap seconds.
def time? (text : List Char) : Option (List Char) := do
  let (_, text) ← digits? 2 0 23 text
  let (_, text) ← digits? 2 0 59 (← sign? ':' text)
  let (_, text) ← digits? 2 0 60 (← sign? ':' text)
  return fraction text
where
  fraction : List Char → List Char
    | '.' :: c :: rest => if c.isDigit then rest.dropWhile Char.isDigit else '.' :: c :: rest
    | text => text

def offset? : List Char → Option (List Char)
  | 'Z' :: rest | 'z' :: rest => some rest
  | '+' :: rest | '-' :: rest => do
    let (_, rest) ← digits? 2 0 23 rest
    let (_, rest) ← digits? 2 0 59 (← sign? ':' rest)
    return rest
  | _ => none

-- A date, a time, or both, and in the last case also how far off the time is.
def moment? (text : List Char) : Option (List Char) :=
  match date? text with
  | none => time? text
  | some rest =>
    match timeAfterDate rest with
    | none => some rest
    | some rest => some ((offset? rest).getD rest)
where
  timeAfterDate : List Char → Option (List Char)
    | 'T' :: rest | 't' :: rest | ' ' :: rest => time? rest
    | _ => none

end TagRegistry.Toml
