import Termwise.Number.Power
import Termwise.Toml.Text
import Termwise.Toml.Value

/-!
# Termwise.Toml.Number

Numbers, dates and times of TOML documents.  Of a floating-point number only its form
is kept, and that it is not too great; of a date or time only its form.

```text
42  -1_000  0xff  0o17  0b101          64 bits; underscores between digits only
1.5  1e10  -2.5E-3  inf  nan
1979-05-27  07:32:00.5  1979-05-27T07:32:00+01:00
```
-/

namespace Termwise.Toml

/-! ## digits -/

/-- Further digits of a number, with single underscores between them. -/
def moreDigits? (isDigit : Char → Bool) : List Char → Option (List Char × List Char)
  | '_' :: c :: rest =>
    if isDigit c then cons? (some c) (moreDigits? isDigit rest) else none
  | ['_'] => none
  | c :: rest =>
    if isDigit c then cons? (some c) (moreDigits? isDigit rest) else some ([], c :: rest)
  | [] => some ([], [])

/-- The digits of a number, at least one. -/
def digits? (isDigit : Char → Bool) : List Char → Option (List Char × List Char)
  | c :: rest => if isDigit c then cons? (some c) (moreDigits? isDigit rest) else none
  | [] => none

/-- The digits of a decimal number without a leading zero. -/
def decimal? : List Char → Option (List Char × List Char)
  | '0' :: rest => some (['0'], rest)
  | cs => digits? Char.isDigit cs

/-- The number that digits of a base stand for. -/
def ofDigits (base : Nat) (digits : List Char) : Nat :=
  digits.foldl (fun n c => base * n + (hexDigit? c).getD 0) 0

/-! ## numbers -/

/-- An integer that has 64 bits. -/
def integer? (n : Int) : Option Value :=
  if -2 ^ 63 ≤ n ∧ n < 2 ^ 63 then some (.integer n) else none

/-- An integer of another base, after its base mark. -/
def based? (base : Nat) (cs : List Char) : Option (Value × List Char) := do
  let isDigit (c : Char) : Bool := (hexDigit? c).any (· < base)
  let (digits, rest) ← digits? isDigit cs
  return (← integer? (ofDigits base digits), rest)

/-- Decimal numbers from here on round to infinity. -/
def overflowLimit : Nat := 2 ^ 1024 - 2 ^ 970

/-- Whether `m * 10 ^ e` rounds to infinity. -/
def overflows (m : Nat) (e : Int) : Bool :=
  let magnitude : Int := (toString m).length + e
  if m = 0 ∨ magnitude < 300 then false
  else if 320 < magnitude then true
  else if 0 ≤ e then overflowLimit ≤ m * 10 ^ e.toNat
  else overflowLimit * 10 ^ (-e).toNat ≤ m

/-- The digits after a decimal point, if there is one. -/
def fraction? : List Char → Option (List Char × List Char)
  | '.' :: rest => digits? Char.isDigit rest
  | rest => some ([], rest)

/-- The exponent of a decimal number, 0 if there is none. -/
def exponent? (cs : List Char) : Option (Int × List Char) :=
  match cs with
  | 'e' :: rest | 'E' :: rest =>
    match rest with
    | '-' :: rest =>
      (digits? Char.isDigit rest).map fun (ds, rest) => (-(ofDigits 10 ds : Int), rest)
    | '+' :: rest =>
      (digits? Char.isDigit rest).map fun (ds, rest) => ((ofDigits 10 ds : Int), rest)
    | rest => (digits? Char.isDigit rest).map fun (ds, rest) => ((ofDigits 10 ds : Int), rest)
  | rest => some (0, rest)

/-- A decimal number after its sign. -/
def signed? (negative : Bool) (cs : List Char) : Option (Value × List Char) :=
  match cs with
  | 'i' :: 'n' :: 'f' :: rest | 'n' :: 'a' :: 'n' :: rest => some (.float, rest)
  | _ => do
    let (whole, afterWhole) ← decimal? cs
    let (part, afterPart) ← fraction? afterWhole
    let (e, rest) ← exponent? afterPart
    if rest.length = afterWhole.length then
      let n : Int := ofDigits 10 whole
      return (← integer? (if negative then -n else n), rest)
    else if !negative && overflows (ofDigits 10 (whole ++ part)) (e - part.length) then none
    else return (.float, rest)

/-- A number. -/
def number? (cs : List Char) : Option (Value × List Char) :=
  match cs with
  | '0' :: 'x' :: rest => based? 16 rest
  | '0' :: 'o' :: rest => based? 8 rest
  | '0' :: 'b' :: rest => based? 2 rest
  | '-' :: rest => signed? true rest
  | '+' :: rest => signed? false rest
  | _ => signed? false cs

/-! ## dates and times -/

/-- A number of so many digits within a range. -/
def field? (width least most : Nat) (cs : List Char) : Option (Nat × List Char) :=
  let digits := cs.take width
  let n := ofDigits 10 digits
  if digits.length = width && digits.all Char.isDigit && least ≤ n && n ≤ most then
    some (n, cs.drop width)
  else none

/-- The rest after a given character. -/
def mark? (c : Char) : List Char → Option (List Char)
  | d :: rest => if d = c then some rest else none
  | [] => none

/-- Number of days of a month. -/
def daysIn (year month : Nat) : Nat :=
  if month = 2 then if year % 4 = 0 ∧ (year % 100 ≠ 0 ∨ year % 400 = 0) then 29 else 28
  else if month = 4 ∨ month = 6 ∨ month = 9 ∨ month = 11 then 30
  else 31

/-- The rest after a date. -/
def date? (cs : List Char) : Option (List Char) := do
  let (year, cs) ← field? 4 0 9999 cs
  let (month, cs) ← field? 2 1 12 (← mark? '-' cs)
  let (_, cs) ← field? 2 1 (daysIn year month) (← mark? '-' cs)
  return cs

/-- The rest after hours and minutes. -/
def clock? (cs : List Char) : Option (List Char) := do
  let (_, cs) ← field? 2 0 23 cs
  let (_, cs) ← field? 2 0 59 (← mark? ':' cs)
  return cs

/-- The rest after a time of day. -/
def timeOfDay? (cs : List Char) : Option (List Char) := do
  let (_, cs) ← field? 2 0 60 (← mark? ':' (← clock? cs))
  match cs with
  | '.' :: c :: rest => if c.isDigit then some (rest.dropWhile Char.isDigit) else none
  | ['.'] => none
  | _ => some cs

/-- The rest after the offset of a time, if there is one. -/
def offset? (cs : List Char) : Option (List Char) :=
  match cs with
  | 'Z' :: rest | 'z' :: rest => some rest
  | '+' :: rest | '-' :: rest => clock? rest
  | _ => some cs

/-- A date, a time of day, or both. -/
def time? (cs : List Char) : Option (Value × List Char) :=
  match date? cs with
  | some rest =>
    match rest with
    | c :: later =>
      if c = 'T' ∨ c = 't' ∨ c = ' ' then
        match (timeOfDay? later).bind offset? with
        | some rest => some (.time, rest)
        | none => some (.time, rest)
      else some (.time, rest)
    | [] => some (.time, rest)
  | none => (timeOfDay? cs).map fun rest => (.time, rest)

end Termwise.Toml
