import JavaAbi.Text.Digits
import JavaAbi.Toml.Value

namespace JavaAbi.Toml.Reader

/-!
# Numbers and dates of TOML

* `number?` — an integer of 64 bits, or a float;
* `dateTime?` — a date, a time, or both with an offset.

Each reader takes what is left of the text and gives what is left after what it read.
-/

/-! ### Numbers -/

/-- Further digits; a single underscore may stand before each. Gives them without underscores. -/
def moreDigits (base : Nat) : List Char → List Char × List Char
  | [] => ([], [])
  | '_' :: c :: rest =>
    if isDigitOf base c then
      let (digits, rest) := moreDigits base rest
      (c :: digits, rest)
    else ([], '_' :: c :: rest)
  | c :: rest =>
    if isDigitOf base c then
      let (digits, rest) := moreDigits base rest
      (c :: digits, rest)
    else ([], c :: rest)

/-- One or more digits. -/
def digits? (base : Nat) : List Char → Option (List Char × List Char)
  | [] => none
  | c :: rest =>
    if isDigitOf base c then
      let (digits, rest) := moreDigits base rest
      some (c :: digits, rest)
    else none

/-- The digits before a point: a number does not start with a needless zero. -/
def whole? : List Char → Option (List Char × List Char)
  | '0' :: rest => some (['0'], rest)
  | cs => digits? 10 cs

/-- A fraction, if there is one. -/
def fraction? : List Char → Option (Option (List Char) × List Char)
  | '.' :: rest => (digits? 10 rest).map fun (digits, rest) => (some digits, rest)
  | cs => some (none, cs)

/-- Whether a number is negative, and what follows its sign. -/
def sign : List Char → Bool × List Char
  | '-' :: rest => (true, rest)
  | '+' :: rest => (false, rest)
  | cs => (false, cs)

/-- An exponent, if there is one. -/
def exponent? : List Char → Option (Option Int × List Char)
  | [] => some (none, [])
  | c :: rest =>
    if c = 'e' || c = 'E' then
      let (negative, rest) := sign rest
      (digits? 10 rest).map fun (digits, rest) =>
        let n : Int := digitsValue 10 digits
        (some (if negative then -n else n), rest)
    else some (none, c :: rest)

/-- Whether `m * 10 ^ e`, where `m` has these digits, rounds to a finite double: the least number
    that does not is half a unit above the greatest one, `(2 ^ 53 - 1) * 2 ^ 971`. The number of
    digits decides unless it is close. -/
def roundsFinite (digits : List Char) (e : Int) : Bool :=
  let digits := digits.dropWhile (· = '0')
  let length : Int := digits.length + e
  let least := Nat.pow 2 1024 - Nat.pow 2 970
  if digits.isEmpty || length < 309 then true
  else if 309 < length then false
  else digitsValue 10 digits * Nat.pow 10 e.toNat < least * Nat.pow 10 (-e).toNat

/-- The integers that a value may be. -/
def isInteger64 (n : Int) : Bool :=
  let limit : Int := Nat.pow 2 63
  decide (-limit ≤ n) && decide (n < limit)

/-- An integer, if it is not too large. -/
def integer? (negative : Bool) (base : Nat) (digits : List Char) : Option Toml :=
  let n : Int := digitsValue base digits
  let n := if negative then -n else n
  if isInteger64 n then some (.integer n) else none

/-- The characters of `cs` before `rest`. -/
def taken (cs rest : List Char) : List Char := cs.take (cs.length - rest.length)

/-- A decimal number. A float that is too large is refused, a negative one is not. -/
def decimal? (cs : List Char) : Option (Toml × List Char) := do
  let (negative, digits) := sign cs
  match digits with
  | 'i' :: 'n' :: 'f' :: rest => return (.float (taken cs rest), rest)
  | 'n' :: 'a' :: 'n' :: rest => return (.float (taken cs rest), rest)
  | digits =>
    let (whole, rest) ← whole? digits
    let (fraction, rest) ← fraction? rest
    let (exponent, rest) ← exponent? rest
    if fraction.isNone && exponent.isNone then
      return (← integer? negative 10 whole, rest)
    let fraction := fraction.getD []
    if negative || roundsFinite (whole ++ fraction) (exponent.getD 0 - fraction.length) then
      return (.float (taken cs rest), rest)
    none

/-- A number. -/
def number? (cs : List Char) : Option (Toml × List Char) :=
  let inBase (base : Nat) (cs : List Char) : Option (Toml × List Char) := do
    let (digits, rest) ← digits? base cs
    return (← integer? false base digits, rest)
  match cs with
  | '0' :: 'x' :: rest => inBase 16 rest
  | '0' :: 'o' :: rest => inBase 8 rest
  | '0' :: 'b' :: rest => inBase 2 rest
  | cs => decimal? cs

/-! ### Dates -/

/-- Digits of a fixed number, which write a number between two bounds. -/
def field? (count low high : Nat) (cs : List Char) : Option (Nat × List Char) :=
  let digits := cs.take count
  let n := digitsValue 10 digits
  if digits.length = count && digits.all Char.isDigit && low ≤ n && n ≤ high then
    some (n, cs.drop count)
  else none

/-- Steps over a character. -/
def char? (c : Char) : List Char → Option (List Char)
  | [] => none
  | d :: rest => if d = c then some rest else none

/-- The number of days of a month. -/
def daysOf (year month : Nat) : Nat :=
  match month with
  | 2 => if year % 4 = 0 && (year % 100 ≠ 0 || year % 400 = 0) then 29 else 28
  | 4 | 6 | 9 | 11 => 30
  | _ => 31

/-- A day such as `1979-05-27`. -/
def day? (cs : List Char) : Option (List Char) := do
  let (year, rest) ← field? 4 0 9999 cs
  let (month, rest) ← field? 2 1 12 (← char? '-' rest)
  let (_, rest) ← field? 2 1 (daysOf year month) (← char? '-' rest)
  return rest

/-- A time such as `07:32:00` or `07:32:00.5`. -/
def time? (cs : List Char) : Option (List Char) := do
  let (_, rest) ← field? 2 0 23 cs
  let (_, rest) ← field? 2 0 59 (← char? ':' rest)
  let (_, rest) ← field? 2 0 60 (← char? ':' rest)
  match rest with
  | '.' :: c :: more => return if c.isDigit then more.dropWhile Char.isDigit else rest
  | rest => return rest

/-- An offset such as `Z` or `-07:00`. -/
def offset? : List Char → Option (List Char)
  | [] => none
  | c :: rest =>
    if c = 'Z' || c = 'z' then some rest
    else if c = '+' || c = '-' then do
      let (_, rest) ← field? 2 0 23 rest
      let (_, rest) ← field? 2 0 59 (← char? ':' rest)
      return rest
    else none

/-- What follows a day: perhaps a time, and after it perhaps an offset. -/
def afterDay (cs : List Char) : List Char :=
  match cs with
  | c :: rest =>
    if c = 'T' || c = 't' || c = ' ' then
      match time? rest with
      | some rest => (offset? rest).getD rest
      | none => cs
    else cs
  | [] => []

/-- A date. -/
def dateTime? (cs : List Char) : Option (Toml × List Char) :=
  (((day? cs).map afterDay) <|> time? cs).map fun rest => (.date (taken cs rest), rest)

end JavaAbi.Toml.Reader
