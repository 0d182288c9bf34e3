import Uplink.Toml.Quoted
import Uplink.Toml.Value

/-!
# Numbers and moments

- `Scanner.integer`: decimal, hexadecimal, octal and binary numbers in the range of 64-bit integers.
- `Scanner.float`: numbers with a fraction or an exponent, infinities and NaN.
- `Scanner.moment`: dates and times of day; only possible ones.

Single underscores may stand between digits.
-/

namespace Uplink

namespace Toml

namespace Scanner

/-! ## Digits -/

/-- A decimal digit. -/
def isDigit (c : Char) : Bool := '0' ≤ c && c ≤ '9'

/-- A digit below `base`. -/
def isDigitOf (base : Nat) (c : Char) : Bool := (hexDigit? c).any (· < base)

/-- The number that digits stand for. -/
def numberOf (base : Nat) (digits : List Char) : Nat :=
  digits.foldl (fun value c => base * value + (hexDigit? c).getD 0) 0

/-- Digits with single underscores between them. -/
def digitRun (isDigit : Char → Bool) : Scanner (List Char) := do
  let first ← next isDigit
  return first :: (← many (next isDigit <|> (char '_' *> next isDigit)))

/-- Decimal digits without a leading zero, unless zero is the only one. -/
def wholeDigits : Scanner (List Char) := do
  if (← peek) == some '0' then
    let zero ← next isDigit
    return [zero]
  else digitRun isDigit

/-- An optional sign; whether it is a minus. -/
def sign : Scanner Bool := do
  match ← maybe (next fun c => c == '+' || c == '-') with
  | some c => return c == '-'
  | none => return false

/-! ## Numbers -/

/-- The integer, if it has 64 bits. -/
def checkedInteger (negative : Bool) (magnitude : Nat) : Scanner Value := do
  let value : Int := if negative then -magnitude else magnitude
  if Int64.minValue.toInt ≤ value ∧ value ≤ Int64.maxValue.toInt then return .integer value
  else failure

/-- An integer in a base that is named by a letter after a zero. -/
def basedInteger (mark : String) (base : Nat) : Scanner Value := do
  keyword mark
  checkedInteger false (numberOf base (← digitRun (isDigitOf base)))

/-- An integer. -/
def integer : Scanner Value :=
  basedInteger "0x" 16 <|> basedInteger "0o" 8 <|> basedInteger "0b" 2 <|> do
    let negative ← sign
    checkedInteger negative (numberOf 10 (← wholeDigits))

/-- The double precision number nearest to `mantissa * 10 ^ exponent`. -/
def nearestFloat (mantissa : Nat) (exponent : Int) : Float :=
  let digits : Int := (Nat.toDigits 10 mantissa).length
  if mantissa = 0 ∨ digits + exponent < -400 then 0
  else if 400 < digits + exponent then .ofBits 0x7FF0000000000000
  else if 0 ≤ exponent then Float.ofScientific (mantissa * Nat.pow 10 exponent.toNat) false 0
  else Float.ofScientific mantissa true (-exponent).toNat

/-- The digits after a point. -/
def fraction : Scanner (List Char) := do
  char '.'
  digitRun isDigit

/-- An exponent of ten. -/
def exponent : Scanner Int := do
  let _ ← next fun c => c == 'e' || c == 'E'
  let negative ← sign
  let magnitude := numberOf 10 (← digitRun isDigit)
  return if negative then -magnitude else magnitude

/-- A number with a fraction, an exponent or both, below infinity. -/
def decimalFloat : Scanner Value := do
  let negative ← sign
  let whole ← wholeDigits
  let parts ← maybe fraction
  let power ← maybe exponent
  if parts.isNone ∧ power.isNone then failure
  let places := parts.getD []
  let magnitude := nearestFloat (numberOf 10 (whole ++ places)) (power.getD 0 - places.length)
  let value := if negative then -magnitude else magnitude
  if value == .ofBits 0x7FF0000000000000 then failure else return .float value

/-- An infinity or NaN by name. -/
def namedFloat : Scanner Value := do
  let negative ← sign
  let magnitude : Float ←
    (do keyword "inf"; return .ofBits 0x7FF0000000000000)
      <|> (do keyword "nan"; return .ofBits 0x7FF8000000000000)
  return .float (if negative then -magnitude else magnitude)

/-- A number that is not written as an integer. -/
def float : Scanner Value := decimalFloat <|> namedFloat

/-! ## Moments -/

/-- A number of exactly `count` digits, from `low` to `high`. -/
def numberBetween (count low high : Nat) : Scanner Nat := do
  let value := numberOf 10 (← exactly (next isDigit) count)
  if low ≤ value ∧ value ≤ high then return value else failure

/-- Days of a month. -/
def daysOf (year month : Nat) : Nat :=
  if month = 2 then (if year % 4 = 0 ∧ (year % 100 ≠ 0 ∨ year % 400 = 0) then 29 else 28)
  else if [4, 6, 9, 11].contains month then 30
  else 31

/-- A date. -/
def date : Scanner Unit := do
  let year ← numberBetween 4 0 9999
  char '-'
  let month ← numberBetween 2 1 12
  char '-'
  let _ ← numberBetween 2 1 (daysOf year month)

/-- A time of day, with any fraction of a second. -/
def timeOfDay : Scanner Unit := do
  let _ ← numberBetween 2 0 23
  char ':'
  let _ ← numberBetween 2 0 59
  char ':'
  let _ ← numberBetween 2 0 60
  let _ ← maybe (do char '.'; let _ ← next isDigit; takeWhile isDigit)

/-- The distance of a time of day from universal time. -/
def timeOffset : Scanner Unit := do
  match ← next fun c => ['Z', 'z', '+', '-'].contains c with
  | 'Z' | 'z' => return ()
  | _ =>
    let _ ← numberBetween 2 0 23
    char ':'
    let _ ← numberBetween 2 0 59

/-- The time of day that may follow a date. -/
def timeAfterDate : Scanner Unit := do
  let _ ← next fun c => ['T', 't', ' '].contains c
  timeOfDay
  let _ ← maybe timeOffset

/-- A date, a time of day or both. -/
def moment : Scanner Value := do
  let before ← get
  (do date; let _ ← maybe timeAfterDate) <|> timeOfDay
  let after ← get
  return .moment (String.ofList (before.take (before.length - after.length)))

end Scanner

end Toml

end Uplink
