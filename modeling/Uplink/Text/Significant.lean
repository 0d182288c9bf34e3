import Uplink.Single

/-!
# Significant digits

Scientific notation of single precision numbers with a fixed number of significant digits, rounded
from the exact value to the nearest, a tie to the even digit.

- `Text.Ratio`: a positive fraction.
- `Text.Ratio.decimalExponent`: the power of ten of its first digit.
- `Text.scientific`: the text of a number.
-/

namespace Uplink

namespace Text

/-- A positive fraction. -/
structure Ratio where
  num : Nat
  den : Nat

namespace Ratio

/-- The fraction times a power of ten. -/
def scaleTen (r : Ratio) (e : Int) : Ratio :=
  if 0 ≤ e then ⟨r.num * Nat.pow 10 e.toNat, r.den⟩
  else ⟨r.num, r.den * Nat.pow 10 (-e).toNat⟩

/-- The nearest whole number; a tie goes to the even one. -/
def round (r : Ratio) : Nat :=
  let q := r.num / r.den
  let rest := 2 * (r.num % r.den)
  if r.den < rest || (rest == r.den && q % 2 == 1) then q + 1 else q

/-- The greatest exponent between -60 and 60 whose power of ten the fraction reaches. -/
def decimalExponent (r : Ratio) : Int :=
  let candidates := (List.range 121).map fun (i : Nat) => (60 : Int) - i
  (candidates.find? fun e => let s := r.scaleTen (-e); s.den ≤ s.num).getD 0

end Ratio

/-- The exact magnitude of a finite number that is not zero. -/
def magnitude (x : Float32) : Ratio :=
  let bits := x.toBits.toNat % 0x80000000
  let implicitOne := 0x800000
  let significand := if bits < implicitOne then bits else bits % implicitOne + implicitOne
  let exponent : Int := ((max (bits / implicitOne) 1 : Nat) : Int) - 150
  if 0 ≤ exponent then ⟨significand * Nat.pow 2 exponent.toNat, 1⟩
  else ⟨significand, Nat.pow 2 (-exponent).toNat⟩

/-- The number in scientific notation with `places` digits after the point. -/
def scientific (places : Nat) (x : Float32) : String :=
  if x.isNaN then "nan"
  else if x.isInf then (if x < 0 then "-inf" else "inf")
  else if x == 0 then "0." ++ String.ofList (List.replicate places '0') ++ "e0"
  else
    let r := magnitude x
    let e := r.decimalExponent
    let n := (r.scaleTen (places - e)).round
    -- rounding up may carry into one more digit
    let (n, e) := if n = Nat.pow 10 (places + 1) then (Nat.pow 10 places, e + 1) else (n, e)
    let digits := Nat.toDigits 10 n
    (if x < 0 then "-" else "") ++ String.ofList (digits.take 1) ++ "."
      ++ String.ofList (digits.drop 1) ++ "e"
      ++ (if e < 0 then "-" ++ Nat.repr (-e).toNat else Nat.repr e.toNat)

end Text

end Uplink
