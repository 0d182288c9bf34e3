import Uplink.Text.Significant

/-!
# Fixed places

Positional notation of single precision numbers with a fixed number of digits after the point,
rounded from the exact value to the nearest, a tie to the even digit.
-/

namespace Uplink

namespace Text

/-- The digits of `n`, at least `width` of them. -/
def padded (width n : Nat) : String :=
  let digits := Nat.toDigits 10 n
  String.ofList (List.replicate (width - digits.length) '0' ++ digits)

/-- The number with `places` digits after the point. -/
def fixed (places : Nat) (x : Float32) : String :=
  if x.isNaN then "NaN"
  else
    let sign := if x.toBits >>> 31 == 0 then "" else "-"
    if x.isInf then sign ++ "inf"
    else
      let n := ((magnitude x).scaleTen places).round
      sign ++ Nat.repr (n / Nat.pow 10 places) ++ "." ++ padded places (n % Nat.pow 10 places)

end Text

end Uplink
