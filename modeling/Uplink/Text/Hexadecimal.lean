/-!
# Hexadecimal text

Numbers in base sixteen with lower case digits, filled with zeros to a least width.
-/

namespace Uplink

namespace Text

/-- The digits of `n` in base sixteen, at least `width` of them. -/
def hexadecimal (width n : Nat) : String :=
  let digits := Nat.toDigits 16 n
  String.ofList (List.replicate (width - digits.length) '0' ++ digits)

end Text

end Uplink
