/-!
# Double precision

Budgets of resource elements are computed in double precision.

- `Double.ofSingle`: the same number in double precision, by its digits.
- `Double.ofNat`: the nearest number to a machine size.
- `Double.ceil`: the least machine size that is not below a number.
-/

namespace Uplink

namespace Double

/-- The same number in double precision. -/
def ofSingle (x : Float32) : Float :=
  let bits := x.toBits.toUInt64
  let sign := (bits >>> 31) <<< 63
  let exponent := (bits >>> 23) &&& 0xFF
  let digits := bits &&& 0x7FFFFF
  if exponent == 0xFF then
    .ofBits (sign ||| (0x7FF0000000000000 : UInt64) ||| (digits <<< (29 : UInt64)))
  else if exponent == 0 then
    -- a subnormal number is a multiple of the smallest one
    let magnitude := digits.toFloat * .ofBits 0x36A0000000000000
    if sign == 0 then magnitude else -magnitude
  else .ofBits (sign ||| ((exponent + 896) <<< (52 : UInt64)) ||| (digits <<< (29 : UInt64)))

/-- The nearest double precision number to a machine size. -/
def ofNat (n : Nat) : Float := n.toUInt64.toFloat

/-- The least machine size not below `x`; the largest of all beyond their range, and zero for
NaN. -/
def ceil (x : Float) : Nat :=
  if (18446744073709551615 : Float) ≤ x then 18446744073709551615
  else
    let whole := x.toUInt64
    if whole.toFloat < x then whole.toNat + 1 else whole.toNat

end Double

end Uplink
