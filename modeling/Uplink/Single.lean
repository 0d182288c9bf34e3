import Uplink.Fault

/-!
# Single precision

Signal arithmetic is IEEE single precision, and the order of its operations is part of every
definition. This module holds the operations beside `+ - * /` that the receiver needs.

- `Single.ofNat`, `Single.ofInt8`: conversion of counts and soft values.
- `Single.least`: the smaller of two numbers, where a number wins over NaN.
- `Single.limit`, `Single.clamp`: limit to an interval; `clamp` refuses ends that are not ordered.
- `Single.withSignOf`, `Single.totalOrderKey`: sign transfer and the total order of the bit
  patterns.
- `Single.ofDecibels`, `Single.toDecibels`: amplitudes and powers on the decibel scale.
-/

namespace Uplink

namespace Single

/-- Positive infinity. -/
def infinity : Float32 := .ofBits 0x7f800000

/-- Negative infinity. -/
def negInfinity : Float32 := .ofBits 0xff800000

/-- The nearest single precision number to a machine size. -/
def ofNat (n : Nat) : Float32 := n.toUInt64.toFloat32

/-- The value of a small signed integer, exactly. -/
def ofInt8 (v : Int8) : Float32 :=
  if v < 0 then -((-v).toUInt8.toFloat32) else v.toUInt8.toFloat32

/-- The smaller of two numbers; a NaN gives way to the other operand. -/
def least (a b : Float32) : Float32 :=
  if a.isNaN then b else if b < a then b else a

/-- The larger of two numbers; a NaN gives way to the other operand. -/
def greatest (a b : Float32) : Float32 :=
  if a.isNaN then b else if a < b then b else a

/-- The number of `[low, high]` nearest to `x`; NaN stays NaN. -/
def limit (x low high : Float32) : Float32 :=
  if x < low then low else if high < x then high else x

/-- Limit `x` to `[low, high]`, whose ends have to be ordered numbers. -/
def clamp (x low high : Float32) : Checked Float32 :=
  if low ≤ high then .ok (limit x low high) else .error .arithmetic

/-- The magnitude of `x` with the sign of `y`. -/
def withSignOf (x y : Float32) : Float32 :=
  .ofBits ((x.toBits &&& 0x7fffffff) ||| (y.toBits &&& 0x80000000))

/-- A key that orders all single precision numbers by sign and magnitude of their bit patterns:
negative NaN, negative numbers, -0, +0, positive numbers, positive NaN. -/
def totalOrderKey (x : Float32) : Int :=
  let bits := x.toBits
  if bits < 0x80000000 then bits.toNat else -(bits.toNat : Int) + 0x7fffffff

/-- The linear amplitude of a ratio in decibels. -/
def ofDecibels (db : Float32) : Float32 := Float32.pow 10 (db / 20)

/-- A linear power in decibels. -/
def toDecibels (power : Float32) : Float32 := 10 * power.log10

/-- The sum of the terms from left to right, starting from zero. -/
def sum (terms : Array Float32) : Float32 := terms.foldl (· + ·) 0

end Single

end Uplink
