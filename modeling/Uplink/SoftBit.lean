import Uplink.Single
import Uplink.Bits

/-!
# Soft bits

A soft bit is a log-likelihood ratio in eight bits. A positive value favours a zero bit.

- `SoftBit.max`, `SoftBit.isCertain`: the largest magnitude that arithmetic reaches, and whether a
  bit is known beyond it.
- `SoftBit.add`: the saturating sum; a certain bit absorbs whatever is added.
- `SoftBit.neg`: the opposite value, which the lowest value does not have.
- `SoftBit.ofSingle`: quantization, half away from zero.
-/

namespace Uplink

/-- A log-likelihood ratio in eight bits. -/
structure SoftBit where
  value : Int8
deriving DecidableEq, Inhabited, Repr

namespace SoftBit

/-- The largest magnitude that arithmetic reaches. -/
def max : Int := 120

/-- No knowledge of the bit. -/
def erased : SoftBit := ⟨0⟩

/-- A zero bit known with certainty. -/
def certainZero : SoftBit := ⟨127⟩

/-- The bit is known with certainty. -/
def isCertain (a : SoftBit) : Bool := a.value == 127 || a.value == -127

/-- The soft bit of a value limited to the reach of arithmetic. -/
def saturate (v : Int) : SoftBit :=
  ⟨Int8.ofInt (if v < -max then -max else if max < v then max else v)⟩

/-- The saturating sum; a certain operand, the first one before the second, is the result. -/
def add (a b : SoftBit) : SoftBit :=
  if a.isCertain then a
  else if b.isCertain then b
  else saturate (a.value.toInt + b.value.toInt)

instance : Add SoftBit := ⟨add⟩

/-- The opposite value. -/
def neg (a : SoftBit) : Checked SoftBit :=
  if a.value == -128 then .error .arithmetic else .ok ⟨-a.value⟩

/-- The likelier bit: one for negative values, zero otherwise. -/
def hardDecision (a : SoftBit) : UInt8 := if a.value < 0 then 1 else 0

/-- The value as a single precision number. -/
def toSingle (a : SoftBit) : Float32 := Single.ofInt8 a.value

/-- The magnitude nearest to `x`, limited to the reach of arithmetic, for `x` not negative. -/
def quantizedMagnitude (x : Float32) : UInt8 :=
  if (120 : Float32) ≤ x then 120
  else
    let whole := x.toUInt8
    if (0.5 : Float32) ≤ x - whole.toFloat32 then whole + 1 else whole

/-- The nearest soft bit to a real value, halves away from zero and limited to the reach of
arithmetic; NaN carries no knowledge. -/
def ofSingle (x : Float32) : SoftBit :=
  if x.isNaN then erased
  else if x < 0 then ⟨-(quantizedMagnitude (-x)).toInt8⟩
  else ⟨(quantizedMagnitude x).toInt8⟩

@[simp] theorem isCertain_certainZero : certainZero.isCertain = true := rfl

@[simp] theorem isCertain_erased : erased.isCertain = false := rfl

/-- A certain bit absorbs what is added to it. -/
theorem add_of_isCertain {a : SoftBit} (h : a.isCertain = true) (b : SoftBit) : a + b = a := by
  show add a b = a
  simp [add, h]

end SoftBit

end Uplink
