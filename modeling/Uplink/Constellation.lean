import Uplink.Complex
import Uplink.Modulation
import Uplink.SoftBit

/-!
# Constellations

Square constellations of two Gray coded axes: the even bits of a symbol select its in-phase
coordinate, the odd bits its quadrature coordinate.

- `Modulation.axisLevel`: the coordinate of the bits of one axis.
- `Modulation.map`: bits to symbols.
- `Modulation.softBits`, `Modulation.demap`: the soft bits of received symbols, by the nearest
  coordinates with the bit zero and one.
-/

namespace Uplink

namespace Modulation

/-! ## Mapping -/

/-- Plus one for a zero bit and minus one for a one. -/
def signOf (bit : UInt8) : Float32 := 1 - 2 * bit.toFloat32

/-- The distance from the axis end that the bits after the first one select. -/
def foldedLevel : List UInt8 → Float32
  | [] => 1
  | bit :: rest => Single.ofNat (Nat.pow 2 (rest.length + 1)) - signOf bit * foldedLevel rest

/-- The coordinate of the bits of one axis, in units of half the distance between neighbours. -/
def rawLevel : List UInt8 → Float32
  | [] => 1
  | bit :: rest => signOf bit * foldedLevel rest

/-- The unit that gives the constellation the mean power one. -/
def unitLevel (m : Modulation) : Float32 :=
  let levels := Single.ofNat (Nat.pow 4 m.bitsPerAxis)
  1 / (2 * (levels - 1) / 3).sqrt

/-- The coordinate of the bits of one axis. -/
def axisLevel (m : Modulation) (bits : List UInt8) : Float32 := rawLevel bits * m.unitLevel

/-- The bits of symbol `i` on the axis `axis`, in-phase 0 or quadrature 1. -/
def axisBits (m : Modulation) (bits : Bits) (i axis : Nat) : List UInt8 :=
  (List.range m.bitsPerAxis).map fun j => bits.getD (i * m.order + 2 * j + axis) 0

/-- The symbol number `i` of a bit sequence. -/
def symbolAt (m : Modulation) (bits : Bits) (i : Nat) : Complex :=
  ⟨m.axisLevel (m.axisBits bits i 0), m.axisLevel (m.axisBits bits i 1)⟩

/-- The `count` symbols of a bit sequence. -/
def map (m : Modulation) (bits : Bits) (count : Nat) : Checked (Array Complex) := do
  require (bits.size == count * m.order)
    s!"{bits.size} bits cannot fill {count} symbols of order {m.order}"
  return (Array.range count).map (m.symbolAt bits)

/-! ## Soft demapping -/

/-- The real soft value that takes the largest magnitude. -/
def softRange : Modulation → Float32
  | qpsk => 24
  | qam16 => 20
  | qam64 => 20
  | qam256 => 24

/-- The soft bit of a real soft value within `range`. -/
def quantizeWithin (value range : Float32) : SoftBit :=
  SoftBit.ofSingle (Single.limit value (-range) range * 120 / range)

/-- The soft bit of a real soft value, for a range that may be refused. -/
def quantize (value range : Float32) : Checked SoftBit := do
  let limited ← Single.clamp value (-range) range
  return SoftBit.ofSingle (limited * 120 / range)

/-- Bit `j` of a pattern of `n` bits, the first bit at the highest place. -/
def patternBit (n pattern j : Nat) : UInt8 := ((pattern >>> (n - 1 - j)) % 2).toUInt8

/-- The coordinates of all patterns of one axis. -/
def axisLevels (m : Modulation) : Array Float32 :=
  (Array.range (Nat.pow 2 m.bitsPerAxis)).map fun pattern =>
    m.axisLevel ((List.range m.bitsPerAxis).map (patternBit m.bitsPerAxis pattern))

/-- The least squared distance from `value` to a coordinate whose pattern has the given bit at
place `j`. -/
def nearest (m : Modulation) (levels : Array Float32) (value : Float32) (j : Nat) (bit : UInt8) :
    Float32 :=
  (levels.foldl
    (fun (least, pattern) level =>
      (if patternBit m.bitsPerAxis pattern j = bit then
          Single.least least ((value - level) * (value - level))
        else least, pattern + 1))
    (Single.infinity, 0)).1

/-- The real soft value of bit `j` of one axis. -/
def axisSoftValue (m : Modulation) (levels : Array Float32) (noise value : Float32) (j : Nat) :
    Float32 :=
  (m.nearest levels value j 1 - m.nearest levels value j 0) / noise

/-- A noise variance from which soft values can be found. -/
def usableNoise (noise : Float32) : Bool := decide (0 < noise) && noise.isFinite

/-- The soft bits of a received symbol. -/
def softBits (m : Modulation) (levels : Array Float32) (symbol : Complex) (noise : Float32) :
    Array SoftBit :=
  if usableNoise noise then
    (Array.range m.order).map fun t =>
      let value := if t % 2 = 0 then symbol.re else symbol.im
      quantizeWithin (m.axisSoftValue levels noise value (t / 2)) m.softRange
  else Array.replicate m.order SoftBit.erased

/-- The soft bits of received symbols, each with its noise variance. -/
def demapAll (m : Modulation) (symbols : Array Complex) (noise : Array Float32) : Array SoftBit :=
  let levels := m.axisLevels
  (symbols.zipWith (m.softBits levels) noise).foldl (· ++ ·) #[]

/-- The soft bits of received symbols, written to a buffer of `length` soft bits. -/
def demap (m : Modulation) (symbols : Array Complex) (noise : Array Float32) (length : Nat) :
    Checked (Array SoftBit) := do
  require (length == symbols.size * m.order) "Soft bit buffer does not match the symbol count"
  require (symbols.size == noise.size) "One noise variance per symbol is required"
  return m.demapAll symbols noise

end Modulation

end Uplink
