import Uplink.Simulation.Randomness
import Uplink.Single

/-!
# Draws

A library of random numbers that is small enough to compute with: a linear congruential generator
whose state is one machine word. All randomness of a run with it follows from its seed.

- `Draws.next`: a number below `2 ^ 31`; `byte`, `between`, `unit`, `signed` derive from it.
- `Draws.bellShaped`: the centred sum of four units, with variance one.
-/

namespace Uplink

namespace Simulation

/-- A random source. -/
structure Draws where
  state : UInt64
deriving DecidableEq, Repr

namespace Draws

/-- The source of a seed. -/
def ofSeed (seed : UInt64) : Draws := ⟨seed⟩

/-- The source after one draw. -/
def advance (d : Draws) : Draws := ⟨d.state * 6364136223846793005 + 1442695040888963407⟩

/-- Draw a number below `2 ^ 31`. -/
def next (d : Draws) : UInt64 × Draws :=
  let d := d.advance
  (d.state >>> 33, d)

/-- Draw a byte. -/
def byte (d : Draws) : UInt8 × Draws :=
  let (x, d) := d.next
  ((x % 256).toUInt8, d)

/-- Draw a number from `low` up to, not including, `high`. -/
def between (d : Draws) (low high : Nat) : Nat × Draws :=
  let (x, d) := d.next
  (low + x.toNat % (high - low), d)

/-- Draw a multiple of `2 ^ -24` from zero up to, not including, one. -/
def unit (d : Draws) : Float32 × Draws :=
  let (x, d) := d.next
  ((x >>> 7).toFloat32 / 16777216, d)

/-- Draw a number from minus one up to, not including, one. -/
def signed (d : Draws) : Float32 × Draws :=
  let (u, d) := d.unit
  (u * 2 - 1, d)

/-- Draw from a bell-shaped distribution with mean zero and variance one: four units, centred. -/
def bellShaped (d : Draws) : Float32 × Draws :=
  let (a, d) := d.unit
  let (b, d) := d.unit
  let (c, d) := d.unit
  let (e, d) := d.unit
  (((0 + a) + b + c + e - 2) * 1.7320508, d)

end Draws

/-- A bell-shaped distribution. -/
structure Bell where
  mean : Float32
  deviation : Float32

namespace Bell

/-- The distribution with a mean and a standard deviation, if the deviation is finite. -/
def ofDeviation? (mean deviation : Float32) : Option Bell :=
  if deviation.isFinite then some ⟨mean, deviation⟩ else none

/-- Draw from the distribution. -/
def sample (bell : Bell) (d : Draws) : Float32 × Draws :=
  let (x, d) := d.bellShaped
  (bell.mean + bell.deviation * x, d)

end Bell

instance : Randomness where
  Generator := Draws
  ofSeed := Draws.ofSeed
  byte := Draws.byte
  between := Draws.between
  Normal := Bell
  normal? := Bell.ofDeviation?
  sample := Bell.sample

end Simulation

end Uplink
