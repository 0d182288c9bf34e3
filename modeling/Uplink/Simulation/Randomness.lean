/-!
# Random numbers

What the simulation takes from a library of random numbers. Nothing is asked of the numbers
themselves, so what is said of a simulation is said of it with every library.

- `Randomness`: generators of bytes and of numbers in a range, and normal distributions.
- `Randomness.bytes`, `Randomness.bits`: many numbers at once.
-/

namespace Uplink

namespace Simulation

/-- A library of random numbers. -/
class Randomness where
  /-- The state of a generator. -/
  Generator : Type
  /-- The generator of a seed. -/
  ofSeed : UInt64 → Generator
  /-- Draw a byte. -/
  byte : Generator → UInt8 × Generator
  /-- Draw a number from `low` up to, not including, `high`. -/
  between : Generator → (low high : Nat) → Nat × Generator
  /-- A normal distribution. -/
  Normal : Type
  /-- The distribution with a mean and a standard deviation, if the deviation is finite. -/
  normal? : (mean deviation : Float32) → Option Normal
  /-- Draw from a distribution. -/
  sample : Normal → Generator → Float32 × Generator

namespace Randomness

variable [Randomness]

/-- Draw `length` bytes. -/
def bytes (g : Generator) (length : Nat) : Array UInt8 × Generator :=
  (List.range length).foldl
    (fun (out, g) _ => let (b, g) := byte g; (out.push b, g))
    (Array.mkEmpty length, g)

/-- Draw `length` bits. -/
def bits (g : Generator) (length : Nat) : Array UInt8 × Generator :=
  (List.range length).foldl
    (fun (out, g) _ => let (b, g) := between g 0 2; (out.push b.toUInt8, g))
    (Array.mkEmpty length, g)

end Randomness

end Simulation

end Uplink
