import Uplink.Complex
import Uplink.SoftBit

/-!
# Gold sequences

The pseudo-random sequence of scrambling and reference signals: the sum of two shift register
sequences of length 31, the first `1600` of whose bits are dropped.

- `GoldSequence`: the two registers, the next bits of each sequence at the lowest places.
- `GoldSequence.ofSeed`, `next`, `skip`, `nextQpsk`: the sequence of a seed and its consumption.
- `GoldSequence.scrambleBits`, `descramble`: the sequence added to bits and to soft bits.
-/

namespace Uplink

/-- A position in a Gold sequence: the next 31 bits of both component sequences. -/
structure GoldSequence where
  first : UInt32
  second : UInt32
deriving DecidableEq, Repr

namespace GoldSequence

/-- Bits dropped at the start. -/
def dropped : Nat := 1600

/-- The places of a register. -/
def places : UInt32 := 0x7FFFFFFF

/-- Shift a register by one place and put a new bit at its highest place. -/
def shiftIn (register bit : UInt32) : UInt32 := ((register >>> 1) ||| (bit <<< 30)) &&& places

/-- The bit 31 places after the lowest one of the first sequence. -/
def firstFeedback (x : UInt32) : UInt32 := ((x >>> 3) ^^^ x) &&& 1

/-- The bit 31 places after the lowest one of the second sequence. -/
def secondFeedback (x : UInt32) : UInt32 := ((x >>> 3) ^^^ (x >>> 2) ^^^ (x >>> 1) ^^^ x) &&& 1

/-- The position one bit later. -/
def advance (g : GoldSequence) : GoldSequence :=
  ⟨shiftIn g.first (firstFeedback g.first), shiftIn g.second (secondFeedback g.second)⟩

/-- The position `n` bits later. -/
def skip (g : GoldSequence) (n : Nat) : GoldSequence := n.repeat advance g

/-- The start of the sequence of a seed. -/
def ofSeed (seed : UInt32) : GoldSequence := skip ⟨1, seed &&& places⟩ dropped

/-- The bit at the position. -/
def bit (g : GoldSequence) : UInt8 := ((g.first ^^^ g.second) &&& 1).toUInt8

/-- Take the bit at the position. -/
def next (g : GoldSequence) : UInt8 × GoldSequence := (g.bit, g.advance)

/-- Take `n` bits. -/
def bits (g : GoldSequence) (n : Nat) : Bits × GoldSequence :=
  n.repeat (fun (taken, g) => (taken.push g.bit, g.advance)) (#[], g)

/-- Take two bits as a symbol whose parts have the given magnitude. -/
def nextQpsk (g : GoldSequence) (amplitude : Float32) : Complex × GoldSequence :=
  let (a, g) := g.next
  let (b, g) := g.next
  (⟨amplitude * (1 - 2 * a.toFloat32), amplitude * (1 - 2 * b.toFloat32)⟩, g)

/-- Take `n` symbols, appended to those taken before. -/
def qpsk (g : GoldSequence) (amplitude : Float32) (n : Nat) (taken : Array Complex) :
    Array Complex × GoldSequence :=
  n.repeat (fun (taken, g) => let (s, g) := g.nextQpsk amplitude; (taken.push s, g)) (taken, g)

/-- Add the sequence to bits. -/
def scrambleBits (g : GoldSequence) (bits : Bits) : Bits × GoldSequence :=
  bits.foldl (fun (out, g) b => (out.push (b ^^^ g.bit), g.advance)) (#[], g)

/-- Add the sequence to soft bits: a one turns the sign. -/
def descramble (g : GoldSequence) (softBits : Array SoftBit) :
    Checked (Array SoftBit × GoldSequence) :=
  softBits.foldlM
    (fun (out, g) a => do
      let a ← if g.bit = 1 then a.neg else .ok a
      return (out.push a, g.advance))
    (#[], g)

end GoldSequence

end Uplink
