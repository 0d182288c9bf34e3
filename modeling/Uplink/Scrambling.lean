import Uplink.GoldSequence
import Uplink.Numerology

/-!
# Scrambling

Codewords are scrambled by a Gold sequence of the device and the cell. Short control messages hold
placeholders that are resolved here, so that their bits sit on the outer points of the symbols.

- `Scrambling.one`, `Scrambling.previous`: the two placeholders.
- `Scrambling.scramble`: the scrambled codeword; each element, placeholder or not, uses one bit of
  the sequence.
-/

namespace Uplink

namespace Scrambling

/-- Placeholder that is sent as a one. -/
def one : UInt8 := 2

/-- Placeholder that is sent as the bit before it. -/
def previous : UInt8 := 3

/-- The seed of a device's data in a cell. -/
def seed (rnti : Rnti) (cellId : UInt16) : UInt32 := (rnti.toUInt32 <<< 15) + cellId.toUInt32

/-- What is sent for an element of a codeword, after the bit `last` and with sequence bit `c`. -/
def resolve (last c element : UInt8) : UInt8 :=
  if element = one then 1 else if element = previous then last else element ^^^ c

/-- The scrambled codeword. -/
def scramble (codeword : Bits) (rnti : Rnti) (cellId : UInt16) : Bits :=
  (codeword.foldl
    (fun (sent, g) element =>
      (sent.push (resolve (sent.back?.getD 0) g.bit element), g.advance))
    ((#[] : Bits), GoldSequence.ofSeed (seed rnti cellId))).1

end Scrambling

end Uplink
