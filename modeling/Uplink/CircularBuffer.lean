import Uplink.Codeblock
import Uplink.SoftBit

/-!
# Circular buffers

Rate matching reads the sent bits of a codeblock around a circular buffer, from a start that depends
on the redundancy version, and passes over the filler bits. The bits read are interleaved so that
those read first go to the most reliable places of the symbols.

- `Selection`: the positions of a buffer that are read, in order, as a closed form.
- `Codeblock.selection`: the selection of a codeblock.
- `Codeblock.interleaved`: where the bit read `k`-th goes.
- `Codeblock.rateMatch`, `Codeblock.rateDematch`: the two directions over the same route.
-/

namespace Uplink

open Ldpc

/-- A walk around the positions below `length` that passes over those from `fillerStart` up to, not
including, `fillerStop`. -/
structure Selection where
  length : Nat
  fillerStart : Nat
  fillerStop : Nat
  start : Nat
deriving DecidableEq, Repr

namespace Selection

/-- Number of positions below `p` that are not passed over. -/
def rank (s : Selection) (p : Nat) : Nat := p - (min p s.fillerStop - min p s.fillerStart)

/-- The position, not passed over, below which there are `r` others. -/
def unrank (s : Selection) (r : Nat) : Nat :=
  if r < s.fillerStart then r else r + (s.fillerStop - s.fillerStart)

/-- Positions of one round. -/
def period (s : Selection) : Nat := s.rank s.length

/-- The position read `k`-th. -/
def position (s : Selection) (k : Nat) : Nat := s.unrank ((s.rank s.start + k) % s.period)

/-- The position is passed over. -/
def isFiller (s : Selection) (p : Nat) : Bool := s.fillerStart ≤ p && p < s.fillerStop

end Selection

namespace Codeblock

/-- Numerators and common denominator of the starts of the redundancy versions, in buffer parts. -/
def startFractions : BaseGraph → List Nat × Nat
  | .one => ([0, 17, 33, 56], 66)
  | .two => ([0, 13, 25, 43], 50)

/-- Where the walk of a redundancy version starts, a multiple of the lifting size. -/
def startingPosition (c : Codeblock) : Checked Nat := do
  require (c.rv < 4) s!"Invalid redundancy version {c.rv}"
  let (numerators, denominator) := startFractions c.base
  let scaled ← Size.mul (numerators.getD c.rv 0) c.bufferLength
  let part ← Size.mul denominator c.liftingSize
  return (← Size.div scaled part) * c.liftingSize

/-- First filler position and the position after the last one, among the sent bits. -/
def fillerSpan (c : Codeblock) : Checked (Nat × Nat) := do
  let messageLength ← Size.mul c.base.systematicColumns c.liftingSize
  let punctured ← Size.mul puncturedColumns c.liftingSize
  let start ← Size.sub (← Size.sub messageLength c.fillers) punctured
  return (start, messageLength - punctured)

/-- The positions that rate matching reads. -/
def selection (c : Codeblock) : Checked Selection := do
  let (fillerStart, fillerStop) ← c.fillerSpan
  require (fillerStop - fillerStart < c.bufferLength)
    s!"Circular buffer of {c.bufferLength} bits holds only filler bits"
  return ⟨c.bufferLength, fillerStart, fillerStop, ← c.startingPosition⟩

/-- Where the bit read `k`-th goes: the bits fill the rows of a table with one column for each
symbol, and leave it by columns. -/
def interleaved (c : Codeblock) (k : Nat) : Nat :=
  let columns := c.matchedLength / c.modulation.order
  (k % columns) * c.modulation.order + k / columns

/-- Select and interleave the bits of a codeblock into `outputLength` bits. -/
def rateMatch (c : Codeblock) (sent : Bits) (outputLength : Nat) : Checked Bits := do
  require (outputLength == c.matchedLength) "Output must hold E bits"
  require (sent.size == c.sentLength) "Codeblock must hold N bits"
  require (c.matchedLength % c.modulation.order == 0) "E must be a multiple of Qm"
  let selection ← c.selection
  (List.range c.matchedLength).foldlM
    (fun output k => do
      let bit ← Buffer.read sent (selection.position k)
      return output.setIfInBounds (c.interleaved k) bit)
    (Array.replicate c.matchedLength 0)

/-- Add the soft bits of a received codeblock to `stored`, which new data clears first; filler
positions hold certain zeros afterwards. -/
def rateDematch (c : Codeblock) (stored : Array SoftBit) (received : Array SoftBit)
    (newData : Bool) : Checked (Array SoftBit) := do
  require (received.size == c.matchedLength) "Input must hold E soft bits"
  require (stored.size == c.sentLength) "Output must hold N soft bits"
  require (c.matchedLength % c.modulation.order == 0) "E must be a multiple of Qm"
  let selection ← c.selection
  let start := if newData then Array.replicate stored.size SoftBit.erased else stored
  let combined ← (List.range c.matchedLength).foldlM
    (fun output k => do
      let p := selection.position k
      let old ← Buffer.read output p
      Buffer.write output p (old + received.getD (c.interleaved k) SoftBit.erased))
    start
  if combined.size < selection.fillerStop then
    throw .bounds
  return Buffer.overwrite combined selection.fillerStart
    (Array.replicate (selection.fillerStop - selection.fillerStart) SoftBit.certainZero)

end Codeblock

end Uplink
