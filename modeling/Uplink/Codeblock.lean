import Uplink.Segmentation
import Uplink.Modulation

/-!
# Codeblocks

The codeword of a transport block is the sequence of its rate matched codeblocks.

- `Codeblock`: what rate matching and decoding need to know of one codeblock.
- `CodewordFormat.codeblocks`: all codeblocks of a segmentation with their spans of the codeword.
- `Segmentation.messages`: the message bits of every codeblock.
- `CodewordFormat.receive`, `transmit`, `transmitChecked`: both combined, with their requirements.
-/

namespace Uplink

open Ldpc

/-- How a transport block is sent. -/
structure CodewordFormat where
  base : BaseGraph
  /-- Redundancy version, 0 to 3. -/
  rv : Nat
  modulation : Modulation
  /-- Size of the receiver's buffer in bits, zero when it is not limited. -/
  bufferLimit : Nat
  layers : Nat
  /-- Bits of the codeword. -/
  length : Nat
deriving DecidableEq, Repr

/-- One codeblock of a codeword. -/
structure Codeblock where
  base : BaseGraph
  liftingSize : Nat
  rv : Nat
  modulation : Modulation
  /-- Length of the circular buffer. -/
  bufferLength : Nat
  /-- Sent bits before rate matching. -/
  sentLength : Nat
  fillers : Nat
  /-- Check bits at the end of the data. -/
  checkLength : Nat
  /-- Bits after rate matching. -/
  matchedLength : Nat
  /-- First bit of the codeblock in the codeword. -/
  offset : Nat
deriving DecidableEq, Repr

namespace Codeblock

/-- Message bits, filler bits included. -/
def messageLength (c : Codeblock) : Nat := c.base.messageLength c.liftingSize

/-- The bit after the last one of the codeblock in the codeword. -/
def stop (c : Codeblock) : Nat := c.offset + c.matchedLength

end Codeblock

/-! ## Spans of the codeword -/

namespace CodewordFormat

/-- Bits of the codeblock number `block`: whole groups of one symbol on every layer, as even as
possible, the longer codeblocks last. -/
def matchedLength (format : CodewordFormat) (blocks block : Nat) : Checked Nat := do
  let group ← Size.mul format.layers format.modulation.order
  let rest ← Size.mod format.length group
  require (rest == 0) s!"Codeword of {format.length} bits is not a multiple of NL * Qm = {group}"
  let groups := format.length / group
  if block < blocks - groups % blocks then
    return group * (groups / blocks)
  else
    return group * ((groups + blocks - 1) / blocks)

/-- Length of the circular buffer of each codeblock. -/
def bufferLength (format : CodewordFormat) (s : Segmentation) : Checked Nat := do
  let full := s.base.sentLength s.liftingSize
  if format.bufferLimit = 0 then return full
  let scaled ← Size.mul 3 format.bufferLimit
  return min full (scaled / (2 * s.blocks))

/-- The codeblocks of a segmentation, one span after the other. -/
def codeblocks (format : CodewordFormat) (s : Segmentation) : Checked (Array Codeblock) := do
  let bufferLength ← format.bufferLength s
  let checkLength := if 1 < s.blocks then s.blockCheckLength else s.tbCheckLength
  let (blocks, _) ← (List.range s.blocks).foldlM
    (fun (done, offset) block => do
      let matchedLength ← format.matchedLength s.blocks block
      let codeblock : Codeblock :=
        { base := s.base, liftingSize := s.liftingSize, rv := format.rv,
          modulation := format.modulation, bufferLength,
          sentLength := s.base.sentLength s.liftingSize, fillers := s.fillers, checkLength,
          matchedLength, offset }
      return (done.push codeblock, offset + matchedLength))
    ((#[] : Array Codeblock), 0)
  return blocks

/-- The codeblocks of a received codeword for a transport block of `tbs` bits. -/
def receive (format : CodewordFormat) (codewordLength tbs : Nat) : Checked (Array Codeblock) := do
  require (codewordLength == format.length)
    s!"Codeword length {codewordLength} does not match the configured {format.length} bits"
  format.codeblocks (← Segmentation.ofSize format.base tbs)

end CodewordFormat

/-! ## Messages -/

namespace Segmentation

/-- The data bits of codeblock `block`: its share of the checked transport block, completed with
zeros. -/
def blockData (s : Segmentation) (checked : Bits) (block : Nat) : Bits :=
  let share := checked.extract (block * s.dataLength) ((block + 1) * s.dataLength)
  share ++ Array.replicate (s.dataLength - share.size) 0

/-- The message of codeblock `block`: data, check bits if the transport block is cut, and filler
zeros. -/
def message (s : Segmentation) (checked : Bits) (block : Nat) : Bits :=
  let data := s.blockData checked block
  let protectedData := if 1 < s.blocks then data ++ Crc.crc24B.parity data else data
  protectedData ++ Array.replicate (s.messageLength - protectedData.size) 0

/-- The messages of all codeblocks. -/
def messages (s : Segmentation) (checked : Bits) : Array Bits :=
  (Array.range s.blocks).map (s.message checked)

end Segmentation

/-- A codeblock to send, with its message. -/
structure OutgoingBlock where
  codeblock : Codeblock
  message : Bits

namespace CodewordFormat

/-- Cut transport block bits that carry their check already. -/
def transmitChecked (format : CodewordFormat) (checked : Bits) (tbs : Nat) :
    Checked (Array OutgoingBlock) := do
  let s ← Segmentation.ofSize format.base tbs
  require (checked.size == s.checkedSize tbs)
    s!"Transport block bits must include the {s.tbCheckLength} bit CRC"
  let codeblocks ← format.codeblocks s
  return codeblocks.zipWith OutgoingBlock.mk (s.messages checked)

/-- Attach the check of a transport block and cut it. -/
def transmit (format : CodewordFormat) (block : Bytes) : Checked (Array OutgoingBlock) := do
  let tbs := block.size * 8
  let _ ← Segmentation.ofSize format.base tbs
  let bits := Bits.unpack block
  format.transmitChecked (bits ++ (Segmentation.tbCrc tbs).parity bits) tbs

end CodewordFormat

end Uplink
