import Uplink.Ldpc.BaseGraph
import Uplink.Crc

/-!
# Segmentation

A transport block with its check is cut into codeblocks of equal size that each fit a base graph.

- `selectBaseGraph`: the base graph of a transport block.
- `Segmentation.ofSize`: number and size of the codeblocks, their lifting size and the filler bits
  that complete a message.
- `Segmentation.blockCrc`: the check that protects a codeblock.
-/

namespace Uplink

open Ldpc

/-- The largest transport block with a short check. -/
def maxShortCheckedSize : Nat := 3824

/-- Bits of a long check. -/
def longCheckLength : Nat := 24

/-- Bits of a short check. -/
def shortCheckLength : Nat := 16

/-- The base graph of a transport block of `tbs` bits sent at the given code rate. -/
def selectBaseGraph (rate : Float32) (tbs : Nat) : BaseGraph :=
  if tbs ≤ 292 || (tbs ≤ maxShortCheckedSize && rate ≤ 0.67) || rate ≤ 0.25 then .two else .one

/-- How a transport block is cut into codeblocks. -/
structure Segmentation where
  base : BaseGraph
  /-- Number of codeblocks. -/
  blocks : Nat
  /-- Check bits of the transport block. -/
  tbCheckLength : Nat
  /-- Check bits of each codeblock; none for a single codeblock. -/
  blockCheckLength : Nat
  /-- Bits of a codeblock with its check and without filler bits. -/
  blockLength : Nat
  liftingSize : Nat
  /-- Message bits of a codeblock, filler bits included. -/
  messageLength : Nat
  /-- Filler bits of a codeblock. -/
  fillers : Nat
deriving DecidableEq, Repr

namespace Segmentation

/-- Bits of a codeblock without its check. -/
def dataLength (s : Segmentation) : Nat := s.blockLength - s.blockCheckLength

/-- Bits of the transport block with its check. -/
def checkedSize (s : Segmentation) (tbs : Nat) : Nat := tbs + s.tbCheckLength

/-- Systematic columns that have to hold a codeblock when `total` bits are cut. -/
def usedColumns : BaseGraph → (total : Nat) → Nat
  | .one, _ => 22
  | .two, total =>
    if 640 < total then 10 else if 560 < total then 9 else if 192 < total then 8 else 6

/-- The smallest lifting size whose used columns hold `length` bits, or else the largest of all. -/
def chooseLiftingSize (columns length : Nat) : Nat :=
  (liftingSizes.find? fun z => decide (length ≤ columns * z)).getD 384

/-- Number of codeblocks of `total` bits, and the check bits of each. -/
def countBlocks (base : BaseGraph) (total : Nat) : Checked (Nat × Nat) := do
  if total ≤ base.maxMessageLength then return (1, 0)
  let padded ← Size.add total base.maxMessageLength
  return ((padded - longCheckLength - 1) / (base.maxMessageLength - longCheckLength),
    longCheckLength)

/-- Cut a transport block of `tbs` bits. -/
def ofSize (base : BaseGraph) (tbs : Nat) : Checked Segmentation := do
  require (0 < tbs) "Transport block size must be non-zero"
  let tbCheckLength := if maxShortCheckedSize < tbs then longCheckLength else shortCheckLength
  let total ← Size.add tbs tbCheckLength
  let (blocks, blockCheckLength) ← countBlocks base total
  let checked ← Size.add total (← Size.mul blocks blockCheckLength)
  -- the last codeblock is completed with zeros when the bits do not divide evenly
  let blockLength := ((← Size.add checked blocks) - 1) / blocks
  let liftingSize := chooseLiftingSize (usedColumns base total) blockLength
  let messageLength := base.messageLength liftingSize
  require (blockLength ≤ messageLength)
    s!"Codeblock of {blockLength} bits does not fit lifting size {liftingSize}"
  return { base, blocks, tbCheckLength, blockCheckLength, blockLength, liftingSize, messageLength,
           fillers := messageLength - blockLength }

/-- The check of a transport block of `tbs` bits. -/
def tbCrc (tbs : Nat) : Crc := if maxShortCheckedSize < tbs then .crc24A else .crc16

/-- The check that ends each of `blocks` codeblocks: their own, or that of the transport block when
there is only one. -/
def blockCrc (blocks tbs : Nat) : Crc := if 1 < blocks then .crc24B else tbCrc tbs

/-- The check over the reassembled bits of several codeblocks. -/
def reassemblyCrc : Crc := .crc24A

end Segmentation

end Uplink
