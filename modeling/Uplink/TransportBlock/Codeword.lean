import Uplink.CircularBuffer
import Uplink.Ldpc.Codeword

/-!
# Codewords of transport blocks

The sending side of the shared channel: attach the check, cut into codeblocks, encode and rate match
each of them, and put the results one after the other.

- `TransportBlock.encode`: the codeword of a transport block.
- `TransportBlock.encodeChecked`: the same for bits that carry a check already, a wrong one perhaps.
-/

namespace Uplink

namespace TransportBlock

open Ldpc

/-- The codeword so far, extended by one codeblock. -/
def appendBlock (state : Bits × GraphStore) (block : OutgoingBlock) :
    Checked (Bits × GraphStore) := do
  let (codeword, store) := state
  let c := block.codeblock
  let (sent, store) ← Ldpc.encode store c.base c.liftingSize block.message c.sentLength
  let bits ← c.rateMatch sent c.matchedLength
  return (codeword ++ bits, store)

/-- The codewords of the codeblocks, one after the other, with `length` bits together. -/
def encodeBlocks (store : GraphStore) (blocks : Array OutgoingBlock) (length : Nat) :
    Checked (Bits × GraphStore) := do
  let _ ← Size.cells 1 [length]
  blocks.foldlM appendBlock (#[], store)

/-- The codeword of a transport block. -/
def encode (store : GraphStore) (format : CodewordFormat) (block : Bytes) :
    Checked (Bits × GraphStore) := do
  encodeBlocks store (← format.transmit block) format.length

/-- The codeword of transport block bits that carry a check already. -/
def encodeChecked (store : GraphStore) (format : CodewordFormat) (checked : Bits) (tbs : Nat) :
    Checked (Bits × GraphStore) := do
  encodeBlocks store (← format.transmitChecked checked tbs) format.length

end TransportBlock

end Uplink
