import Uplink.CircularBuffer
import Uplink.Harq.Buffer
import Uplink.Ldpc.MinSum
import Uplink.TransportBlock.IterationStatistics

/-!
# Reception of transport blocks

One reception collects the soft bits of a codeword, in as many pieces as they come. At its end each
codeblock is combined with what the buffer keeps of it, decoded if it has not passed yet, and
the transport block is put together from the decided messages.

- `Reception.push`, `Reception.finish`: the two steps; `finish` may be made once.
- `BlockDecoder.decode`: one codeblock, with or without an early stop.
- `Assembly.addBlock`: combine, decode and append one codeblock.
- `SchResult`: what the reception reports.
-/

namespace Uplink

/-- The largest codeword: a full slot of four layers with the highest modulation. -/
def maxCodewordLength : Nat := 275 * 12 * 14 * 8 * 4

/-- How a transmission is decoded. -/
structure ReceptionSettings where
  base : Ldpc.BaseGraph
  rv : Nat
  modulation : Modulation
  /-- Size of the combining buffer in bits, zero when it is not limited. -/
  bufferLimit : Nat
  layers : Nat
  iterations : Nat
  /-- Stop each codeblock at the first sweep whose decisions pass. -/
  earlyStop : Bool
  /-- Not a retransmission. -/
  newData : Bool
deriving DecidableEq, Repr

/-- What a reception reports. -/
structure SchResult where
  /-- Codeblocks of the transport block. -/
  blocks : Nat
  /-- Iterations of the codeblocks that were decoded. -/
  statistics : IterationStatistics
  /-- The transport block passed its check. -/
  verified : Bool
deriving DecidableEq, Repr

/-! ## One codeblock -/

namespace Codeblock

/-- Message length and data bits, found from the sent length. -/
def breakdown (c : Codeblock) : Nat × Nat :=
  let messageLength := c.sentLength / c.base.inverseRate
  (messageLength, messageLength - c.checkLength - c.fillers)

end Codeblock

namespace ReceptionSettings

/-- Factor of the messages in decoding. -/
def messageScale : Float32 := 0.8

/-- The format of a codeword of `length` soft bits. -/
def format (settings : ReceptionSettings) (length : Nat) : CodewordFormat :=
  { base := settings.base, rv := settings.rv, modulation := settings.modulation,
    bufferLimit := settings.bufferLimit, layers := settings.layers, length }

/-- Decode one codeblock. Without an early stop all sweeps are made, and then the check decides on a
word that is a codeword. -/
def decodeBlock (settings : ReceptionSettings) (decoder : Ldpc.Decoder) (crc : Crc)
    (c : Codeblock) (soft : Array SoftBit) (outputLength : Nat) :
    Checked (Ldpc.Decision × Ldpc.Decoder) := do
  let ldpc : Ldpc.DecoderSettings :=
    { base := c.base, liftingSize := c.liftingSize, fillers := c.fillers,
      iterations := settings.iterations, scale := messageScale }
  if settings.earlyStop then
    decoder.decode ldpc (some crc) soft outputLength
  else
    let (decision, decoder) ← decoder.decode ldpc none soft outputLength
    let significant := decision.message.extract 0 (outputLength - c.fillers)
    let accepted := decision.iterations.isSome && crc.ofBits significant == 0
    return ({ decision with iterations := if accepted then some settings.iterations else none },
      decoder)

end ReceptionSettings

/-! ## All codeblocks -/

/-- A transport block being put together. -/
structure Assembly where
  decoder : Ldpc.Decoder
  buffer : HarqBuffer
  statistics : IterationStatistics
  /-- The bits put together so far. -/
  bits : Bits

namespace Assembly

/-- Decode a stored codeblock that has not passed yet. -/
def decodeStored (a : Assembly) (settings : ReceptionSettings) (crc : Crc) (c : Codeblock)
    (stored : StoredBlock) : Checked (StoredBlock × Assembly) := do
  if stored.passed then return (stored, a)
  let (decision, decoder) ← settings.decodeBlock a.decoder crc c stored.soft stored.message.size
  let statistics ← a.statistics.record (decision.iterations.getD settings.iterations)
  return ({ stored with message := decision.message, passed := decision.iterations.isSome },
    { a with decoder, statistics })

/-- Combine, decode and append codeblock `i`, while `limit` bits are wanted in all. -/
def addBlock (settings : ReceptionSettings) (crc : Crc) (softBits : Array SoftBit) (limit : Nat)
    (a : Assembly) (block : Codeblock × Nat) : Checked Assembly := do
  let (c, i) := block
  let (messageLength, dataLength) := c.breakdown
  let stored ← a.buffer.borrow i c.sentLength messageLength
  let received ← Buffer.span softBits c.offset c.stop
  let soft ← c.rateDematch stored.soft received settings.newData
  let (stored, a) ← a.decodeStored settings crc c { stored with soft }
  let wanted := min dataLength (limit - a.bits.size)
  return { a with
    buffer := a.buffer.store i stored
    bits := a.bits ++ stored.message.extract 0 wanted }

/-- Whether the assembled bits are the transport block. Several passed codeblocks have to pass the
check over all of them too; if they do not, none of them is trusted any more. -/
def verify (a : Assembly) (blocks : Nat) : Bool × HarqBuffer :=
  if a.buffer.passed.all id then
    if blocks = 1 || Segmentation.reassemblyCrc.ofBits a.bits == 0 then (true, a.buffer)
    else (false, a.buffer.clearPassed)
  else (false, a.buffer)

end Assembly

/-! ## Receptions -/

/-- A decoder of transport blocks, with what its last reception left behind. -/
structure BlockDecoder where
  ldpc : Ldpc.Decoder
  softBits : Array SoftBit

namespace BlockDecoder

/-- A decoder that has received nothing yet. -/
def fresh : BlockDecoder := ⟨Ldpc.Decoder.fresh, #[]⟩

end BlockDecoder

/-- The reception of one transmission. -/
structure Reception where
  settings : ReceptionSettings
  decoder : BlockDecoder
  buffer : HarqBuffer
  /-- The transport block: what the caller provided until the check passes. -/
  block : Bytes
  finished : Bool

namespace Reception

/-- Begin a reception into a transport block and a combining buffer. -/
def start (decoder : BlockDecoder) (settings : ReceptionSettings) (buffer : HarqBuffer)
    (block : Bytes) : Checked Reception := do
  require (!block.isEmpty) "Transport block must not be empty"
  return ⟨settings, { decoder with softBits := #[] }, buffer, block, false⟩

/-- Collect further soft bits of the codeword. -/
def push (r : Reception) (softBits : Array SoftBit) : Checked Reception := do
  require (!r.finished) "Soft bits received after the end of the codeword"
  let length := r.decoder.softBits.size + softBits.size
  require (length ≤ maxCodewordLength)
    s!"Codeword of {length} soft bits exceeds the maximum of {maxCodewordLength}"
  return { r with decoder := { r.decoder with softBits := r.decoder.softBits ++ softBits } }

/-- End the codeword: combine, decode and verify. -/
def finish (r : Reception) : Checked (SchResult × Reception) := do
  require (!r.finished) "Codeword already finished"
  let settings := r.settings
  let softBits := r.decoder.softBits
  let order := settings.modulation.order
  require (softBits.size % order == 0)
    s!"Number of soft bits {softBits.size} is not a multiple of the modulation order {order}"
  let tbs := r.block.size * 8
  let codeblocks ← (settings.format softBits.size).receive softBits.size tbs
  let blocks := codeblocks.size
  require (blocks == r.buffer.count)
    s!"Softbuffer reserved for {r.buffer.count} codeblocks but the transport block has {blocks}"
  -- the check of a segmented transport block is kept to verify the reassembly
  let limit := if blocks = 1 then tbs else tbs + longCheckLength
  let buffer := if settings.newData then r.buffer.clearPassed else r.buffer
  let crc := Segmentation.blockCrc blocks tbs
  let a ← codeblocks.zipIdx.foldlM (Assembly.addBlock settings crc softBits limit)
    ⟨r.decoder.ldpc, buffer, IterationStatistics.none, #[]⟩
  let (verified, buffer) := a.verify blocks
  let block := if verified then Bits.pack (a.bits.extract 0 tbs) else r.block
  return (⟨blocks, a.statistics, verified⟩,
    { r with decoder := ⟨a.decoder, softBits⟩, buffer, block, finished := true })

end Reception

end Uplink
