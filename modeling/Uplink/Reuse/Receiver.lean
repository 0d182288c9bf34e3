import Uplink.Receiver
import Uplink.Reuse.Demodulation
import Uplink.Reuse.Estimation

/-!
# Receivers that keep their buffers

A receiver as it is run from slot to slot: with the estimate and the decoder of the last
transmission it keeps every buffer that a transmission is worked out in.

- `ReceiverMemory`: the buffers.
- `BufferedReceiver.receive`: one transmission, worked out in these buffers.
- `BufferedReceiver.receiveEach`: several of them.
-/

namespace Uplink

/-- What the reception of a control field leaves behind. The next one begins with neither. -/
structure UciMemory where
  softBits : Array SoftBit
  /-- The sum of the soft bits of each code bit. -/
  sums : Array Float32

namespace UciMemory

/-- Before the first field. -/
def fresh : UciMemory := ⟨#[], #[]⟩

/-- After a field, if it was sent; one without soft bits is not decoded. -/
def keep (memory : UciMemory) : Option UciCollector → UciMemory
  | some c =>
    { softBits := c.softBits
      sums := if c.softBits.isEmpty then memory.sums
        else ShortBlock.combine c.length c.modulation c.softBits }
  | none => memory

end UciMemory

/-- The buffers of a receiver beside its estimate and its decoder. -/
structure ReceiverMemory where
  estimator : EstimatorMemory
  demodulator : DemodulatorMemory
  /-- The uses of the data elements. -/
  placement : Array ElementUse
  /-- The soft bits of an element without any. -/
  erasures : Array SoftBit
  harqAck : UciMemory
  csiPart1 : UciMemory

namespace ReceiverMemory

/-- Before the first transmission. -/
def fresh : ReceiverMemory :=
  ⟨EstimatorMemory.fresh, DemodulatorMemory.fresh, #[], #[], UciMemory.fresh, UciMemory.fresh⟩

end ReceiverMemory

/-- What a receiver is given to receive. -/
structure Transmission where
  /-- Provides the size of the transport block. -/
  block : Bytes
  buffer : HarqBuffer
  grid : ResourceGrid
  pdu : Pdu

/-- A receiver with its buffers. -/
structure BufferedReceiver where
  receiver : Receiver
  memory : ReceiverMemory

namespace BufferedReceiver

/-- A receiver with the given settings, if they are supported. -/
def create (settings : ReceiverSettings) : Except SettingsError BufferedReceiver := do
  return ⟨← Receiver.create settings, ReceiverMemory.fresh⟩

/-- The channel of a transmission; the carrier frequency's subcarrier carries no knowledge. -/
def estimateChannel (b : BufferedReceiver) (grid : ResourceGrid) (pdu : Pdu)
    (blockMask : Array Bool) : Checked (ChannelEstimate × EstimatorMemory) := do
  let (estimate, memory) ← (← pdu.estimationRequest blockMask).estimateInPlace b.memory.estimator
    grid b.receiver.estimate
  match pdu.dcSubcarrier with
  | some dc => return (← estimate.clearSubcarrier dc, memory)
  | none => return (estimate, memory)

/-- Receive an accepted transmission; `block` provides the size of the transport block. -/
def receiveAccepted (b : BufferedReceiver) (block : Bytes) (buffer : HarqBuffer)
    (grid : ResourceGrid) (pdu : Pdu) : Checked (Received × BufferedReceiver) := do
  let blockMask ← pdu.blockMask
  let budget ← Budget.ofRequest (pdu.budgetRequest (pdu.blockBits block.size))
  let (estimate, estimator) ← b.estimateChannel grid pdu blockMask
  let sinr ← Receiver.estimatorSinrDb estimate pdu.layers pdu.rxPorts.length
  let state :=
    { ChannelState.ofMethod b.receiver.settings.sinrMethod with estimatorSinrDb := sinr }
  let sinks : FieldSinks :=
    { sch := ← pdu.block.mapM fun parameters => b.receiver.startBlock pdu parameters buffer block
      harqAck := Receiver.startField pdu pdu.uci.ackBits
      csiPart1 := Receiver.startField pdu pdu.uci.csi1Bits }
  let demultiplexer ← Demultiplexer.start (pdu.placementRequest budget)
  let (statistics, (demultiplexer, sinks), demodulator) ←
    (pdu.demodulationRequest blockMask).runInPlace b.memory.demodulator grid estimate
      FieldSinks.consume (demultiplexer, sinks)
  let state := state.withStatistics statistics
  demultiplexer.finish
  let (received, receiver) ←
    { b.receiver with estimate }.finishBlock sinks.sch state buffer block
  let control ← sinks.controlReports state
  let memory : ReceiverMemory :=
    { estimator
      demodulator
      placement := demultiplexer.placement
      erasures := Array.replicate demultiplexer.group SoftBit.erased
      harqAck := b.memory.harqAck.keep sinks.harqAck
      csiPart1 := b.memory.csiPart1.keep sinks.csiPart1 }
  return ({ received with reports := received.reports ++ control }, ⟨receiver, memory⟩)

/-- Receive a transmission; one that is not accepted is a fault. -/
def receive (b : BufferedReceiver) (block : Bytes) (buffer : HarqBuffer) (grid : ResourceGrid)
    (pdu : Pdu) : Checked (Received × BufferedReceiver) := do
  match ← (pdu.check b.receiver.settings.limits).run with
  | .error e => throw (.requirement s!"Invalid PUSCH PDU: {e.message}")
  | .ok () => b.receiveAccepted block buffer grid pdu

/-- Receive one transmission after the other. -/
def receiveEach (b : BufferedReceiver) (transmissions : List Transmission) :
    Checked BufferedReceiver :=
  transmissions.foldlM (fun b t => do return (← b.receive t.block t.buffer t.grid t.pdu).2) b

end BufferedReceiver

end Uplink
