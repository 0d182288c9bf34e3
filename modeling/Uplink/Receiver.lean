import Uplink.Multiplex
import Uplink.Pdu
import Uplink.Report

/-!
# Receivers

A receiver takes a transmission from the grid to its fields: it estimates the channel, demodulates
the codeword, takes it apart and decodes the transport block and the control fields. Each field that
was sent is reported once: the transport block first, then acknowledgements, then the channel state.

- `Receiver.create`: a receiver within the supported limits.
- `FieldSinks`: the fields while their soft bits arrive.
- `Receiver.receive`: one transmission. What a receiver keeps between transmissions is scratch only.
-/

namespace Uplink

/-- How a receiver works. -/
structure ReceiverSettings where
  limits : ReceiverLimits
  /-- Decoder iterations of a codeblock. -/
  iterations : Nat
  /-- Stop decoding a codeblock as soon as its check passes. -/
  earlyStop : Bool
  sinrMethod : SinrMethod
deriving DecidableEq, Repr

namespace ReceiverSettings

/-- The largest limits of any receiver. -/
def maxLimits : ReceiverLimits := ⟨275, 4, 4⟩

/-- The usual settings. -/
def standard : ReceiverSettings := ⟨maxLimits, 6, true, .channelEstimator⟩

end ReceiverSettings

/-- Why there is no receiver with some settings. -/
inductive SettingsError where
  | blocks (count : Nat)
  | antennas (layers ports : Nat)
  | noIterations
deriving DecidableEq, Repr

namespace SettingsError

/-- The text of the error. -/
def message : SettingsError → String
  | blocks count => s!"Invalid configuration: Grid of {count} resource blocks"
  | antennas layers ports => s!"Invalid configuration: {layers} layers and {ports} receive ports"
  | noIterations => "Invalid configuration: At least one LDPC iteration is required"

end SettingsError

/-- A receiver. -/
structure Receiver where
  settings : ReceiverSettings
  estimate : ChannelEstimate
  decoder : BlockDecoder

/-! ## Fields on their way -/

/-- The fields of a transmission while their soft bits arrive; those that were not sent are
absent. -/
structure FieldSinks where
  sch : Option Reception
  harqAck : Option UciCollector
  csiPart1 : Option UciCollector

namespace FieldSinks

/-- Pass a piece of a stream to its field; without the field it is dropped. -/
def deliver (sinks : FieldSinks) (d : Delivery) : Checked FieldSinks :=
  match d.stream with
  | .sch => do return { sinks with sch := ← sinks.sch.mapM (·.push d.softBits) }
  | .harqAck => .ok { sinks with harqAck := sinks.harqAck.map (·.push d.softBits) }
  | .csiPart1 => .ok { sinks with csiPart1 := sinks.csiPart1.map (·.push d.softBits) }

/-- Take a block of the codeword apart and pass its pieces on. -/
def consume (state : Demultiplexer × FieldSinks) (block : Array SoftBit) :
    Checked (Demultiplexer × FieldSinks) := do
  let (d, sinks) := state
  let (deliveries, d) ← d.route block
  return (d, ← deliveries.foldlM deliver sinks)

/-- Decode the control fields and report them. -/
def controlReports (sinks : FieldSinks) (state : ChannelState) : Checked (List Report) := do
  let ack ← sinks.harqAck.mapM (·.finish)
  let csi1 ← sinks.csiPart1.mapM (·.finish)
  return (ack.map (Report.harqAck · state)).toList ++ (csi1.map (Report.csiPart1 · state)).toList

end FieldSinks

/-- What a transmission left behind. -/
structure Received where
  reports : List Report
  /-- The transport block: what the caller provided unless its check passed. -/
  block : Bytes
  buffer : HarqBuffer

namespace Receiver

/-- Symbols of the slots that can be received. -/
def symbols : Nat := CyclicPrefix.normal.symbolsPerSlot

/-- A receiver with the given settings, if they are supported. -/
def create (settings : ReceiverSettings) : Except SettingsError Receiver :=
  let limits := settings.limits
  let most := ReceiverSettings.maxLimits
  if ¬ (1 ≤ limits.blocks ∧ limits.blocks ≤ most.blocks) then .error (.blocks limits.blocks)
  else if ¬ (1 ≤ limits.layers ∧ limits.layers ≤ most.layers
      ∧ 1 ≤ limits.ports ∧ limits.ports ≤ most.ports) then
    .error (.antennas limits.layers limits.ports)
  else if settings.iterations = 0 then .error .noIterations
  else
    .ok { settings
          estimate := ChannelEstimate.zeros ⟨limits.blocks, symbols, limits.ports, limits.layers⟩
          decoder := BlockDecoder.fresh }

/-- The signal to noise ratio in decibels, from the mean over the layers that have one. -/
def estimatorSinrDb (estimate : ChannelEstimate) (layers ports : Nat) :
    Checked (Option Float32) := do
  let ratios ← (Array.range layers).mapM fun layer => estimate.layerSinrDb layer ports
  let linear := (ratios.filterMap id).map fun db => Float32.pow 10 (db / 10)
  return if linear.isEmpty then none
    else some (Single.toDecibels (Single.sum linear / Single.ofNat linear.size))

/-- The channel of a transmission; the carrier frequency's subcarrier carries no knowledge. -/
def estimateChannel (r : Receiver) (grid : ResourceGrid) (pdu : Pdu) (blockMask : Array Bool) :
    Checked ChannelEstimate := do
  let estimate ← (← pdu.estimationRequest blockMask).estimate grid r.estimate
  match pdu.dcSubcarrier with
  | some dc => estimate.clearSubcarrier dc
  | none => return estimate

/-- Begin the reception of a transport block. -/
def startBlock (r : Receiver) (pdu : Pdu) (parameters : BlockParameters) (buffer : HarqBuffer)
    (block : Bytes) : Checked Reception := do
  Reception.start r.decoder
    { base := parameters.base
      rv := parameters.rv
      modulation := pdu.modulation
      bufferLimit := ← pdu.bufferLimit
      layers := pdu.layers
      iterations := r.settings.iterations
      earlyStop := r.settings.earlyStop
      newData := parameters.newData }
    buffer block

/-- Begin a control field of `length` bits, if it was sent. -/
def startField (pdu : Pdu) (length : Nat) : Option UciCollector :=
  if 0 < length then some (UciCollector.start length pdu.modulation) else none

/-- The transport block's report, if there is one, and what its reception leaves behind. -/
def finishBlock (r : Receiver) (reception : Option Reception) (state : ChannelState)
    (buffer : HarqBuffer) (block : Bytes) : Checked (Received × Receiver) := do
  match reception with
  | some reception =>
    let (result, reception) ← reception.finish
    return (⟨[.sch result state], reception.block, reception.buffer⟩,
      { r with decoder := reception.decoder })
  | none => return (⟨[], block, buffer⟩, r)

/-- Receive an accepted transmission; `block` provides the size of the transport block. -/
def receiveAccepted (r : Receiver) (block : Bytes) (buffer : HarqBuffer) (grid : ResourceGrid)
    (pdu : Pdu) : Checked (Received × Receiver) := do
  let blockMask ← pdu.blockMask
  let budget ← Budget.ofRequest (pdu.budgetRequest (pdu.blockBits block.size))
  let estimate ← r.estimateChannel grid pdu blockMask
  let sinr ← estimatorSinrDb estimate pdu.layers pdu.rxPorts.length
  let state := { ChannelState.ofMethod r.settings.sinrMethod with estimatorSinrDb := sinr }
  let sinks : FieldSinks :=
    { sch := ← pdu.block.mapM fun parameters => r.startBlock pdu parameters buffer block
      harqAck := startField pdu pdu.uci.ackBits
      csiPart1 := startField pdu pdu.uci.csi1Bits }
  let demultiplexer ← Demultiplexer.start (pdu.placementRequest budget)
  let (statistics, demultiplexer, sinks) ←
    (pdu.demodulationRequest blockMask).run grid estimate FieldSinks.consume (demultiplexer, sinks)
  let state := state.withStatistics statistics
  demultiplexer.finish
  let (received, r) ← { r with estimate }.finishBlock sinks.sch state buffer block
  let control ← sinks.controlReports state
  return ({ received with reports := received.reports ++ control }, r)

/-- Receive a transmission; one that is not accepted is a fault. -/
def receive (r : Receiver) (block : Bytes) (buffer : HarqBuffer) (grid : ResourceGrid) (pdu : Pdu) :
    Checked (Received × Receiver) := do
  match ← (pdu.check r.settings.limits).run with
  | .error e => throw (.requirement s!"Invalid PUSCH PDU: {e.message}")
  | .ok () => r.receiveAccepted block buffer grid pdu

end Receiver

end Uplink
