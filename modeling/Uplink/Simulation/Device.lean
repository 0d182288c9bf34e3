import Uplink.Harq.Pool
import Uplink.Reuse.Receiver
import Uplink.Simulation.Channel
import Uplink.Simulation.Settings
import Uplink.Simulation.Statistics

/-!
# Simulated devices

A device sends in every slot: a transport block, which it repeats until it is received or the
attempts are used up, and control information. A channel of its own leads to a receiver of its own,
which combines the attempts at a block.

- `Source`: where a device takes what chance decides; `Source.drawn`: from its generators.
- `Device.create`: a device of given settings; `DeviceError` says why there is none.
- `Device.beginSlot`: the block and the parameters of the next attempt.
- `Device.account`: what follows from the reports of an attempt, whatever they are.
- `Device.runSlotFrom`: send, receive and account, with any source; `Device.runSlot`: with the
  generators of the device.
-/

namespace Uplink

namespace Simulation

/-- Why a device cannot be simulated. -/
inductive DeviceError where
  | receiver (e : SettingsError)
  | pdu (e : PduError)
  | dmrsSymbol (symbol : Nat)
  /-- The noise of the channel has no finite strength. -/
  | noise
  | pool (e : PoolExhausted)
  | grid (e : GridError)
deriving DecidableEq, Repr

namespace DeviceError

/-- The text of the error. -/
def message : DeviceError → String
  | receiver e => e.message
  | pdu e => e.message
  | dmrsSymbol symbol => s!"DM-RS symbol {symbol} outside the slot"
  | noise => "standard deviation is not finite"
  | pool e => e.message
  | grid e => e.message

end DeviceError

/-- The outcome of a simulation step. -/
abbrev Outcome := ExceptT DeviceError Checked

/-- The result, or its error among those of a device. -/
def Outcome.ofExcept {ε α : Type} (wrap : ε → DeviceError) (x : Except ε α) : Outcome α :=
  match x with
  | .ok a => pure a
  | .error e => throw (wrap e)

/-! ## Transport blocks on their way -/

/-- A transport block that has not been received yet. -/
structure PendingBlock where
  data : Bytes
  /-- Number of attempts that have failed. -/
  attempt : Nat
deriving DecidableEq

namespace PendingBlock

/-- The redundancy versions of successive attempts, over and over. -/
def rvSequence : List Nat := [0, 2, 3, 1]

/-- The redundancy version of an attempt. -/
def rvOf (attempt : Nat) : Nat := rvSequence.getD (attempt % rvSequence.length) 0

/-- What becomes of the block after an attempt. -/
def outcome (b : PendingBlock) (maxRetransmissions : Nat) (received : Bool) : BlockOutcome :=
  if received then .delivered
  else if maxRetransmissions ≤ b.attempt then .dropped
  else .again

/-- The block that is still pending after an attempt. -/
def after (b : PendingBlock) : BlockOutcome → Option PendingBlock
  | .again => some { b with attempt := b.attempt + 1 }
  | _ => none

end PendingBlock

/-! ## Chance -/

variable [Randomness]

/-- Where a device takes what chance decides in a slot: the contents of its fields, and what its
receiver observes. -/
structure Source where
  bytes : Randomness.Generator → Nat → Bytes × Randomness.Generator
  bits : Randomness.Generator → Nat → Bits × Randomness.Generator
  /-- What a number of ports observe of a sent grid. -/
  propagate : Channel → ResourceGrid → Nat → ResourceGrid × Channel

/-- Contents are drawn from the generator of the device, and noise from that of its channel. -/
def Source.drawn : Source := ⟨Randomness.bytes, Randomness.bits, Channel.propagate⟩

/-! ## Devices -/

/-- A simulated device with its channel and its receiver. -/
structure Device where
  settings : DeviceSettings
  /-- The parameters of the latest attempt. -/
  pdu : Pdu
  /-- Resource blocks of the grid. -/
  blocks : Nat
  blockBytes : Nat
  maxRetransmissions : Nat
  graphs : Ldpc.GraphStore
  channel : Channel
  receiver : BufferedReceiver
  pool : HarqPool
  generator : Randomness.Generator
  pending : Option PendingBlock
  statistics : Statistics

namespace Device

/-! ### Creation -/

/-- Symbols of each slot. -/
def symbols : Nat := CyclicPrefix.normal.symbolsPerSlot

/-- The settings of the device's receiver. -/
def receiverSettings (s : Settings) : ReceiverSettings :=
  { limits :=
      { blocks := s.carrier.blocks
        layers := ReceiverSettings.maxLimits.layers
        ports := s.carrier.rxPorts }
    iterations := s.decoding.iterations
    earlyStop := s.decoding.earlyStop
    sinrMethod := s.decoding.sinrMethod }

/-- The transport block parameters before the first attempt; none without transport blocks. -/
def firstParameters (t : TransmissionSettings) : Checked (Option BlockParameters) := do
  let bits ← Size.mul t.blockBytes 8
  return if bits = 0 then none
    else some ⟨0, selectBaseGraph (t.codeRate / 1024) bits, true⟩

/-- The symbols with reference signals. -/
def dmrsMask (dmrsSymbols : List Nat) : Outcome SymbolMask := do
  dmrsSymbols.foldlM (fun mask symbol => do
    if symbols ≤ symbol then throw (.dmrsSymbol symbol)
    mask.insert symbol) (← SymbolMask.empty symbols)

/-- The parameters of the device's transmissions before the first slot. -/
def firstPdu (s : Settings) (scs : SubcarrierSpacing) (device : DeviceSettings) : Outcome Pdu := do
  let t := s.transmission
  let block ← firstParameters t
  let dmrsMask ← dmrsMask t.dmrsSymbols
  return { slot := ⟨scs, 0, 0⟩
           rnti := device.rnti
           bwpStart := t.bwpStart
           bwpSize := t.bwpSize
           cyclicPrefix := .normal
           modulation := t.modulation
           codeRate := t.codeRate
           block
           uci :=
             { ackBits := t.ackBits
               csi1Bits := t.csi1Bits
               csi2Bits := 0
               alpha := t.alpha
               betaAck := t.betaAck
               betaCsi1 := t.betaCsi1 }
           cellId := s.carrier.cellId
           layers := t.layers
           rxPorts := List.range s.carrier.rxPorts
           dmrsMask
           dmrsType := .type1
           dmrsIdentity := s.carrier.cellId
           second := false
           freeGroups := 2
           allocation := .contiguous t.firstBlock t.blocks
           firstSymbol := t.firstSymbol
           symbolCount := t.symbolCount
           limitBytes := t.limitBytes
           dcSubcarrier := s.carrier.dcSubcarrier }

/-- What separates the seed of the payloads from that of the noise. -/
def payloadSeed (seed : UInt64) : UInt64 := seed ^^^ 0x5eed

/-- A device of given settings. -/
def create (s : Settings) (scs : SubcarrierSpacing) (device : DeviceSettings) (seed : UInt64) :
    Outcome Device := do
  let receiver ← Outcome.ofExcept .receiver (BufferedReceiver.create (receiverSettings s))
  let pdu ← firstPdu s scs device
  Outcome.ofExcept .pdu (← (pdu.check receiver.receiver.settings.limits).run)
  match Channel.ofSnr device.snrDb seed with
  | none => throw .noise
  | some channel =>
    return { settings := device
             pdu
             blocks := s.carrier.blocks
             blockBytes := s.transmission.blockBytes
             maxRetransmissions := s.transmission.maxRetransmissions
             graphs := Ldpc.GraphStore.empty
             channel
             receiver
             pool := HarqPool.empty HarqPoolSettings.standard
             generator := Randomness.ofSeed (payloadSeed seed)
             pending := none
             statistics := {} }

/-! ### Sending -/

/-- The number of failed attempts at the block that is sent. -/
def attempt (d : Device) : Nat := d.pending.elim 0 (·.attempt)

/-- The data of the block that is sent; empty without one. -/
def data (d : Device) : Bytes := d.pending.elim #[] (·.data)

/-- The device with a pending block, if it sends blocks: the one it has, or the next one. -/
def takeBlock (d : Device) (source : Source) : Device :=
  if d.pdu.block.isSome && d.pending.isNone then
    let (data, generator) := source.bytes d.generator d.blockBytes
    { d with pending := some ⟨data, 0⟩, generator }
  else d

/-- The device with the parameters of its next attempt. -/
def setAttempt (d : Device) : Device :=
  let block := d.pdu.block.map fun p =>
    { p with rv := PendingBlock.rvOf d.attempt, newData := d.attempt == 0 }
  { d with pdu := { d.pdu with block } }

/-- Begin a slot: reservations may end, and the next attempt is prepared. -/
def beginSlot (d : Device) (source : Source) (slot : SlotPoint) : Device :=
  ({ d with pool := d.pool.expire slot, pdu := { d.pdu with slot } }.takeBlock source).setAttempt

/-- Take the control information, and add it to the block that is sent. -/
def takePayload (d : Device) (source : Source) : Payload × Device :=
  let (harqAck, generator) := source.bits d.generator d.pdu.uci.ackBits
  let (csiPart1, generator) := source.bits generator d.pdu.uci.csi1Bits
  (⟨d.data, harqAck, csiPart1⟩, { d with generator })

/-- Send a payload; the grid that the receiver observes. -/
def send (d : Device) (source : Source) (payload : Payload) : Outcome (ResourceGrid × Device) := do
  let empty := ResourceGrid.zeros d.pdu.layers symbols d.blocks
  let (written, graphs) ← Transmitter.transmit d.graphs d.pdu payload empty
  if let some e := written.error? then throw (.grid e)
  let (grid, channel) := source.propagate d.channel written.grid d.pdu.rxPorts.length
  return (grid, { d with graphs, channel })

/-! ### Receiving -/

/-- The one process of the device. -/
def harqId (d : Device) : HarqId := ⟨d.settings.rnti, 0⟩

/-- The combining buffer of the attempt; an empty one without a block. -/
def reserve (d : Device) : Outcome (HarqBuffer × Device) := do
  match d.pdu.block with
  | none => return (HarqBuffer.ofCount 0, d)
  | some p =>
    let segmentation ← Segmentation.ofSize p.base (d.data.size * 8)
    let (buffer, pool) ← Outcome.ofExcept .pool <|
      d.pool.reserve d.pdu.slot d.harqId segmentation.blocks p.newData
    return (buffer, { d with pool })

/-- Receive what was observed. -/
def receive (d : Device) (grid : ResourceGrid) : Outcome (Received × Device) := do
  let (buffer, d) ← d.reserve
  let (received, receiver) ←
    d.receiver.receive (Array.replicate d.data.size 0) buffer grid d.pdu
  return (received, { d with receiver, pool := d.pool.update d.harqId received.buffer })

/-! ### Accounting -/

/-- The block was received: its check passed, and it is the one that was sent. -/
def blockReceived (reports : List Report) (decoded : Bytes) (block : PendingBlock) : Bool :=
  (reports.findSome? Report.sch?).any (·.verified) && decoded == block.data

/-- Account for an attempt at the pending block; a finished block gives up its buffer. -/
def accountBlock (d : Device) (reports : List Report) (decoded : Bytes) : Device :=
  match d.pending with
  | none => d
  | some block =>
    let received := blockReceived reports decoded block
    let outcome := block.outcome d.maxRetransmissions received
    { d with
      statistics := d.statistics.addBlock block.attempt received outcome
      pending := block.after outcome
      pool := if outcome = .again then d.pool else d.pool.release d.harqId }

/-- Account for a transmission, given its reports and the block that the receiver decoded. -/
def account (d : Device) (sent : Payload) (reports : List Report) (decoded : Bytes) : Device :=
  let d := { d with statistics := d.statistics.addState reports }.accountBlock reports decoded
  { d with statistics := d.statistics.addFields reports sent }

/-! ### Slots -/

/-- Send and receive in a slot, with what a source decides. -/
def runSlotFrom (d : Device) (source : Source) (slot : SlotPoint) : Outcome Device := do
  let (payload, d) := (d.beginSlot source slot).takePayload source
  let (grid, d) ← d.send source payload
  let (received, d) ← d.receive grid
  return d.account payload received.reports received.block

/-- Send and receive in a slot. -/
def runSlot (d : Device) (slot : SlotPoint) : Outcome Device := d.runSlotFrom Source.drawn slot

end Device

end Simulation

end Uplink
