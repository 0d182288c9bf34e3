import Uplink.Allocation
import Uplink.Budget
import Uplink.ChannelEstimate.LeastSquares
import Uplink.Codeblock
import Uplink.Demodulation
import Uplink.Placement
import Uplink.Uci.ShortBlock

/-!
# Transmissions

The parameters of one transmission on the shared channel, and what they mean for each stage that
sends or receives it.

- `Pdu`: the parameters.
- `Pdu.budgetRequest`, `placementRequest`, `codewordFormat`, `reference`, `estimationRequest`,
  `demodulationRequest`: the part of each stage.
- `ReceiverLimits`, `Pdu.check`: whether a receiver accepts a transmission; `PduError` names the
  first condition that does not hold.
-/

namespace Uplink

/-- The transport block of a transmission. -/
structure BlockParameters where
  rv : Nat
  base : Ldpc.BaseGraph
  /-- Not a retransmission. -/
  newData : Bool
deriving DecidableEq, Repr

/-- The control information of a transmission. -/
structure UciParameters where
  ackBits : Nat
  csi1Bits : Nat
  csi2Bits : Nat
  /-- Part of the elements that control information may take. -/
  alpha : Float32
  betaAck : Float32
  betaCsi1 : Float32
deriving DecidableEq

/-- The parameters of a transmission. -/
structure Pdu where
  slot : SlotPoint
  rnti : Rnti
  /-- First block and size of the bandwidth part. -/
  bwpStart : Nat
  bwpSize : Nat
  cyclicPrefix : CyclicPrefix
  modulation : Modulation
  /-- Code rate times 1024. -/
  codeRate : Float32
  /-- Absent when only control information is sent. -/
  block : Option BlockParameters
  uci : UciParameters
  cellId : UInt16
  layers : Nat
  /-- The grid ports that receive. -/
  rxPorts : List Nat
  /-- The symbols with reference signals. -/
  dmrsMask : SymbolMask
  dmrsType : DmrsType
  dmrsIdentity : UInt16
  /-- Which of the two reference sequences of the identity is sent. -/
  second : Bool
  /-- Groups of subcarriers without data on symbols with reference signals. -/
  freeGroups : Nat
  allocation : Allocation
  firstSymbol : Nat
  symbolCount : Nat
  /-- Size in bytes that limits the combining buffer, zero without a limit. -/
  limitBytes : Nat
  /-- Subcarrier of the receiver's carrier frequency. -/
  dcSubcarrier : Option Nat

namespace Pdu

/-- The allocated blocks, counted from the common block zero. -/
def blockMask (pdu : Pdu) : Checked (Array Bool) :=
  pdu.allocation.blockMask pdu.bwpStart pdu.bwpSize

/-- The resource elements of the transmission. -/
def region (pdu : Pdu) : Region :=
  { blocks := pdu.allocation.count
    firstSymbol := pdu.firstSymbol
    symbolCount := pdu.symbolCount
    dmrsType := pdu.dmrsType
    dmrsMask := pdu.dmrsMask
    freeGroups := pdu.freeGroups }

/-- Size in bits of a transport block of `bytes` bytes; zero when there is none. -/
def blockBits (pdu : Pdu) (bytes : Nat) : Nat := if pdu.block.isSome then bytes * 8 else 0

/-- What sizes the fields, for a transport block of `tbs` bits. -/
def budgetRequest (pdu : Pdu) (tbs : Nat) : BudgetRequest :=
  { tbs
    modulation := pdu.modulation
    codeRate := pdu.codeRate
    ackBits := pdu.uci.ackBits
    csi1Bits := pdu.uci.csi1Bits
    csi2Bits := pdu.uci.csi2Bits
    alpha := pdu.uci.alpha
    betaAck := pdu.uci.betaAck
    betaCsi1 := pdu.uci.betaCsi1
    region := pdu.region
    layers := pdu.layers
    base := pdu.block.elim .two (·.base) }

/-- What places the fields of a budget. -/
def placementRequest (pdu : Pdu) (budget : Budget) : PlacementRequest :=
  { modulation := pdu.modulation
    layers := pdu.layers
    region := pdu.region
    ackPayload := pdu.uci.ackBits
    ackBits := budget.ackBits
    reservedBits := budget.reservedBits
    csi1Bits := budget.csi1Bits }

/-- Size in bits that limits the combining buffer. -/
def bufferLimit (pdu : Pdu) : Checked Nat := Size.mul pdu.limitBytes 8

/-- The amplitude of reference signals relative to the data. -/
def referenceAmplitude (pdu : Pdu) : Checked Float32 := do
  return Single.ofDecibels (← Dmrs.boost pdu.freeGroups)

/-- The reference signals of the transmission. -/
def reference (pdu : Pdu) : Checked ReferenceSignal := do
  return { slot := pdu.slot
           cyclicPrefix := pdu.cyclicPrefix
           dmrsType := pdu.dmrsType
           identity := pdu.dmrsIdentity
           second := pdu.second
           amplitude := ← pdu.referenceAmplitude }

/-- How the channel is estimated. -/
def estimationRequest (pdu : Pdu) (blockMask : Array Bool) : Checked EstimationRequest := do
  return { reference := ← pdu.reference
           firstSymbol := pdu.firstSymbol
           symbolCount := pdu.symbolCount
           dmrsMask := pdu.dmrsMask
           blockMask
           layers := pdu.layers
           ports := pdu.rxPorts }

/-- How the codeword is demodulated. -/
def demodulationRequest (pdu : Pdu) (blockMask : Array Bool) : DemodulationRequest :=
  { rnti := pdu.rnti
    cellId := pdu.cellId
    blockMask
    modulation := pdu.modulation
    firstSymbol := pdu.firstSymbol
    symbolCount := pdu.symbolCount
    dmrsMask := pdu.dmrsMask
    dmrsType := pdu.dmrsType
    freeGroups := pdu.freeGroups
    layers := pdu.layers
    ports := pdu.rxPorts }

end Pdu

/-! ## Acceptance -/

/-- What a receiver can hold. -/
structure ReceiverLimits where
  /-- Resource blocks of the grid. -/
  blocks : Nat
  layers : Nat
  ports : Nat
deriving DecidableEq, Repr

/-- Why a receiver does not accept a transmission. -/
inductive PduError where
  | bandwidthPart (start stop blocks : Nat)
  | layers (count limit : Nat)
  | ports (count limit : Nat)
  | allocation (allocation : Allocation)
  | controlBits (ack csi1 limit : Nat)
  | secondReport
  | dmrsMask (size count symbols : Nat)
  | dmrsBeforeStart (start : Nat)
  | dmrsBeyondEnd (stop : Nat)
  | pastSlot (stop symbols : Nat)
  | dmrs (dmrsType : DmrsType) (freeGroups : Nat)
  | dcSubcarrier (dc subcarriers : Nat)
deriving DecidableEq, Repr

namespace PduError

/-- The condition that does not hold, in words. -/
def reason : PduError → String
  | bandwidthPart start stop blocks =>
    s!"BWP [{start}, {stop}) exceeds the {blocks} resource blocks of the grid"
  | layers count limit => s!"{count} layers exceed the maximum of {limit}"
  | ports count limit => s!"{count} receive ports exceed the maximum of {limit}"
  | allocation a => s!"Frequency allocation {a.describe} does not fit the BWP"
  | controlBits ack csi1 limit =>
    s!"UCI of {ack} HARQ-ACK and {csi1} CSI part 1 bits exceeds {limit} bits"
  | secondReport => "CSI part 2 is not supported"
  | dmrsMask size count symbols =>
    s!"DM-RS symbol mask of size {size} with {count} symbols for {symbols} symbols per slot"
  | dmrsBeforeStart start => s!"First DM-RS symbol precedes the start symbol {start}"
  | dmrsBeyondEnd stop => s!"Last DM-RS symbol is beyond the allocation end {stop}"
  | pastSlot stop symbols => s!"Allocation end {stop} exceeds {symbols} symbols"
  | dmrs dmrsType freeGroups =>
    s!"Unsupported DM-RS {dmrsType.name} with {freeGroups} CDM groups without data"
  | dcSubcarrier dc subcarriers => s!"DC position {dc} is outside the {subcarriers} subcarriers"

/-- The text of the error. -/
def message (e : PduError) : String := s!"Invalid configuration: {e.reason}"

end PduError

namespace Pdu

/-- A verdict on a transmission, found by machine arithmetic. -/
abbrev Verdict := ExceptT PduError Checked

/-- Go on only if the condition holds. -/
def ensure (holds : Bool) (e : PduError) : Verdict Unit := if holds then pure () else throw e

/-- Whether a receiver accepts the transmission; the first condition that does not hold decides. -/
def check (pdu : Pdu) (limits : ReceiverLimits) : Verdict Unit := do
  let bwpStop ← Size.add pdu.bwpStart pdu.bwpSize
  ensure (bwpStop ≤ limits.blocks) (.bandwidthPart pdu.bwpStart bwpStop limits.blocks)
  ensure (1 ≤ pdu.layers && pdu.layers ≤ limits.layers) (.layers pdu.layers limits.layers)
  let ports := pdu.rxPorts.length
  ensure (1 ≤ ports && ports ≤ limits.ports) (.ports ports limits.ports)
  ensure (← pdu.allocation.fits pdu.bwpSize) (.allocation pdu.allocation)
  let (ack, csi1) := (pdu.uci.ackBits, pdu.uci.csi1Bits)
  ensure (ack ≤ ShortBlock.maxLength && csi1 ≤ ShortBlock.maxLength)
    (.controlBits ack csi1 ShortBlock.maxLength)
  ensure (pdu.uci.csi2Bits == 0) .secondReport
  let symbols := pdu.cyclicPrefix.symbolsPerSlot
  let mask := pdu.dmrsMask
  ensure (mask.size == symbols && !mask.isEmpty) (.dmrsMask mask.size mask.count symbols)
  let stop ← Size.add pdu.firstSymbol pdu.symbolCount
  ensure (mask.lowest?.any (pdu.firstSymbol ≤ ·)) (.dmrsBeforeStart pdu.firstSymbol)
  ensure (mask.highest?.any (· < stop)) (.dmrsBeyondEnd stop)
  ensure (stop ≤ symbols) (.pastSlot stop symbols)
  ensure (pdu.dmrsType == .type1 && pdu.freeGroups == 2) (.dmrs pdu.dmrsType pdu.freeGroups)
  if let some dc := pdu.dcSubcarrier then
    let subcarriers ← Size.mul limits.blocks subcarriersPerBlock
    ensure (dc < subcarriers) (.dcSubcarrier dc subcarriers)

end Pdu

end Uplink
