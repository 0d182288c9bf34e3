import Uplink.Mapping
import Uplink.Multiplex
import Uplink.Pdu
import Uplink.TransportBlock.Codeword

/-!
# Transmitters

A transmission from its fields to the grid: the transport block and the control fields are encoded
to the lengths of their budget, multiplexed into one codeword and mapped to the grid, layer `i` on
port `i`.
-/

namespace Uplink

/-- The contents of a transmission. -/
structure Payload where
  /-- The transport block; not sent by a transmission of control information alone. -/
  block : Bytes
  harqAck : Bits
  csiPart1 : Bits
deriving DecidableEq

namespace Pdu

/-- The format of the transport block's codeword of `length` bits. -/
def codewordFormat (pdu : Pdu) (parameters : BlockParameters) (length : Nat) :
    Checked CodewordFormat := do
  return { base := parameters.base
           rv := parameters.rv
           modulation := pdu.modulation
           bufferLimit := ← pdu.bufferLimit
           layers := pdu.layers
           length }

/-- How a codeword is mapped. -/
def mappingRequest (pdu : Pdu) : Checked MappingRequest := do
  let blockMask ← pdu.blockMask
  return { reference := ← pdu.reference
           rnti := pdu.rnti
           cellId := pdu.cellId
           modulation := pdu.modulation
           blockMask
           firstSymbol := pdu.firstSymbol
           symbolCount := pdu.symbolCount
           dmrsMask := pdu.dmrsMask
           freeGroups := pdu.freeGroups
           ports := List.range pdu.layers }

end Pdu

namespace Transmitter

/-- The coded transport block of `length` bits; nothing without one. -/
def encodeBlock (store : Ldpc.GraphStore) (pdu : Pdu) (block : Bytes) (length : Nat) :
    Checked (Bits × Ldpc.GraphStore) := do
  match pdu.block with
  | some parameters =>
    TransportBlock.encode store (← pdu.codewordFormat parameters length) block
  | none => return (#[], store)

/-- A coded control message of `length` bits; nothing for an empty message. -/
def encodeField (pdu : Pdu) (message : Bits) (length : Nat) : Checked Bits := do
  if message.isEmpty then return #[]
  return ShortBlock.repeatTo (← ShortBlock.encode message pdu.modulation) length

/-- The codeword of a transmission. -/
def codeword (store : Ldpc.GraphStore) (pdu : Pdu) (payload : Payload) :
    Checked (Bits × Ldpc.GraphStore) := do
  require (payload.harqAck.size == pdu.uci.ackBits) "HARQ-ACK payload size mismatch"
  require (payload.csiPart1.size == pdu.uci.csi1Bits) "CSI part 1 payload size mismatch"
  let budget ← Budget.ofRequest (pdu.budgetRequest (pdu.blockBits payload.block.size))
  let (sch, store) ← encodeBlock store pdu payload.block budget.schBits
  let harqAck ← encodeField pdu payload.harqAck budget.ackBits
  let csiPart1 ← encodeField pdu payload.csiPart1 budget.csi1Bits
  return (← multiplex ⟨sch, harqAck, csiPart1⟩ (pdu.placementRequest budget), store)

/-- Write a transmission to the grid. -/
def transmit (store : Ldpc.GraphStore) (pdu : Pdu) (payload : Payload) (grid : ResourceGrid) :
    Checked (Written × Ldpc.GraphStore) := do
  let (codeword, store) ← codeword store pdu payload
  return (← (← pdu.mappingRequest).write grid codeword, store)

end Transmitter

end Uplink
