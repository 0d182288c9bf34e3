import Uplink.Double
import Uplink.Modulation
import Uplink.Region
import Uplink.Segmentation

/-!
# Budgets

How many coded bits each field of a transmission gets: acknowledgements and channel state reports
take resource elements in proportion to their payload and weight, up to a limit, and the transport
block takes the rest.

- `BudgetRequest`: what sizes the fields.
- `Budget.ofRequest`: the coded bits and resource elements of every field.
-/

namespace Uplink

/-- What sizes the fields of a transmission. -/
structure BudgetRequest where
  /-- Transport block size in bits, zero without data. -/
  tbs : Nat
  modulation : Modulation
  /-- Code rate times 1024. -/
  codeRate : Float32
  ackBits : Nat
  csi1Bits : Nat
  csi2Bits : Nat
  /-- Part of the elements that control information may take. -/
  alpha : Float32
  betaAck : Float32
  betaCsi1 : Float32
  region : Region
  layers : Nat
  base : Ldpc.BaseGraph

/-- Coded bits and resource elements of every field. -/
structure Budget where
  schBits : Nat
  ackBits : Nat
  /-- Bits of the elements reserved for acknowledgements. -/
  reservedBits : Nat
  csi1Bits : Nat
  ackElements : Nat
  reservedElements : Nat
  csi1Elements : Nat
  /-- Elements of a layer that may carry data. -/
  dataElements : Nat
  /-- Elements of a layer kept for reference signals. -/
  dmrsElements : Nat
deriving DecidableEq, Repr

namespace Budget

/-- Check bits of a control message. -/
def uciCheckLength (bits : Nat) : Nat := if bits ≤ 11 then 0 else if bits ≤ 19 then 6 else 11

/-- The least whole number that is not below `x`, up to the noise of products that should be
whole. -/
def elementsOf (x : Float) : Nat := Double.ceil (x - 1e-9)

/-- The elements from which the shares of the fields are found. -/
structure Supply where
  /-- Elements of all plain symbols. -/
  plain : Nat
  /-- Elements of the plain symbols that may hold acknowledgements. -/
  plainForAck : Nat
  /-- Message bits of all codeblocks, zero without data. -/
  messageBits : Nat

/-- The required elements of a control message with weight `beta`: with data in proportion to the
message bits of the data, without data by the code rate. -/
def required (q : BudgetRequest) (supply : Supply) (bits : Nat) (beta : Float32) : Checked Nat := do
  let payload ← Size.add bits (uciCheckLength bits)
  let weighted := Double.ofNat payload * Double.ofSingle beta
  if 0 < q.tbs then
    return elementsOf (weighted * Double.ofNat supply.plain / Double.ofNat supply.messageBits)
  else
    let rate := Double.ofSingle q.codeRate / 1024
    return elementsOf (weighted / (rate * Double.ofNat q.modulation.order))

/-- Elements of an acknowledgement of `bits` bits. -/
def ackElementsOf (q : BudgetRequest) (supply : Supply) (bits : Nat) : Checked Nat := do
  let needed ← required q supply bits q.betaAck
  return min needed (elementsOf (Double.ofSingle q.alpha * Double.ofNat supply.plainForAck))

/-- Elements of the first channel state report, when acknowledgements use `used` elements. Without
data it takes all that is left. -/
def csi1ElementsOf (q : BudgetRequest) (supply : Supply) (used : Nat) : Checked Nat := do
  let needed ← required q supply q.csi1Bits q.betaCsi1
  if 0 < q.tbs then
    return min needed (elementsOf (Double.ofSingle q.alpha * Double.ofNat supply.plain) - used)
  else
    return supply.plain - used

/-- Elements of a symbol that can hold control information. -/
def plainElements (r : Region) (symbol : Nat) : Checked Nat :=
  if r.isPlain symbol then Size.mul r.blocks subcarriersPerBlock else .ok 0

/-- Data elements of a block on a symbol with reference signals. -/
def dataPerBlockOnDmrs (r : Region) : Checked Nat := do
  return subcarriersPerBlock - (← Size.mul r.dmrsType.perBlock r.freeGroups)

/-- The budget of a transmission. -/
def ofRequest (q : BudgetRequest) : Checked Budget := do
  require (0 < q.layers) "At least one layer is required"
  require (q.csi2Bits == 0) "CSI part 2 is not supported"
  let r := q.region
  let plain ← r.sumSymbols (plainElements r)
  let plainForAck ← r.sumSymbols fun l => if r.startsAck l then plainElements r l else .ok 0
  let dmrsSymbols := r.dmrsSymbols.length
  let dataOnDmrs ← Size.mul dmrsSymbols (← Size.mul r.blocks (← dataPerBlockOnDmrs r))
  let dataElements ← Size.add plain dataOnDmrs
  let onDmrs ← Size.mul (← Size.mul dmrsSymbols r.blocks) subcarriersPerBlock
  let dmrsElements ← Size.sub onDmrs dataOnDmrs
  let messageBits ← if 0 < q.tbs then do
      let s ← Segmentation.ofSize q.base q.tbs
      Size.mul s.blocks s.messageLength
    else .ok 0
  let supply : Supply := { plain, plainForAck, messageBits }
  let ackElements ← if 0 < q.ackBits then ackElementsOf q supply q.ackBits else .ok 0
  let reservedElements ←
    if 0 < q.ackBits ∧ q.ackBits ≤ 2 then ackElementsOf q supply 2 else .ok 0
  let csi1Elements ← if 0 < q.csi1Bits then
      csi1ElementsOf q supply (if 2 < q.ackBits then ackElements else reservedElements)
    else .ok 0
  let group ← Size.mul q.layers q.modulation.order
  let ackBits ← Size.mul ackElements group
  let reservedBits ← Size.mul reservedElements group
  let csi1Bits ← Size.mul csi1Elements group
  let schBits ← if 0 < q.tbs then do
      let available ← Size.mul dataElements group
      .ok (available - (if 2 < q.ackBits then ackBits else 0) - csi1Bits)
    else .ok 0
  return { schBits, ackBits, reservedBits, csi1Bits, ackElements, reservedElements, csi1Elements,
           dataElements, dmrsElements }

end Budget

end Uplink
