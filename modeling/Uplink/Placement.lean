import Uplink.Modulation
import Uplink.Region

/-!
# Placement

Which field each data element of a transmission carries, symbol by symbol and in increasing order of
subcarriers. Acknowledgements of more than two bits have elements of their own; shorter ones replace
data on elements that were reserved for them, and which channel state reports keep clear of.

- `ElementUse`: what an element carries.
- `Placement.spread`: as many of the available elements as needed, evenly spaced.
- `Placement.allot`: one field over the symbols, until its bits are placed.
- `Placement.ofRequest`: all fields in order.
-/

namespace Uplink

/-- What a data element carries. -/
inductive ElementUse where
  | sch
  | harqAck
  | csiPart1
  /-- A short acknowledgement in the place of data. -/
  | punctured
deriving DecidableEq, Repr

namespace ElementUse

/-- The name of the use in fault texts. -/
def name : ElementUse → String
  | sch => "Sch"
  | harqAck => "HarqAck"
  | csiPart1 => "CsiPart1"
  | punctured => "HarqAckPunctured"

end ElementUse

/-- What determines a placement. -/
structure PlacementRequest where
  modulation : Modulation
  layers : Nat
  region : Region
  /-- Bits of the acknowledgement itself. -/
  ackPayload : Nat
  /-- Coded bits of the acknowledgement. -/
  ackBits : Nat
  /-- Coded bits of the elements reserved for it. -/
  reservedBits : Nat
  /-- Coded bits of the first channel state report. -/
  csi1Bits : Nat

namespace PlacementRequest

/-- Coded bits of an element on all layers. -/
def bitsPerElement (q : PlacementRequest) : Checked Nat := Size.mul q.layers q.modulation.order

/-- The acknowledgement replaces data. -/
def punctures (q : PlacementRequest) : Bool :=
  decide (0 < q.ackPayload) && decide (q.ackPayload ≤ 2)

end PlacementRequest

namespace Placement

/-- The data elements of one symbol. -/
structure Row where
  symbol : Nat
  /-- The symbol has no reference signals. -/
  plain : Bool
  uses : Array ElementUse
  /-- Whether each element is reserved for an acknowledgement. -/
  reserved : Array Bool

namespace Row

/-- All elements of a plain symbol. -/
def all (row : Row) : Array Nat := if row.plain then Array.range row.uses.size else #[]

/-- The elements of a plain symbol that carry data and are not reserved. -/
def unreserved (row : Row) : Array Nat :=
  row.all.filter fun k => row.uses.getD k .harqAck == .sch && !row.reserved.getD k false

/-- The reserved elements. -/
def reservedOnes (row : Row) : Array Nat :=
  (Array.range row.uses.size).filter (row.reserved.getD · false)

/-- Reserve element `k`. -/
def reserve (row : Row) (k : Nat) : Row :=
  { row with reserved := row.reserved.setIfInBounds k true }

/-- Give element `k` a use. -/
def assign (use : ElementUse) (row : Row) (k : Nat) : Row :=
  { row with uses := row.uses.setIfInBounds k use }

end Row

/-- The places of a symbol with reference signals that hold data. -/
def dataPlaces (freeGroups elements : Nat) : Nat :=
  ((List.range elements).filter fun k => decide (freeGroups ≤ k % 2)).length

/-- The row of a symbol before any control information is placed. -/
def emptyRow (r : Region) (symbol : Nat) : Checked Row := do
  let elements ← Size.mul r.blocks subcarriersPerBlock
  let plain := r.isPlain symbol
  require (plain || r.dmrsType == .type1) "Only DM-RS type 1 is supported"
  let _ ← Size.cells 8 [elements]
  let size := if plain then elements else dataPlaces r.freeGroups elements
  return ⟨symbol, plain, Array.replicate size .sch, Array.replicate size false⟩

/-- As many of the available elements as `bits` need: all of them, or evenly spaced ones from the
first on. -/
def spread (available : Array Nat) (bits group : Nat) : Checked (Array Nat) := do
  let capacity ← Size.mul available.size group
  if capacity ≤ bits then return available
  else
    let count := ((← Size.add bits group) - 1) / group
    let spacing := capacity / bits
    return (Array.range count).filterMap fun j => available[j * spacing]?

/-- Place `bits` bits on the rows in order, until all are placed: on each row, `mark` the elements
spread over its `available` ones. The bits that find no place remain. -/
def allot (group : Nat) (available : Row → Array Nat) (mark : Row → Nat → Row) :
    (rows : List Row) → (bits : Nat) → Checked (List Row × Nat)
  | [], bits => .ok ([], bits)
  | row :: rows, bits =>
    if bits = 0 then .ok (row :: rows, 0)
    else do
      let chosen ← spread (available row) bits group
      let bits ← Size.sub bits (chosen.size * group)
      let (rows, bits) ← allot group available mark rows bits
      return (chosen.foldl mark row :: rows, bits)

/-- The rows of a request with all its fields placed. -/
def rows (q : PlacementRequest) : Checked (List Row) := do
  let group ← q.bitsPerElement
  q.region.checkSymbols
  let _ ← Size.cells 8 [q.region.symbolCount]
  let rows ← q.region.mapSymbols (emptyRow q.region)
  -- acknowledgements start on the first plain symbol after the first reference signals
  let (before, after) := rows.span fun row => !q.region.startsAck row.symbol
  let after ← if q.punctures then do
      let (after, _) ← allot group Row.all Row.reserve after q.reservedBits
      .ok after
    else .ok after
  let after ← if 2 < q.ackPayload then do
      let (after, rest) ← allot group Row.all (Row.assign .harqAck) after q.ackBits
      require (rest == 0) "HARQ-ACK does not fit the allocation"
      .ok after
    else .ok after
  let (rows, rest) ←
    allot group Row.unreserved (Row.assign .csiPart1) (before ++ after) q.csi1Bits
  require (rest == 0) "CSI part 1 does not fit the allocation"
  if q.punctures then
    let (before, after) := (rows.take before.length, rows.drop before.length)
    let (after, rest) ← allot group Row.reservedOnes (Row.assign .punctured) after q.ackBits
    require (rest == 0) "HARQ-ACK exceeds the reserved resource elements"
    return before ++ after
  else
    return rows

/-- The use of every data element. -/
def ofRequest (q : PlacementRequest) : Checked (Array ElementUse) := do
  return (← rows q).foldl (fun uses row => uses ++ row.uses) #[]

end Placement

end Uplink
