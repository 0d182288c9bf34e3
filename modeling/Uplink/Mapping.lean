import Uplink.Constellation
import Uplink.Dmrs
import Uplink.ResourceGrid
import Uplink.Scrambling
import Uplink.SymbolMask

/-!
# Resource mapping

A codeword on its way to the grid: it is scrambled and turned into symbols, which are dealt to the
layers and laid on the data elements of the allocated blocks, symbol by symbol and in increasing
order of subcarriers. Reference signals take their own elements.

- `MappingRequest.dataSubcarriers`: the data elements of a symbol.
- `MappingRequest.layerRow`: all elements of a layer on a symbol.
- `MappingRequest.write`: the codeword and its reference signals on the grid.
-/

namespace Uplink

/-- What is sent, and on which elements. -/
structure MappingRequest where
  reference : ReferenceSignal
  rnti : Rnti
  cellId : UInt16
  modulation : Modulation
  /-- The allocated blocks. -/
  blockMask : Array Bool
  firstSymbol : Nat
  symbolCount : Nat
  /-- The symbols with reference signals. -/
  dmrsMask : SymbolMask
  /-- Groups of subcarriers without data on these symbols. -/
  freeGroups : Nat
  /-- The grid port of every layer. -/
  ports : List Nat

/-- A grid being written, and the error that stopped the writing. -/
structure Written where
  grid : ResourceGrid
  error? : Option GridError

namespace Written

/-- Write a row of a port and symbol, unless the writing has stopped. -/
def row (w : Written) (port symbol : Nat) (values : Array Complex) : Checked Written := do
  if w.error?.isSome then return w
  match ← w.grid.write port symbol 0 values with
  | .ok grid => return { w with grid }
  | .error e => return { w with error? := some e }

end Written

namespace MappingRequest

/-- The subcarriers of a block that carry data. -/
def dataPlaces (q : MappingRequest) (onDmrs : Bool) : List Nat :=
  (List.range subcarriersPerBlock).filter fun k => !(onDmrs && decide (k % 2 < q.freeGroups))

/-- The subcarriers of a symbol that carry data. -/
def dataSubcarriers (q : MappingRequest) (onDmrs : Bool) : List Nat :=
  (Dmrs.allocated q.blockMask).flatMap fun block =>
    (q.dataPlaces onDmrs).map (block * subcarriersPerBlock + ·)

/-- A row with the data of a layer, of which `done` elements have been sent before. -/
def dataRow (q : MappingRequest) (symbols : Array Complex) (layer done : Nat) (onDmrs : Bool) :
    Array Complex :=
  (q.dataSubcarriers onDmrs).zipIdx.foldl
    (fun row (k, i) =>
      row.setIfInBounds k (symbols.getD ((done + i) * q.ports.length + layer) Complex.zero))
    (Array.replicate (q.blockMask.size * subcarriersPerBlock) Complex.zero)

/-- A row with the reference signals of a layer added. -/
def withReference (q : MappingRequest) (weights : DmrsWeights) (values : Array Complex)
    (row : Array Complex) : Array Complex :=
  let weighted := Dmrs.weigh values weights
  let perBlock := DmrsType.type1.perBlock
  (Dmrs.allocated q.blockMask).zipIdx.foldl
    (fun row (block, place) =>
      (List.range perBlock).foldl
        (fun row j =>
          row.setIfInBounds (block * subcarriersPerBlock + 2 * j + weights.offset)
            (weighted.getD (place * perBlock + j) Complex.zero))
        row)
    row

/-- All elements of a layer on a symbol, whose reference values are given if it has any. -/
def layerRow (q : MappingRequest) (symbols : Array Complex) (done : Nat)
    (values : Option (Array Complex)) (layer : Nat) : Checked (Array Complex) := do
  let row := q.dataRow symbols layer done values.isSome
  match values with
  | some values => return q.withReference (← DmrsWeights.ofLayer layer) values row
  | none => return row

/-- Write a symbol, when `done` elements have been sent before; returns their number after it. -/
def writeSymbol (q : MappingRequest) (symbols : Array Complex) (state : Nat × Written)
    (symbol : Nat) : Checked (Nat × Written) := do
  let (done, w) := state
  if w.error?.isSome then return state
  let onDmrs := q.dmrsMask.contains symbol
  let values ← if onDmrs then some <$> q.reference.onSymbol q.blockMask symbol else .ok none
  let rows ← (List.range q.ports.length).mapM (q.layerRow symbols done values)
  let w ← (rows.zip q.ports).foldlM (fun w (row, port) => w.row port symbol row) w
  return (done + (q.dataSubcarriers onDmrs).length, w)

/-- Write a codeword and its reference signals. -/
def write (q : MappingRequest) (grid : ResourceGrid) (codeword : Bits) : Checked Written := do
  require (q.reference.dmrsType == .type1) "Only DM-RS type 1 is supported"
  let layers := q.ports.length
  require ((← Size.mod codeword.size (q.modulation.order * layers)) == 0)
    s!"Codeword of {codeword.size} bits does not fill whole resource elements"
  let scrambled := Scrambling.scramble codeword q.rnti q.cellId
  let symbols ← q.modulation.map scrambled (codeword.size / q.modulation.order)
  let _ ← Size.add q.firstSymbol q.symbolCount
  let times := List.range' q.firstSymbol q.symbolCount
  let elements := (times.flatMap fun l => q.dataSubcarriers (q.dmrsMask.contains l)).length
  require (elements * layers == symbols.size) "Codeword does not match the allocation"
  let (_, w) ← times.foldlM (q.writeSymbol symbols) (0, ⟨grid, none⟩)
  return w

end MappingRequest

end Uplink
