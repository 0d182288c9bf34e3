import Uplink.Complex
import Uplink.Numerology

/-!
# Resource grids

The complex samples of one slot, for every antenna port, symbol and subcarrier. Subcarrier zero is
the first one of the common block zero.

- `ResourceGrid.zeros`, `ResourceGrid.create`: the grid of zeros, of any dimensions and of those
  that fit the machine sizes.
- `ResourceGrid.write`: a row of adjacent elements, written as a whole or not at all; `GridError`
  says which coordinate is out of range, the port before the symbol before the subcarriers.
- `ResourceGrid.element`, `readRange`, `readEach`, `readMasked`: the reads; a read outside the grid
  is a fault.
-/

namespace Uplink

/-- The complex samples of a slot. -/
structure ResourceGrid where
  ports : Nat
  symbols : Nat
  /-- Number of resource blocks. -/
  blocks : Nat
  /-- The elements in order of port, symbol, subcarrier. -/
  elements : Array Complex
  size_eq : elements.size = ports * symbols * (blocks * subcarriersPerBlock)

/-- Why a write does not fit the grid. -/
inductive GridError where
  | invalidPort (port ports : Nat)
  | invalidSymbol (symbol symbols : Nat)
  | invalidSubcarrier (start stop subcarriers : Nat)
deriving DecidableEq, Repr

namespace GridError

/-- The text of the error. -/
def message : GridError → String
  | invalidPort port ports => s!"Port {port} out of bounds (nof_ports={ports})"
  | invalidSymbol symbol symbols => s!"Symbol {symbol} out of bounds (nof_symbols={symbols})"
  | invalidSubcarrier start stop subcarriers =>
    s!"Subcarriers {start}..{stop} out of bounds (nof_subc={subcarriers})"

end GridError

namespace ResourceGrid

/-- Number of subcarriers. -/
def subcarriers (grid : ResourceGrid) : Nat := grid.blocks * subcarriersPerBlock

/-- The grid of zeros. -/
def zeros (ports symbols blocks : Nat) : ResourceGrid :=
  ⟨ports, symbols, blocks,
    Array.replicate (ports * symbols * (blocks * subcarriersPerBlock)) Complex.zero, by simp⟩

/-- The grid of zeros, if there can be one of these dimensions. -/
def create (ports symbols blocks : Nat) : Checked ResourceGrid := do
  let subcarriers ← Size.mul blocks subcarriersPerBlock
  let _ ← Size.cells 8 [ports, symbols, subcarriers]
  return zeros ports symbols blocks

/-- The same grid with zeros everywhere. -/
def clear (grid : ResourceGrid) : ResourceGrid := zeros grid.ports grid.symbols grid.blocks

/-- Place of an element in the order of the grid. -/
def index (grid : ResourceGrid) (port symbol subcarrier : Nat) : Nat :=
  (port * grid.symbols + symbol) * grid.subcarriers + subcarrier

/-- The coordinates name an element of the grid. -/
def Contains (grid : ResourceGrid) (port symbol subcarrier : Nat) : Prop :=
  port < grid.ports ∧ symbol < grid.symbols ∧ subcarrier < grid.subcarriers

instance (grid : ResourceGrid) (port symbol subcarrier : Nat) :
    Decidable (grid.Contains port symbol subcarrier) :=
  inferInstanceAs (Decidable (_ ∧ _ ∧ _))

/-- The extent of the grid as it appears in fault texts. -/
def extent (grid : ResourceGrid) : String :=
  s!"({grid.ports}, {grid.symbols}, {grid.subcarriers})"

/-- Whether the subcarriers from `start` to `stop` of a port and symbol lie in the grid. -/
def checkRange (grid : ResourceGrid) (port symbol start stop : Nat) : Except GridError Unit :=
  if grid.ports ≤ port then .error (.invalidPort port grid.ports)
  else if grid.symbols ≤ symbol then .error (.invalidSymbol symbol grid.symbols)
  else if grid.subcarriers < stop then .error (.invalidSubcarrier start stop grid.subcarriers)
  else .ok ()

/-! ## Reading -/

/-- The element at known coordinates. -/
def elementD (grid : ResourceGrid) (port symbol subcarrier : Nat) : Complex :=
  grid.elements.getD (grid.index port symbol subcarrier) Complex.zero

/-- The element at the coordinates. -/
def element (grid : ResourceGrid) (port symbol subcarrier : Nat) : Checked Complex := do
  require (decide (grid.Contains port symbol subcarrier))
    s!"Resource element ({port}, {symbol}, {subcarrier}) out of grid bounds {grid.extent}"
  return grid.elementD port symbol subcarrier

/-- `length` adjacent elements from subcarrier `start` on, checked as one range. -/
def readRange (grid : ResourceGrid) (length port symbol start : Nat) : Checked (Array Complex) := do
  let stop ← Size.add start length
  require (grid.checkRange port symbol start stop).isOk
    s!"Range read ({port}, {symbol}, {start}..{stop}) out of grid bounds {grid.extent}"
  return Array.ofFn fun i : Fin length => grid.elementD port symbol (start + i)

/-- `length` adjacent elements from subcarrier `start` on, read one after the other. -/
def readEach (grid : ResourceGrid) (length port symbol start : Nat) : Checked (Array Complex) :=
  (List.range length).foldlM
    (fun values i => do
      let k ← Size.add start i
      return values.push (← grid.element port symbol k))
    #[]

/-- The elements from subcarrier `start` on that a mask selects, packed to the front of `buffer`,
and their number. -/
def readMasked (grid : ResourceGrid) (buffer : Array Complex) (port symbol start : Nat)
    (mask : Array Bool) : Checked (Nat × Array Complex) :=
  (List.range mask.size).foldlM
    (fun (count, values) k =>
      if mask.getD k false then do
        let subcarrier ← Size.add start k
        let x ← grid.element port symbol subcarrier
        return (count + 1, ← Buffer.write values count x)
      else
        return (count, values))
    (0, buffer)

/-! ## Writing -/

/-- The grid with the elements from `start` on replaced, for coordinates inside the grid. -/
def overwrite (grid : ResourceGrid) (port symbol start : Nat) (values : Array Complex) :
    ResourceGrid :=
  { grid with
    elements := Buffer.overwrite grid.elements (grid.index port symbol start) values
    size_eq := by simpa using grid.size_eq }

/-- Write adjacent elements from subcarrier `start` on. -/
def write (grid : ResourceGrid) (port symbol start : Nat) (values : Array Complex) :
    Checked (Except GridError ResourceGrid) := do
  let stop ← Size.add start values.size
  match grid.checkRange port symbol start stop with
  | .error e => return .error e
  | .ok () => return .ok (grid.overwrite port symbol start values)

/-- Write one element. -/
def writeElement (grid : ResourceGrid) (port symbol subcarrier : Nat) (value : Complex) :
    Checked (Except GridError ResourceGrid) :=
  grid.write port symbol subcarrier #[value]

end ResourceGrid

end Uplink
