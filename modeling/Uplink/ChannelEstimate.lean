import Uplink.Complex
import Uplink.Numerology

/-!
# Channel estimates

The channel of every symbol, port, layer and subcarrier of a slot, and how well each port and layer
is received. Subcarrier zero is the first one of the common block zero.

- `ChannelEstimate.zeros`, `ChannelEstimate.create`: nothing is received, with any dimensions and
  with those that fit the machine sizes.
- `ChannelEstimate.row`, `coefficient`, `port`, `layer`: the reads, each within the dimensions.
- `ChannelEstimate.fill`, `clearSubcarrier`, `adjustPort`, `adjustLayer`: the writes.
- `ChannelEstimate.layerSinrDb`: the signal to noise ratio of a layer over several ports.
-/

namespace Uplink

/-- Dimensions of a channel estimate. -/
structure ChannelDimensions where
  /-- Resource blocks from the common block zero on. -/
  blocks : Nat
  symbols : Nat
  ports : Nat
  layers : Nat
deriving DecidableEq, Repr

namespace ChannelDimensions

/-- Number of subcarriers. -/
def subcarriers (dims : ChannelDimensions) : Nat := dims.blocks * subcarriersPerBlock

/-- Rows of a symbol. -/
def rowsPerSymbol (dims : ChannelDimensions) : Nat := dims.ports * dims.layers

/-- Place of a row in the order of symbols, ports and layers. -/
def place (dims : ChannelDimensions) (symbol port layer : Nat) : Nat :=
  symbol * dims.rowsPerSymbol + port * dims.layers + layer

/-- A table of these dimensions fits the machine sizes. -/
def check (dims : ChannelDimensions) : Checked Unit := do
  let subcarriers ← Size.mul dims.blocks subcarriersPerBlock
  let _ ← Size.cells 8 [dims.symbols, dims.ports, dims.layers, subcarriers]
  let _ ← Size.cells 4 [dims.ports]
  let _ ← Size.cells 4 [dims.ports, dims.layers]

end ChannelDimensions

/-- How well a layer is received on a port. -/
structure LayerQuality where
  /-- Power of the reference signals. -/
  rsrp : Float32
  /-- Signal to noise ratio. -/
  sinr : Float32
deriving DecidableEq

/-- How well a port receives. -/
structure PortQuality where
  /-- Noise variance. -/
  noise : Float32
  /-- Received energy of an element. -/
  energy : Float32
  layers : Array LayerQuality
deriving DecidableEq

namespace PortQuality

/-- A port that receives nothing on any of its layers. -/
def silent (layers : Nat) : PortQuality := ⟨0, 0, Array.replicate layers ⟨0, 0⟩⟩

end PortQuality

/-- The channel of a slot. -/
structure ChannelEstimate where
  dims : ChannelDimensions
  /-- The coefficients of all subcarriers, in order of symbol, port and layer. -/
  rows : Array (Array Complex)
  /-- The quality of every port. -/
  ports : Array PortQuality
  size_eq : rows.size = dims.symbols * dims.rowsPerSymbol

namespace ChannelEstimate

/-- A row of zeros. -/
def zeroRow (dims : ChannelDimensions) : Array Complex :=
  Array.replicate dims.subcarriers Complex.zero

/-- The estimate of a slot without any signal. -/
def zeros (dims : ChannelDimensions) : ChannelEstimate :=
  { dims
    rows := Array.ofFn fun _ : Fin (dims.symbols * dims.rowsPerSymbol) => zeroRow dims
    ports := Array.ofFn fun _ : Fin dims.ports => PortQuality.silent dims.layers
    size_eq := by simp }

/-- The estimate of a slot without any signal, if there can be one of these dimensions. -/
def create (dims : ChannelDimensions) : Checked ChannelEstimate := do
  dims.check
  return zeros dims

/-! ## Reading -/

/-- The coefficients of a symbol, port and layer. -/
def row (e : ChannelEstimate) (symbol port layer : Nat) : Checked (Array Complex) :=
  if symbol < e.dims.symbols ∧ port < e.dims.ports ∧ layer < e.dims.layers then
    .ok (e.rows.getD (e.dims.place symbol port layer) #[])
  else .error .bounds

/-- One coefficient. -/
def coefficient (e : ChannelEstimate) (symbol port layer subcarrier : Nat) : Checked Complex := do
  Buffer.read (← e.row symbol port layer) subcarrier

/-- The quality of a port. -/
def port (e : ChannelEstimate) (port : Nat) : Checked PortQuality := Buffer.read e.ports port

/-- The quality of a layer on a port. -/
def layer (e : ChannelEstimate) (port layer : Nat) : Checked LayerQuality := do
  Buffer.read (← e.port port).layers layer

/-- The signal to noise ratio of a layer in decibels, combined over the first `ports` ports; none
without any signal. -/
def layerSinrDb (e : ChannelEstimate) (layer ports : Nat) : Checked (Option Float32) := do
  if e.ports.size < ports then throw .bounds
  let terms ← (Array.range ports).mapM fun p => return (← e.layer p layer).sinr
  let total := Single.sum terms
  return if 0 < total then some (Single.toDecibels total) else none

/-! ## Writing -/

/-- Give all coefficients of a symbol, port and layer one value. -/
def fill (e : ChannelEstimate) (symbol port layer : Nat) (value : Complex) :
    Checked ChannelEstimate := do
  let symbol ← Buffer.position e.dims.symbols symbol
  let port ← Buffer.position e.dims.ports port
  let layer ← Buffer.position e.dims.layers layer
  let row := Array.replicate e.dims.subcarriers value
  return { e with
    rows := e.rows.setIfInBounds (e.dims.place symbol port layer) row
    size_eq := by simpa using e.size_eq }

/-- Clear the coefficients of a subcarrier everywhere. -/
def clearSubcarrier (e : ChannelEstimate) (subcarrier : Nat) : Checked ChannelEstimate := do
  let k ← Buffer.position e.dims.subcarriers subcarrier
  return { e with
    rows := e.rows.map (·.setIfInBounds k Complex.zero)
    size_eq := by simpa using e.size_eq }

/-- Change the quality of a port. -/
def adjustPort (e : ChannelEstimate) (port : Nat) (change : PortQuality → PortQuality) :
    Checked ChannelEstimate := do
  let q ← e.port port
  return { e with ports := e.ports.setIfInBounds port (change q) }

/-- Change the quality of a layer on a port. -/
def adjustLayer (e : ChannelEstimate) (port layer : Nat) (change : LayerQuality → LayerQuality) :
    Checked ChannelEstimate := do
  let q ← e.layer port layer
  e.adjustPort port fun p => { p with layers := p.layers.setIfInBounds layer (change q) }

end ChannelEstimate

end Uplink
