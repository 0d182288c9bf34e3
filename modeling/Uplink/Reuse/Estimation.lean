import Uplink.ChannelEstimate.LeastSquares
import Uplink.Reuse.Buffer

/-!
# Channel estimation in place

An estimator keeps a row of received elements and the values that were sent, and writes into the
estimate that it gave before.

- `ChannelEstimate.clear`: an estimate is cleared before it is written again.
- `ChannelEstimate.enter`: the coefficients and the quality of one port.
- `EstimationRequest.estimateInPlace`: all ports, each received symbol read over the one before.
-/

namespace Uplink

/-- What an estimator keeps between two estimates. -/
structure EstimatorMemory where
  /-- The values sent on each symbol with reference signals. -/
  sequences : List (Array Complex)
  /-- What a port received on one symbol. -/
  row : Array Complex

namespace EstimatorMemory

/-- Before the first estimate. -/
def fresh : EstimatorMemory := ⟨[], #[]⟩

end EstimatorMemory

namespace LeastSquares

/-- The row of a layer with what was fitted to it; a layer that was not sent keeps its row. -/
def PortFit.enterLayer (fit : PortFit) (blocks : List Nat) (layer : Nat) (row : Array Complex) :
    Array Complex :=
  match fit.coefficients[layer]? with
  | some coefficients => spreadFrom 0 row blocks coefficients
  | none => row

/-- The quality of a port with that of its fitted layers; the other layers keep theirs. -/
def mergeQuality (earlier found : PortQuality) : PortQuality :=
  { found with
    layers := earlier.layers.mapIdx fun layer quality => found.layers.getD layer quality }

end LeastSquares

namespace ChannelEstimate

open LeastSquares

/-- The estimate with zeros everywhere. -/
def clear (e : ChannelEstimate) : ChannelEstimate :=
  { e with
    rows := e.rows.map fun row => Array.replicate row.size Complex.zero
    ports := e.ports.map fun port => PortQuality.silent port.layers.size
    size_eq := by simpa using e.size_eq }

/-- The estimate with what was found for a port, on the symbols from `first` up to, not including,
`stop`. All other coefficients stay. -/
def enter (e : ChannelEstimate) (first stop : Nat) (blocks : List Nat) (port : Nat)
    (fit : PortFit) : ChannelEstimate :=
  let width := e.dims.rowsPerSymbol
  { e with
    rows := e.rows.mapIdx fun i row =>
      if first ≤ i / width ∧ i / width < stop ∧ i % width / e.dims.layers = port then
        fit.enterLayer blocks (i % width % e.dims.layers) row
      else row
    ports := e.ports.modify port (mergeQuality · fit.quality)
    size_eq := by simpa using e.size_eq }

end ChannelEstimate

namespace EstimationRequest

open LeastSquares

/-- What a port received on every symbol with reference signals, each read over the row of the one
before. -/
def observeInPlace (grid : ResourceGrid) (values : List (Nat × Array Complex)) (port : Nat)
    (row : Array Complex) : Checked (List Observation × Array Complex) :=
  values.foldlM
    (fun (observations, row) (symbol, values) => do
      let row ← grid.readOver row port symbol
      return (observations ++ [⟨row, values⟩], row))
    ([], row)

/-- The estimate of a transmission, written into an earlier one. -/
def estimateInPlace (q : EstimationRequest) (memory : EstimatorMemory) (grid : ResourceGrid)
    (earlier : ChannelEstimate) : Checked (ChannelEstimate × EstimatorMemory) := do
  let dims := earlier.dims
  require (q.reference.dmrsType == .type1) "Only DM-RS type 1 is supported"
  require (q.ports.length ≤ dims.ports && q.layers ≤ dims.layers) <|
    s!"Estimate of {dims.ports} ports and {dims.layers} layers cannot hold "
      ++ s!"{q.ports.length} ports and {q.layers} layers"
  let values ← q.dmrsMask.ones.mapM fun symbol => do
    return (symbol, ← q.reference.onSymbol q.blockMask symbol)
  let weights ← (List.range q.layers).mapM DmrsWeights.ofLayer
  let blocks := Dmrs.allocated q.blockMask
  let row := Buffer.resize memory.row (q.blockMask.size * subcarriersPerBlock) Complex.zero
  let (estimate, row) ← q.ports.zipIdx.foldlM
    (fun (estimate, row) (port, place) => do
      let (observations, row) ← observeInPlace grid values port row
      let fit := fitPort observations blocks weights q.reference.amplitude
      -- without layers nothing is written to the rows
      let first ← if weights.isEmpty then .ok 0 else q.extent dims blocks
      return (ChannelEstimate.enter estimate first (first + q.symbolCount) blocks place fit, row))
    (earlier.clear, row)
  return (estimate, ⟨values.map Prod.snd, row⟩)

end EstimationRequest

end Uplink
