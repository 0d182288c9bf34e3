import Uplink.ChannelEstimate
import Uplink.Dmrs
import Uplink.ResourceGrid
import Uplink.SymbolMask

/-!
# Least squares channel estimation

The channel is taken as constant over a resource block and over the slot. Each block's coefficient
is the mean, over its reference elements and the symbols with reference signals, of what is received
over what was sent; the signs of the reference symbols separate layers on the same elements. What
the fitted channel does not explain is noise.

- `EstimationRequest`: the reference signals of a transmission and where they are received.
- `LeastSquares.fitPort`: coefficients and quality of one port.
- `LeastSquares.tabulate`: the estimate that the fits give; it is zero outside the allocation.
- `EstimationRequest.estimate`: all ports; nothing of an earlier estimate remains but its
  dimensions.
-/

namespace Uplink

/-- What is estimated, and from which elements. -/
structure EstimationRequest where
  reference : ReferenceSignal
  firstSymbol : Nat
  symbolCount : Nat
  /-- The symbols with reference signals. -/
  dmrsMask : SymbolMask
  /-- The allocated blocks. -/
  blockMask : Array Bool
  layers : Nat
  /-- The grid ports that receive. -/
  ports : List Nat

namespace LeastSquares

/-- Reference elements of a group in a block. -/
def perBlock : Nat := 6

/-- The least noise variance relative to the received energy. -/
def noiseFloor : Float32 := 1e-4

/-- What a port received on a symbol with reference signals, and the values that were sent. -/
structure Observation where
  row : Array Complex
  values : Array Complex

namespace Observation

/-- The reference value `j` of the allocated block at `place`. -/
def reference (o : Observation) (place j : Nat) : Complex :=
  o.values.getD (place * perBlock + j) Complex.zero

/-- The received reference element `j` of a block, for the group of subcarriers with an offset. -/
def received (o : Observation) (block j offset : Nat) : Complex :=
  o.row.getD (block * subcarriersPerBlock + 2 * j + offset) Complex.zero

/-- The mean of what is received over what was sent on a layer, for block `block` at `place`. -/
def blockMean (o : Observation) (weights : DmrsWeights) (block place : Nat) : Complex :=
  let total := (List.range perBlock).foldl
    (fun total j =>
      let reference := o.reference place j
      let ratio := (o.received block j weights.offset * reference.conj).scale (weights.factor j)
      total + ratio.divReal reference.normSqr)
    Complex.zero
  total.divReal (Single.ofNat perBlock)

end Observation

/-- The coefficients of a layer, one for each allocated block: the mean over the observations. -/
def layerCoefficients (observations : List Observation) (blocks : List Nat)
    (weights : DmrsWeights) : Array Complex :=
  (blocks.zipIdx.map fun (block, place) =>
    (observations.foldl (fun total o => total + o.blockMean weights block place)
      Complex.zero).divReal (Single.ofNat observations.length)).toArray

/-- A reference element: its group, the allocated block and its place among them, and its number in
the block. -/
structure ReferenceElement where
  group : Nat
  block : Nat
  place : Nat
  number : Nat

/-- The groups of subcarriers with reference signals of some layer. -/
def groups (layers : Nat) : List Nat := if 2 < layers then [0, 1] else [0]

/-- The reference elements of a symbol. -/
def elements (layers : Nat) (blocks : List Nat) : List ReferenceElement :=
  (groups layers).flatMap fun group =>
    blocks.zipIdx.flatMap fun (block, place) =>
      (List.range perBlock).map fun number => ⟨group, block, place, number⟩

/-- The energy of the received reference elements. -/
def energy (observations : List Observation) (elements : List ReferenceElement) : Float32 :=
  observations.foldl
    (fun total o => elements.foldl
      (fun total x => total + (o.received x.block x.number x.group).normSqr) total)
    0

/-- A layer with its coefficients. -/
structure LayerFit where
  weights : DmrsWeights
  coefficients : Array Complex

/-- What the fitted layers let expect on a reference element. -/
def expected (o : Observation) (fits : List LayerFit) (x : ReferenceElement) : Complex :=
  fits.foldl
    (fun total fit =>
      if fit.weights.offset = x.group then
        total + (fit.coefficients.getD x.place Complex.zero
          * o.reference x.place x.number).scale (fit.weights.factor x.number)
      else total)
    Complex.zero

/-- The energy that the fitted layers leave unexplained. -/
def residual (observations : List Observation) (elements : List ReferenceElement)
    (fits : List LayerFit) : Float32 :=
  observations.foldl
    (fun total o => elements.foldl
      (fun total x =>
        total + (o.received x.block x.number x.group - expected o fits x).normSqr)
      total)
    0

/-- The quality of a fitted layer. -/
def layerQuality (amplitude noise : Float32) (coefficients : Array Complex) : LayerQuality :=
  let power :=
    if coefficients.isEmpty then 0
    else Single.sum (coefficients.map Complex.normSqr) / Single.ofNat coefficients.size
  { rsrp := power * amplitude * amplitude
    sinr := if 0 < noise then power / noise else 0 }

/-- What was found for a port. -/
structure PortFit where
  /-- The coefficients of every layer, one for each allocated block. -/
  coefficients : Array (Array Complex)
  quality : PortQuality

/-- The fit of a port to its observations. -/
def fitPort (observations : List Observation) (blocks : List Nat) (weights : List DmrsWeights)
    (amplitude : Float32) : PortFit :=
  let fits : List LayerFit :=
    weights.map fun w => ⟨w, layerCoefficients observations blocks w⟩
  let elements := elements weights.length blocks
  let samples := observations.length * elements.length
  let freedom := max (samples - weights.length * blocks.length) 1
  let received :=
    if 0 < samples then energy observations elements / Single.ofNat samples else 0
  let unexplained := residual observations elements fits / Single.ofNat freedom
  let noise := Single.greatest unexplained (received * noiseFloor)
  let coefficients := (fits.map (·.coefficients)).toArray
  { coefficients
    quality := ⟨noise, received, coefficients.map (layerQuality amplitude noise)⟩ }

/-! ## The whole estimate -/

/-- A row with coefficients written over some blocks, the first of which has place `n`. -/
def spreadFrom (n : Nat) (row : Array Complex) (blocks : List Nat) (coefficients : Array Complex) :
    Array Complex :=
  (blocks.zipIdx n).foldl
    (fun row (block, place) =>
      Buffer.overwrite row (block * subcarriersPerBlock)
        (Array.replicate subcarriersPerBlock (coefficients.getD place Complex.zero)))
    row

/-- The coefficients of a layer on every subcarrier. -/
def spreadRow (dims : ChannelDimensions) (blocks : List Nat) (coefficients : Array Complex) :
    Array Complex :=
  spreadFrom 0 (ChannelEstimate.zeroRow dims) blocks coefficients

/-- The row of a port and layer on the symbols of the allocation. -/
def fittedRow (dims : ChannelDimensions) (blocks : List Nat) (fits : Array PortFit)
    (port layer : Nat) : Array Complex :=
  match fits[port]?.bind (·.coefficients[layer]?) with
  | some coefficients => spreadRow dims blocks coefficients
  | none => ChannelEstimate.zeroRow dims

/-- The quality of a fitted port, with layers that were not sent. -/
def extendQuality (layers : Nat) (quality : PortQuality) : PortQuality :=
  { quality with layers := Array.ofFn fun i : Fin layers => quality.layers.getD i.val ⟨0, 0⟩ }

/-- The estimate of fitted ports, for symbols from `first` up to, not including, `stop`. -/
def tabulate (dims : ChannelDimensions) (first stop : Nat) (blocks : List Nat)
    (fits : Array PortFit) : ChannelEstimate :=
  let width := dims.rowsPerSymbol
  let fitted := Array.ofFn fun i : Fin width =>
    fittedRow dims blocks fits (i / dims.layers) (i % dims.layers)
  { dims
    rows := Array.ofFn fun i : Fin (dims.symbols * width) =>
      if first ≤ i / width ∧ i / width < stop then fitted.getD (i % width) #[]
      else ChannelEstimate.zeroRow dims
    ports := Array.ofFn fun port : Fin dims.ports =>
      match fits[port.val]? with
      | some fit => extendQuality dims.layers fit.quality
      | none => PortQuality.silent dims.layers
    size_eq := by simp [width] }

end LeastSquares

namespace EstimationRequest

open LeastSquares

/-- The first of the symbols that are written. The symbols and blocks of the allocation must lie
within the dimensions. -/
def extent (q : EstimationRequest) (dims : ChannelDimensions) (blocks : List Nat) :
    Checked Nat := do
  let _ ← Size.add q.firstSymbol q.symbolCount
  if q.symbolCount = 0 then return 0
  let first ← Buffer.position dims.symbols q.firstSymbol
  if first + q.symbolCount ≤ dims.symbols ∧ blocks.all (· < dims.blocks) then return first
  else throw .bounds

/-- What a port received on every symbol with reference signals. -/
def observe (q : EstimationRequest) (grid : ResourceGrid) (values : List (Nat × Array Complex))
    (port : Nat) : Checked (List Observation) :=
  values.mapM fun (symbol, values) => do
    return ⟨← grid.readRange (q.blockMask.size * subcarriersPerBlock) port symbol 0, values⟩

/-- The estimate of a transmission, in the place of an earlier one. -/
def estimate (q : EstimationRequest) (grid : ResourceGrid) (earlier : ChannelEstimate) :
    Checked ChannelEstimate := do
  let dims := earlier.dims
  require (q.reference.dmrsType == .type1) "Only DM-RS type 1 is supported"
  require (q.ports.length ≤ dims.ports && q.layers ≤ dims.layers) <|
    s!"Estimate of {dims.ports} ports and {dims.layers} layers cannot hold "
      ++ s!"{q.ports.length} ports and {q.layers} layers"
  let values ← q.dmrsMask.ones.mapM fun symbol => do
    return (symbol, ← q.reference.onSymbol q.blockMask symbol)
  let weights ← (List.range q.layers).mapM DmrsWeights.ofLayer
  let blocks := Dmrs.allocated q.blockMask
  let fits ← q.ports.mapM fun port => do
    let observations ← q.observe grid values port
    if !weights.isEmpty then
      let _ ← q.extent dims blocks
    return fitPort observations blocks weights q.reference.amplitude
  -- without ports or layers nothing is written, wherever the symbols are
  let first := (q.extent dims blocks).toOption.getD 0
  return tabulate dims first (first + q.symbolCount) blocks fits.toArray

end EstimationRequest

end Uplink
