import Uplink.ChannelEstimate
import Uplink.ChannelState
import Uplink.Constellation
import Uplink.Dmrs
import Uplink.Equalizer
import Uplink.ResourceGrid
import Uplink.Scrambling
import Uplink.SymbolMask

/-!
# Demodulation

The soft bits of a codeword, read from the data elements of all receiving ports: the elements of a
symbol are equalized with the channel estimate, turned into soft bits and descrambled. The soft bits
leave in one block for each symbol that holds data.

- `DemodulationRequest.dataMask`: the data elements of a symbol.
- `ErrorMeter`: how far the equalized symbols are from the constellation.
- `DemodulationRequest.receive`: the soft bits of one symbol.
- `DemodulationRequest.run`: all symbols, each block passed on as it is found.
-/

namespace Uplink

/-- What is demodulated, and from which elements. -/
structure DemodulationRequest where
  rnti : Rnti
  cellId : UInt16
  /-- The allocated blocks. -/
  blockMask : Array Bool
  modulation : Modulation
  firstSymbol : Nat
  symbolCount : Nat
  /-- The symbols with reference signals. -/
  dmrsMask : SymbolMask
  dmrsType : DmrsType
  /-- Groups of subcarriers without data on these symbols. -/
  freeGroups : Nat
  layers : Nat
  /-- The grid ports that receive. -/
  ports : List Nat

/-- Sums over the equalized symbols whose noise is known. -/
structure ErrorMeter where
  /-- Energy of the distances to the likeliest points. -/
  error : Float32
  /-- Energy of these points. -/
  reference : Float32
  noise : Float32
  count : Nat

namespace ErrorMeter

/-- No symbol yet. -/
def zero : ErrorMeter := ⟨0, 0, 0, 0⟩

/-- Take in a symbol and the point nearest to it. -/
def record (m : ErrorMeter) (x : Equalized) (point : Complex) : ErrorMeter :=
  if Modulation.usableNoise x.noise then
    { error := m.error + (x.symbol - point).normSqr
      reference := m.reference + point.normSqr
      noise := m.noise + x.noise
      count := m.count + 1 }
  else m

/-- Take in the symbols of a block, whose likeliest bits are given. -/
def recordAll (m : ErrorMeter) (modulation : Modulation) (symbols : Array Equalized)
    (bits : Bits) : ErrorMeter :=
  symbols.zipIdx.foldl (fun m (x, i) => m.record x (modulation.symbolAt bits i)) m

/-- What the sums tell. -/
def statistics (m : ErrorMeter) : DemodulationStatistics :=
  { evm := if 0 < m.reference then some (m.error / m.reference).sqrt else none
    sinrDb :=
      if 0 < m.count ∧ 0 < m.noise then
        some (Single.toDecibels (Single.ofNat m.count / m.noise))
      else none }

end ErrorMeter

namespace DemodulationRequest

/-- Ports and layers that can be equalized. -/
def maxPorts : Nat := 4

/-- Whether each subcarrier of a symbol carries data. -/
def dataMask (q : DemodulationRequest) (onDmrs : Bool) : Array Bool :=
  Array.ofFn fun k : Fin (q.blockMask.size * subcarriersPerBlock) =>
    q.blockMask.getD (k.val / subcarriersPerBlock) false
      && (!onDmrs || decide (q.freeGroups ≤ k.val % 2))

/-- How far a demodulation has come. -/
structure Progress where
  scrambling : GoldSequence
  meter : ErrorMeter

/-- The equalized symbols of a data element of a symbol: the element number `i` among those
received, on subcarrier `k`. -/
def equalizeElement (q : DemodulationRequest) (rows : Array (Array (Array Complex)))
    (noise : Array Float32) (received : Array (Array Complex)) (i k : Nat) :
    Checked (Array Equalized) := do
  let channel ← rows.mapM (·.mapM (Buffer.read · k))
  let elements := received.map (·.getD i Complex.zero)
  return Equalizer.equalize q.layers elements ⟨channel⟩ noise

/-- The equalized symbols of a symbol's data elements. -/
def equalizeSymbol (q : DemodulationRequest) (grid : ResourceGrid) (estimate : ChannelEstimate)
    (noise : Array Float32) (symbol : Nat) (mask : Array Bool) (subcarriers : Array Nat) :
    Checked (Array Equalized) := do
  let received ← q.ports.toArray.mapM fun port => do
    let (_, elements) ←
      grid.readMasked (Array.replicate subcarriers.size Complex.zero) port symbol 0 mask
    return elements
  let rows ← (Array.range received.size).mapM fun port =>
    (Array.range q.layers).mapM (estimate.row symbol port)
  subcarriers.zipIdx.foldlM
    (fun symbols (k, i) => return symbols ++ (← q.equalizeElement rows noise received i k))
    #[]

/-- The soft bits of a symbol; none if it holds no data. -/
def receive (q : DemodulationRequest) (grid : ResourceGrid) (estimate : ChannelEstimate)
    (noise : Array Float32) (symbol : Nat) (progress : Progress) :
    Checked (Array SoftBit × Progress) := do
  let mask := q.dataMask (q.dmrsMask.contains symbol)
  let subcarriers := (Array.range mask.size).filter (mask.getD · false)
  if subcarriers.isEmpty then return (#[], progress)
  let symbols ← q.equalizeSymbol grid estimate noise symbol mask subcarriers
  let scrambled := q.modulation.demapAll (symbols.map (·.symbol)) (symbols.map (·.noise))
  let meter :=
    progress.meter.recordAll q.modulation symbols (scrambled.map (·.hardDecision))
  let (softBits, scrambling) ← progress.scrambling.descramble scrambled
  return (softBits, { scrambling, meter })

/-- Receive `count` symbols from `first` on and pass their blocks on. -/
def receiveAll {σ : Type} (q : DemodulationRequest) (grid : ResourceGrid)
    (estimate : ChannelEstimate) (noise : Array Float32)
    (consume : σ → Array SoftBit → Checked σ) :
    (first count : Nat) → σ × Progress → Checked (σ × Progress)
  | _, 0, state => .ok state
  | first, count + 1, (consumed, progress) => do
    let (softBits, progress) ← q.receive grid estimate noise first progress
    let consumed ← if softBits.isEmpty then .ok consumed else consume consumed softBits
    receiveAll q grid estimate noise consume (first + 1) count (consumed, progress)

/-- Demodulate a codeword and pass the block of each symbol with data to `consume`. -/
def run {σ : Type} (q : DemodulationRequest) (grid : ResourceGrid) (estimate : ChannelEstimate)
    (consume : σ → Array SoftBit → Checked σ) (start : σ) :
    Checked (DemodulationStatistics × σ) := do
  let ports := q.ports.length
  require (decide (1 ≤ ports ∧ ports ≤ maxPorts ∧ 1 ≤ q.layers ∧ q.layers ≤ maxPorts))
    s!"Unsupported {ports} receive ports and {q.layers} layers"
  require (q.dmrsType == .type1) "Only DM-RS type 1 is supported"
  let noise ← (Array.range ports).mapM fun port => return (← estimate.port port).noise
  let _ ← Size.add q.firstSymbol q.symbolCount
  let scrambling := GoldSequence.ofSeed (Scrambling.seed q.rnti q.cellId)
  let (consumed, progress) ← q.receiveAll grid estimate noise consume q.firstSymbol q.symbolCount
    (start, ⟨scrambling, ErrorMeter.zero⟩)
  return (progress.meter.statistics, consumed)

end DemodulationRequest

end Uplink
