import Uplink.Demodulation
import Uplink.Reuse.Buffer

/-!
# Demodulation in place

A demodulator keeps the buffers of one symbol: the received elements of every port, the equalized
symbols with their noise, the soft bits, and the points that the symbols are compared with. Each
symbol of a slot is demodulated over the one before, of this transmission or the last one.

- `DemodulatorMemory`: the buffers.
- `Modulation.demapOver`, `Modulation.mapOver`, `ErrorMeter.recordBlock`: the soft bits, the points
  and their distances.
- `DemodulationRequest.equalizeInPlace`: the symbols of the data elements.
- `DemodulationRequest.receiveInPlace`: one symbol; without data elements nothing is written.
- `DemodulationRequest.runInPlace`: all symbols, each block passed on as it is found.
-/

namespace Uplink

/-- What a demodulator keeps between two symbols. -/
structure DemodulatorMemory where
  /-- The data elements that each port received. -/
  received : Array (Array Complex)
  /-- The subcarriers of the data elements. -/
  subcarriers : Array Nat
  /-- The equalized symbols. -/
  symbols : Array Complex
  /-- Their noise variances. -/
  noise : Array Float32
  softBits : Array SoftBit
  /-- The likeliest bits. -/
  hardBits : Bits
  /-- The points of the likeliest bits. -/
  points : Array Complex

namespace DemodulatorMemory

/-- Before the first symbol. -/
def fresh : DemodulatorMemory := ⟨#[], #[], #[], #[], #[], #[], #[]⟩

end DemodulatorMemory

namespace Modulation

/-- The soft bits of received symbols, written over a buffer symbol by symbol. -/
def demapOver (m : Modulation) (buffer : Array SoftBit) (symbols : Array Complex)
    (noise : Array Float32) : Array SoftBit :=
  Buffer.overwriteEach buffer m.order (symbols.zipWith (m.softBits m.axisLevels) noise).toList

/-- The points of a bit sequence, each written over the one in its place. -/
def mapOver (m : Modulation) (buffer : Array Complex) (bits : Bits) : Array Complex :=
  buffer.mapIdx fun i _ => m.symbolAt bits i

end Modulation

/-- Take in the symbols of a block with their noise and the points nearest to them. -/
def ErrorMeter.recordBlock (m : ErrorMeter) (symbols : Array Complex) (noise : Array Float32)
    (points : Array Complex) : ErrorMeter :=
  ((symbols.zip points).zip noise).foldl
    (fun m ((symbol, point), noise) => m.record ⟨symbol, noise⟩ point) m

namespace DemodulationRequest

/-- The data elements of a symbol, read over those that each port received before, and the symbols
that they are equalized to, written element by element. -/
def equalizeInPlace (q : DemodulationRequest) (memory : DemodulatorMemory) (grid : ResourceGrid)
    (estimate : ChannelEstimate) (portNoise : Array Float32) (symbol : Nat) (mask : Array Bool)
    (subcarriers : Array Nat) : Checked DemodulatorMemory := do
  let received ← (memory.received.zip q.ports.toArray).mapM fun (elements, port) => do
    let (_, elements) ←
      grid.readMasked (Buffer.resize elements subcarriers.size Complex.zero) port symbol 0 mask
    return elements
  let rows ← (Array.range received.size).mapM fun port =>
    (Array.range q.layers).mapM (estimate.row symbol port)
  let length := subcarriers.size * q.layers
  let (symbols, noise) ← subcarriers.zipIdx.foldlM
    (fun (symbols, noise) (k, i) => do
      let found ← q.equalizeElement rows portNoise received i k
      return (Buffer.overwrite symbols (i * q.layers) (found.map (·.symbol)),
        Buffer.overwrite noise (i * q.layers) (found.map (·.noise))))
    (Buffer.resize memory.symbols length Complex.zero, Buffer.resize memory.noise length 0)
  return { memory with received, subcarriers, symbols, noise }

/-- Receive a symbol. Its soft bits are in the buffer if it holds data. -/
def receiveInPlace (q : DemodulationRequest) (memory : DemodulatorMemory) (grid : ResourceGrid)
    (estimate : ChannelEstimate) (portNoise : Array Float32) (symbol : Nat) (progress : Progress) :
    Checked (DemodulatorMemory × Progress) := do
  let mask := q.dataMask (q.dmrsMask.contains symbol)
  let subcarriers := (Array.range mask.size).filter (mask.getD · false)
  if subcarriers.isEmpty then return ({ memory with subcarriers }, progress)
  let memory ← q.equalizeInPlace memory grid estimate portNoise symbol mask subcarriers
  let length := subcarriers.size * q.layers
  let scrambled := q.modulation.demapOver
    (Buffer.resize memory.softBits (length * q.modulation.order) SoftBit.erased)
    memory.symbols memory.noise
  let hardBits := scrambled.map (·.hardDecision)
  let points :=
    q.modulation.mapOver (Buffer.resize memory.points length Complex.zero) hardBits
  let meter := progress.meter.recordBlock memory.symbols memory.noise points
  let (softBits, scrambling) ← progress.scrambling.descramble scrambled
  return ({ memory with softBits, hardBits, points }, { scrambling, meter })

/-- Receive `count` symbols from `first` on and pass the blocks of those with data on. -/
def receiveAllInPlace {σ : Type} (q : DemodulationRequest) (grid : ResourceGrid)
    (estimate : ChannelEstimate) (portNoise : Array Float32)
    (consume : σ → Array SoftBit → Checked σ) :
    (first count : Nat) → DemodulatorMemory → σ × Progress →
      Checked (DemodulatorMemory × σ × Progress)
  | _, 0, memory, state => .ok (memory, state)
  | first, count + 1, memory, (consumed, progress) => do
    let (memory, progress) ← q.receiveInPlace memory grid estimate portNoise first progress
    let consumed ←
      if memory.subcarriers.isEmpty then .ok consumed else consume consumed memory.softBits
    receiveAllInPlace q grid estimate portNoise consume (first + 1) count memory
      (consumed, progress)

/-- Demodulate a codeword and pass the block of each symbol with data to `consume`. -/
def runInPlace {σ : Type} (q : DemodulationRequest) (memory : DemodulatorMemory)
    (grid : ResourceGrid) (estimate : ChannelEstimate) (consume : σ → Array SoftBit → Checked σ)
    (start : σ) : Checked (DemodulationStatistics × σ × DemodulatorMemory) := do
  let ports := q.ports.length
  require (decide (1 ≤ ports ∧ ports ≤ maxPorts ∧ 1 ≤ q.layers ∧ q.layers ≤ maxPorts))
    s!"Unsupported {ports} receive ports and {q.layers} layers"
  require (q.dmrsType == .type1) "Only DM-RS type 1 is supported"
  let portNoise ← (Array.range ports).mapM fun port => return (← estimate.port port).noise
  let _ ← Size.add q.firstSymbol q.symbolCount
  let scrambling := GoldSequence.ofSeed (Scrambling.seed q.rnti q.cellId)
  let memory := { memory with received := Buffer.resize memory.received ports #[] }
  let (memory, consumed, progress) ← q.receiveAllInPlace grid estimate portNoise consume
    q.firstSymbol q.symbolCount memory (start, ⟨scrambling, ErrorMeter.zero⟩)
  return (progress.meter.statistics, consumed, memory)

end DemodulationRequest

end Uplink
