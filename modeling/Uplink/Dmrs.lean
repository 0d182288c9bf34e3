import Uplink.GoldSequence
import Uplink.Numerology

/-!
# Demodulation reference signals

Known symbols from which the channel is estimated. Their values depend on the absolute resource
block only, so the values of blocks that are not allocated are passed over.

- `DmrsType.perBlock`: reference symbols of a block.
- `DmrsWeights.ofLayer`: subcarrier offset and signs that tell the layers apart.
- `Dmrs.seed`, `Dmrs.sequence`, `Dmrs.weigh`: the seed of a symbol, the values of the allocated
  blocks, and those of one layer.
- `Dmrs.boost`: their power over the data, in decibels.
- `ReferenceSignal`: the reference signals of one transmission, symbol by symbol.
-/

namespace Uplink

/-- Arrangement of the reference symbols in a block. -/
inductive DmrsType where
  /-- Every other subcarrier. -/
  | type1
  /-- Pairs of neighbours. -/
  | type2
deriving DecidableEq, Repr

namespace DmrsType

/-- Reference symbols of a group in a block. -/
def perBlock : DmrsType → Nat
  | type1 => 6
  | type2 => 4

/-- The name of the arrangement in error texts. -/
def name : DmrsType → String
  | type1 => "Type1"
  | type2 => "Type2"

end DmrsType

/-- What distinguishes the reference symbols of a layer. -/
structure DmrsWeights where
  /-- Offset of its subcarriers. -/
  offset : Nat
  /-- Factor of the even symbols. -/
  even : Float32
  /-- Factor of the odd symbols. -/
  odd : Float32
deriving DecidableEq

namespace DmrsWeights

/-- The weights of the first four layers. -/
def ofLayer : Nat → Checked DmrsWeights
  | 0 => .ok ⟨0, 1, 1⟩
  | 1 => .ok ⟨0, 1, -1⟩
  | 2 => .ok ⟨1, 1, 1⟩
  | 3 => .ok ⟨1, 1, -1⟩
  | layer => .error (.requirement s!"Invalid DMRS port {layer} for Type1")

/-- The factor of symbol `j` of a block. -/
def factor (weights : DmrsWeights) (j : Nat) : Float32 :=
  if j % 2 = 0 then weights.even else weights.odd

end DmrsWeights

namespace Dmrs

/-- The seed of the reference symbols of a symbol. -/
def seed (slot : Nat) (symbol symbolsPerSlot : Nat) (identity : UInt16) (second : Bool) :
    Checked UInt32 := do
  let id := 2 * identity.toNat
  let product := 0x20000 * (symbolsPerSlot * slot + symbol + 1) * (id + 1)
  let value ← Size.ofNat (product + id + if second then 1 else 0)
  return (value % 0x80000000).toUInt32

/-- What has been taken of a sequence: the values, the next block, and the position. -/
abbrev Taken := Array Complex × Nat × GoldSequence

/-- Take the values of block `block`, and pass over those of the blocks before it. -/
def takeBlock (perBlock : Nat) (amplitude : Float32) (taken : Taken) (block : Nat) :
    Checked Taken := do
  let (values, current, g) := taken
  let passed ← Size.mul (← Size.mul (block - current) perBlock) 2
  let (values, g) := (g.skip passed).qpsk amplitude perBlock values
  return (values, block + 1, g)

/-- The blocks of a mask, in increasing order. -/
def allocated (mask : Array Bool) : List Nat := (List.range mask.size).filter (mask.getD · false)

/-- The values of the allocated blocks. -/
def sequence (g : GoldSequence) (mask : Array Bool) (perBlock : Nat) (amplitude : Float32) :
    Checked (Array Complex × GoldSequence) := do
  let blocks := allocated mask
  let _ ← Size.cells 8 [blocks.length * perBlock]
  let (values, _, g) ← blocks.foldlM (takeBlock perBlock amplitude) (#[], 0, g)
  return (values, g)

/-- The reference symbols of a layer. -/
def weigh (values : Array Complex) (weights : DmrsWeights) : Array Complex :=
  values.mapIdx fun i value => value.scale (weights.factor i)

/-- The power of reference signals over data in decibels, by the groups of subcarriers that are kept
free of data. -/
def boost : (freeGroups : Nat) → Checked Float32
  | 1 => .ok 0
  | 2 => .ok 3
  | 3 => .ok 4.77
  | n => .error (.requirement s!"Invalid number of CDM groups without data: {n}")

end Dmrs

/-- The reference signals of a transmission. -/
structure ReferenceSignal where
  slot : SlotPoint
  cyclicPrefix : CyclicPrefix
  dmrsType : DmrsType
  identity : UInt16
  /-- Which of the two sequences of the identity is sent. -/
  second : Bool
  /-- Amplitude relative to the data. -/
  amplitude : Float32
deriving DecidableEq

namespace ReferenceSignal

/-- The square root of one half: the parts of a symbol with magnitude one. -/
def part : Float32 := .ofBits 0x3f3504f3

/-- The values of the allocated blocks on a symbol. -/
def onSymbol (r : ReferenceSignal) (mask : Array Bool) (symbol : Nat) :
    Checked (Array Complex) := do
  let seed ← Dmrs.seed r.slot.slot.toNat symbol r.cyclicPrefix.symbolsPerSlot r.identity r.second
  let (values, _) ←
    Dmrs.sequence (GoldSequence.ofSeed seed) mask r.dmrsType.perBlock (r.amplitude * part)
  return values

end ReferenceSignal

end Uplink
