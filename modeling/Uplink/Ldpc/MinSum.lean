import Uplink.Ldpc.LiftedGraph
import Uplink.Crc
import Uplink.SoftBit

/-!
# Min-sum decoding

Layered message passing on a lifted graph. Every variable has an a-posteriori value, positive for a
zero bit; every edge of a check has a message to its variable. A sweep visits the checks row by row:
a check takes its old messages out of its variables, finds new ones, and puts them in.

- `CheckNode.messages`: the new messages of a check: the least magnitude among the *other* edges,
  scaled, with the sign of their product.
- `Workspace.updateCheck`, `Workspace.sweep`: one check, and all of them in order.
- `Decoder.decode`: with a check of the message the decoder stops at the first sweep whose
  decisions pass; without one it makes all sweeps and then requires a codeword. A message variable
  without any knowledge never passes.
-/

namespace Uplink

namespace Ldpc

/-! ## Check nodes -/

namespace CheckNode

/-- What one pass over the incoming values of a check finds. -/
structure Minima where
  /-- The least magnitude. -/
  least : Float32
  /-- The least magnitude among the other edges of `place`. -/
  second : Float32
  /-- The edge with the least magnitude. -/
  place : Nat
  /-- Whether an odd number of values is negative. -/
  negative : Bool

namespace Minima

/-- Before the first value. -/
def start : Minima := ⟨Single.infinity, Single.infinity, 0, false⟩

/-- Take in the value of edge `e`. -/
def absorb (m : Minima) (e : Nat) (q : Float32) : Minima :=
  let magnitude := q.abs
  let negative := m.negative != decide (q < 0)
  if magnitude < m.least then ⟨magnitude, m.least, e, negative⟩
  else if magnitude < m.second then ⟨m.least, magnitude, m.place, negative⟩
  else { m with negative }

/-- The message to edge `e`, whose own value is `q`. -/
def message (m : Minima) (scale : Float32) (e : Nat) (q : Float32) : Float32 :=
  let magnitude := scale * (if e = m.place then m.second else m.least)
  if m.negative != decide (q < 0) then -magnitude else magnitude

end Minima

/-- One pass over all incoming values. -/
def minima (incoming : Array Float32) : Minima :=
  (incoming.foldl (fun (m, e) q => (Minima.absorb m e q, e + 1)) (Minima.start, 0)).1

/-- The messages of a check to all its edges. -/
def messages (scale : Float32) (incoming : Array Float32) : Array Float32 :=
  let m := minima incoming
  incoming.mapIdx fun e q => m.message scale e q

end CheckNode

/-! ## Sweeps -/

/-- The state of message passing on a graph. -/
structure Workspace where
  /-- A-posteriori value of each variable. -/
  posterior : Array Float32
  /-- Message on each edge of each check: edge by edge in row order, check by check. -/
  messages : Array Float32

namespace Workspace

/-- No variables and no edges. -/
def empty : Workspace := ⟨#[], #[]⟩

/-- The value given to a soft bit: a certain one has a magnitude out of reach of the others. -/
def channelValue (a : SoftBit) : Float32 :=
  if a.isCertain then Single.withSignOf 10000 a.toSingle else a.toSingle

/-- The start: punctured variables and messages are zero, sent variables have their soft bits. -/
def load (graph : LiftedGraph) (input : Array SoftBit) : Workspace :=
  let z := graph.liftingSize
  ⟨Array.replicate (puncturedColumns * z) 0 ++ input.map channelValue,
    Array.replicate (graph.edgeCount * z) 0⟩

/-- Visit check `i` of a row whose first edge has number `firstEdge`. -/
def updateCheck (z : Nat) (scale : Float32) (row : Array Edge) (firstEdge : Nat) (w : Workspace)
    (i : Nat) : Workspace :=
  let incoming := row.mapIdx fun e edge =>
    w.posterior.getD (edge.target z i) 0 - w.messages.getD ((firstEdge + e) * z + i) 0
  let outgoing := CheckNode.messages scale incoming
  (List.range row.size).foldl
    (fun ⟨posterior, messages⟩ e =>
      let message := outgoing.getD e 0
      ⟨posterior.setIfInBounds ((row.getD e default).target z i) (incoming.getD e 0 + message),
        messages.setIfInBounds ((firstEdge + e) * z + i) message⟩)
    w

/-- Visit all checks of a row. -/
def updateRow (z : Nat) (scale : Float32) (row : Array Edge) (firstEdge : Nat) (w : Workspace) :
    Workspace :=
  (List.range z).foldl (updateCheck z scale row firstEdge) w

/-- Visit all checks, row by row. -/
def sweep (graph : LiftedGraph) (scale : Float32) (w : Workspace) : Workspace :=
  (graph.rows.foldl
    (fun (w, firstEdge) row =>
      (updateRow graph.liftingSize scale row firstEdge w, firstEdge + row.size))
    (w, 0)).1

/-- The decisions on the first `n` variables. -/
def decisions (w : Workspace) (n : Nat) : Bits :=
  (w.posterior.extract 0 n).map fun x => if x < 0 then 1 else 0

/-- Each of the first `n` variables leans to one side. -/
def determined (w : Workspace) (n : Nat) : Bool :=
  (w.posterior.extract 0 n).all fun x => x != 0

/-- The first `n` variables are determined and their decisions have the check zero. -/
def passes (w : Workspace) (crc : Crc) (n : Nat) : Bool :=
  crc.ofBits (w.decisions n) == 0 && w.determined n

/-- Sweep until the first `n` variables pass, at most `budget` times; the count of sweeps made
before is `made`. -/
def sweepUntil (graph : LiftedGraph) (scale : Float32) (crc : Crc) (n : Nat) :
    (budget made : Nat) → Workspace → Option Nat × Workspace
  | 0, _, w => (none, w)
  | budget + 1, made, w =>
    let w := w.sweep graph scale
    if w.passes crc n then (some (made + 1), w)
    else sweepUntil graph scale crc n budget (made + 1) w

/-- Sweep `budget` times. -/
def sweepAll (graph : LiftedGraph) (scale : Float32) : (budget : Nat) → Workspace → Workspace
  | 0, w => w
  | budget + 1, w => sweepAll graph scale budget (w.sweep graph scale)

end Workspace

/-! ## Decoding -/

/-- What a codeblock decoder is told beside the soft bits. -/
structure DecoderSettings where
  base : BaseGraph
  liftingSize : Nat
  /-- Bits at the end of the message that are known to be zero. -/
  fillers : Nat
  /-- Largest number of sweeps. -/
  iterations : Nat
  /-- Factor of every message. -/
  scale : Float32

/-- A decoder, with what its last codeblock left behind. -/
structure Decoder where
  store : GraphStore
  workspace : Workspace

/-- The decision on a codeblock. -/
structure Decision where
  /-- The number of sweeps, if the block was accepted. -/
  iterations : Option Nat
  /-- The decided message, accepted or not. -/
  message : Bits
deriving DecidableEq

namespace Decoder

/-- A decoder that has decoded nothing yet. -/
def fresh : Decoder := ⟨GraphStore.empty, Workspace.empty⟩

/-- Decode one codeblock from its sent soft bits into `outputLength` message bits. -/
def decode (decoder : Decoder) (settings : DecoderSettings) (crc : Option Crc)
    (input : Array SoftBit) (outputLength : Nat) : Checked (Decision × Decoder) := do
  let base := settings.base
  let z := settings.liftingSize
  let messageLength ← Size.mul base.systematicColumns z
  require (input.size == (← Size.ofNat (base.sentLength z))) "Decoder input must hold N soft bits"
  require (outputLength == messageLength) "Decoder output must hold K bits"
  require (0 < settings.iterations) "At least one iteration is required"
  let (graph, store) ← decoder.store.fetch base z
  let significant ← Size.sub messageLength settings.fillers
  let start := Workspace.load graph input
  match crc with
  | some crc =>
    let (passed, w) :=
      start.sweepUntil graph settings.scale crc significant settings.iterations 0
    return (⟨passed, w.decisions messageLength⟩, ⟨store, w⟩)
  | none =>
    let w := start.sweepAll graph settings.scale settings.iterations
    let accepted := graph.satisfiedBy (w.decisions graph.variableCount) && w.determined significant
    return (⟨if accepted then some settings.iterations else none, w.decisions messageLength⟩,
      ⟨store, w⟩)

end Decoder

end Ldpc

end Uplink
