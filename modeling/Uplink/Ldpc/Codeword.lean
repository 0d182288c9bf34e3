import Uplink.Ldpc.LiftedGraph

/-!
# Codewords

The encoder appends the parity bits of one row after the other: the own parity column of a row is
its last one, so its bits are the sums of the row's other variables, all of which are known by then.
The first two columns of the finished word are not sent.

- `LiftedGraph.extend`: the word with the parity bits of one more row.
- `LiftedGraph.codeword`: the whole word of a message.
- `encode`, `encodeAll`: the sent part of the word, with the requirements on the lengths.
-/

namespace Uplink

namespace Ldpc

namespace LiftedGraph

/-- Append the parity bits of row `r`, the sums over its edges outside its own parity column. -/
def extend (graph : LiftedGraph) (word : Bits) (r : Nat) : Bits :=
  let parityColumn := graph.base.systematicColumns + r
  let others := (graph.rows.getD r #[]).filter (·.column != parityColumn)
  word ++ (Array.range graph.liftingSize).map (checkSum graph.liftingSize others word)

/-- The word of a message: the message, then the parity bits of every row. -/
def codeword (graph : LiftedGraph) (message : Bits) : Bits :=
  (List.range graph.base.rows).foldl graph.extend message

/-- The part of a word that is sent. -/
def sentPart (graph : LiftedGraph) (word : Bits) : Bits :=
  word.extract (puncturedColumns * graph.liftingSize) word.size

end LiftedGraph

/-- Encode a message into `outputLength` sent bits. -/
def encode (store : GraphStore) (base : BaseGraph) (z : Nat) (message : Bits) (outputLength : Nat) :
    Checked (Bits × GraphStore) := do
  require (message.size == (← Size.mul base.systematicColumns z)) "Message length must be Kb * Z"
  require (outputLength == (← Size.ofNat (base.sentLength z))) "Output length must be N"
  let (graph, store) ← store.fetch base z
  return (graph.sentPart (graph.codeword message), store)

/-- Encode a message into all bits that are sent. -/
def encodeAll (store : GraphStore) (base : BaseGraph) (z : Nat) (message : Bits) :
    Checked (Bits × GraphStore) := do
  encode store base z message (← Size.ofNat (base.sentLength z))

end Ldpc

end Uplink
