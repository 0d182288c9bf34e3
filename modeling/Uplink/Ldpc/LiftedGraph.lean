import Uplink.Ldpc.BaseGraph
import Uplink.Bits

/-!
# Lifted graphs

At lifting size `z` every entry of a base graph becomes a `z` by `z` identity matrix, shifted by the
entry's value modulo `z`. Check `i` of a row meets variable `(i + shift) % z` of the column.

- `LiftedGraph`: a graph at a lifting size; its edges are those of its base graph by construction.
- `LiftedGraph.satisfiedBy`: every check of a word sums to zero.
- `GraphStore`: graphs that were built before, to be built once only.
-/

namespace Uplink

namespace Ldpc

/-- A shifted identity matrix of a lifted graph. -/
structure Edge where
  column : Nat
  shift : Nat
deriving DecidableEq, Repr, Inhabited

namespace Edge

/-- The variable that check `i` of the row meets. -/
def target (edge : Edge) (z i : Nat) : Nat := edge.column * z + (i + edge.shift) % z

end Edge

/-- The edges of every row of a base graph at a lifting size. -/
def liftRows (base : BaseGraph) (z set : Nat) : Array (Array Edge) :=
  ((base.matrix set).map fun row =>
    (row.map fun entry => (⟨entry.column, entry.value % z⟩ : Edge)).toArray).toArray

/-- A base graph at a lifting size. -/
structure LiftedGraph where
  base : BaseGraph
  liftingSize : Nat
  set : Nat
  rows : Array (Array Edge)
  set_eq : liftingSet liftingSize = .ok set
  rows_eq : rows = liftRows base liftingSize set

namespace LiftedGraph

/-- Build the graph of an admitted lifting size. -/
def build (base : BaseGraph) (z : Nat) : Checked LiftedGraph :=
  match h : liftingSet z with
  | .ok set => .ok ⟨base, z, set, liftRows base z set, h, rfl⟩
  | .error fault => .error fault

/-- The edges of a row. -/
def row (graph : LiftedGraph) (r : Nat) : Checked (Array Edge) := Buffer.read graph.rows r

/-- Number of shifted identity matrices. -/
def edgeCount (graph : LiftedGraph) : Nat := graph.rows.foldl (fun n row => n + row.size) 0

/-- Number of variables, the punctured ones included. -/
def variableCount (graph : LiftedGraph) : Nat := graph.base.columns * graph.liftingSize

/-- The sum of the variables that check `i` of a row meets, modulo two. -/
def checkSum (z : Nat) (row : Array Edge) (word : Bits) (i : Nat) : UInt8 :=
  row.foldl (fun sum edge => sum ^^^ word.getD (edge.target z i) 0) 0

/-- Every check of the word sums to zero. -/
def satisfiedBy (graph : LiftedGraph) (word : Bits) : Bool :=
  graph.rows.all fun row =>
    (List.range graph.liftingSize).all fun i => checkSum graph.liftingSize row word i == 0

/-- Whether a word with all variables is a codeword. -/
def accepts (graph : LiftedGraph) (word : Bits) : Checked Bool := do
  require (word.size == graph.variableCount) "assertion \x60left == right\x60 failed"
  return graph.satisfiedBy word

end LiftedGraph

/-- Graphs that were built before. -/
structure GraphStore where
  graphs : List LiftedGraph

namespace GraphStore

/-- Nothing was built yet. -/
def empty : GraphStore := ⟨[]⟩

/-- The graph of a lifting size, built if it is not in the store yet. -/
def fetch (store : GraphStore) (base : BaseGraph) (z : Nat) : Checked (LiftedGraph × GraphStore) :=
  match store.graphs.find? fun graph => graph.base = base ∧ graph.liftingSize = z with
  | some graph => .ok (graph, store)
  | none => do
    let graph ← LiftedGraph.build base z
    return (graph, ⟨graph :: store.graphs⟩)

end GraphStore

end Ldpc

end Uplink
