import Uplink.Fault

/-!
# Base graphs

A low-density parity-check code is described by a small matrix, the base graph, each entry of which
stands for a shifted identity matrix. Systematic columns come first, the first two of them are never
sent; four core rows form a staircase on the first parity columns, and each further row adds one
parity column of its own.

- `BaseGraph`: the two graphs with their dimensions.
- `liftingSizes`, `liftingSet`: the admitted sizes of the shifted matrices, and the family of a
  size.
- `BaseGraph.matrixRow`: the entries of a row, in increasing order of columns.
-/

namespace Uplink

namespace Ldpc

/-- A base graph. -/
inductive BaseGraph where
  /-- For long blocks. -/
  | one
  /-- For short blocks. -/
  | two
deriving DecidableEq, Repr

/-- Systematic columns that are never sent. -/
def puncturedColumns : Nat := 2

/-- Rows of the staircase. -/
def coreRows : Nat := 4

namespace BaseGraph

/-- Number of systematic columns. -/
def systematicColumns : BaseGraph → Nat
  | one => 22
  | two => 10

/-- Number of rows, which is the number of parity columns. -/
def rows : BaseGraph → Nat
  | one => 46
  | two => 42

/-- Number of columns. -/
def columns (g : BaseGraph) : Nat := g.systematicColumns + g.rows

/-- The sent bits are this many times the message bits. -/
def inverseRate : BaseGraph → Nat
  | one => 3
  | two => 5

/-- The longest message. -/
def maxMessageLength : BaseGraph → Nat
  | one => 8448
  | two => 3840

/-- Message bits at a lifting size. -/
def messageLength (g : BaseGraph) (z : Nat) : Nat := g.systematicColumns * z

/-- Sent bits at a lifting size. -/
def sentLength (g : BaseGraph) (z : Nat) : Nat := (g.columns - puncturedColumns) * z

/-- Sent bits are a whole multiple of the message bits. -/
theorem sentLength_eq (g : BaseGraph) (z : Nat) :
    g.sentLength z = g.inverseRate * g.messageLength z := by
  cases g <;> simp [sentLength, messageLength, columns, systematicColumns, rows, inverseRate,
    puncturedColumns, ← Nat.mul_assoc]

end BaseGraph

/-! ## Lifting sizes -/

/-- The admitted sizes, in increasing order. -/
def liftingSizes : List Nat :=
  [2, 3, 4, 5, 6, 7, 8, 9, 10, 11, 12, 13, 14, 15, 16, 18, 20, 22, 24, 26, 28, 30, 32, 36, 40, 44,
    48, 52, 56, 60, 64, 72, 80, 88, 96, 104, 112, 120, 128, 144, 160, 176, 192, 208, 224, 240, 256,
    288, 320, 352, 384]

/-- The numbers whose doublings are the lifting sizes; their places number the families. -/
def liftingGenerators : List Nat := [2, 3, 5, 7, 9, 11, 13, 15]

/-- The size is a generator doubled at most seven times. -/
def isDoublingOf (z generator : Nat) : Bool :=
  (List.range 8).any fun j => generator * Nat.pow 2 j == z

/-- The family of a lifting size. -/
def liftingSet (z : Nat) : Checked Nat := do
  require (liftingSizes.contains z) s!"Invalid lifting size {z}"
  return liftingGenerators.findIdx (isDoublingOf z)

/-! ## Entries -/

/-- An entry of the base graph: its column and the shift before lifting. -/
structure Entry where
  column : Nat
  value : Nat
deriving DecidableEq, Repr

/-- Mix the bits of a word: two rounds of folding the high half and multiplying. -/
def mixBits (x : UInt64) : UInt64 :=
  let x := x ^^^ (x >>> 33)
  let x := x * 0xFF51AFD7ED558CCD
  let x := x ^^^ (x >>> 33)
  let x := x * 0xC4CEB9FE1A85EC53
  x ^^^ (x >>> 33)

namespace BaseGraph

/-- Starting word of the shifts of a graph. -/
def seed : BaseGraph → UInt64
  | one => 0x9E3779B97F4A7C15
  | two => 0xC2B2AE3D27D4EB4F

/-- The shift at a row and column for a family of lifting sizes, below 384. -/
def shiftValue (g : BaseGraph) (set row column : Nat) : Nat :=
  let word := g.seed ^^^ (set.toUInt64 <<< 48) ^^^ (row.toUInt64 <<< 32) ^^^ column.toUInt64
  (mixBits word % 384).toNat

/-- The shift of a parity column on the diagonal is zero. -/
def diagonal (column : Nat) : Entry := ⟨column, 0⟩

/-- A core row meets three of four systematic columns, one punctured column, its own parity column
and the one before it. -/
def coreConnected (row column : Nat) : Bool :=
  match column with
  | 0 => row % 2 == 0
  | 1 => row % 2 == 1
  | _ => (column + row) % 4 != 0

/-- An extension row meets a scattered quarter of the systematic columns and two fixed ones. -/
def extensionConnected (g : BaseGraph) (row column : Nat) : Bool :=
  g.shiftValue 0 row (column + 1000) % 4 == 0
    || column == row % g.systematicColumns
    || column == (row * 7 + 3) % g.systematicColumns

/-- The row has an entry in a systematic column. -/
def connected (g : BaseGraph) (row column : Nat) : Bool :=
  if row < coreRows then coreConnected row column else g.extensionConnected row column

/-- The systematic entries of a row. -/
def systematicEntries (g : BaseGraph) (set row : Nat) : List Entry :=
  ((List.range g.systematicColumns).filter (g.connected row)).map
    fun column => ⟨column, g.shiftValue set row column⟩

/-- The parity entries of a row, its own column last. -/
def parityEntries (g : BaseGraph) (set row : Nat) : List Entry :=
  let first := g.systematicColumns
  if row < coreRows then
    (if row = 0 then [] else [diagonal (first + row - 1)]) ++ [diagonal (first + row)]
  else
    let core := first + row % 4
    [⟨core, g.shiftValue set row core⟩, diagonal (first + row)]

/-- The entries of a row, in increasing order of columns. -/
def matrixRow (g : BaseGraph) (set row : Nat) : List Entry :=
  g.systematicEntries set row ++ g.parityEntries set row

/-- All rows of the base graph. -/
def matrix (g : BaseGraph) (set : Nat) : List (List Entry) :=
  (List.range g.rows).map (g.matrixRow set)

end BaseGraph

end Ldpc

end Uplink
