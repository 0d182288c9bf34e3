import Uplink.Complex

/-!
# Equalization

One resource element as all ports received it, resolved into the symbols of the layers. A single
layer is combined over the ports with the conjugate channel; several layers are separated by the
inverse of the channel's Gram matrix. A channel that cannot be inverted gives zeros with infinite
noise.

- `ComplexMatrix.invert`: the inverse by elimination, the largest pivot first.
- `Equalizer.combine`, `Equalizer.separate`, `Equalizer.equalize`.
-/

namespace Uplink

/-- A symbol after equalization, with its noise variance. -/
structure Equalized where
  symbol : Complex
  noise : Float32
deriving DecidableEq, Inhabited

namespace Equalized

/-- A symbol of which nothing is known. -/
def erased : Equalized := ⟨Complex.zero, Single.infinity⟩

end Equalized

/-! ## Matrices -/

/-- A matrix by its rows. -/
structure ComplexMatrix where
  rows : Array (Array Complex)
deriving DecidableEq

namespace ComplexMatrix

/-- The entry in a row and column. -/
def entry (m : ComplexMatrix) (row column : Nat) : Complex :=
  (m.rows.getD row #[]).getD column Complex.zero

/-- The matrix with the given entries. -/
def tabulate (rows columns : Nat) (entries : Nat → Nat → Complex) : ComplexMatrix :=
  ⟨Array.ofFn fun i : Fin rows => Array.ofFn fun j : Fin columns => entries i j⟩

/-- A square matrix of size `n` with the unit matrix at its right. -/
def augment (m : ComplexMatrix) (n : Nat) : ComplexMatrix :=
  tabulate n (2 * n) fun i j =>
    if j < n then m.entry i j else if j - n = i then Complex.one else Complex.zero

/-- The least squared magnitude of a pivot. -/
def leastPivot : Float32 := 1e-12

/-- The row from `column` on with the largest entry in that column, the last one of equals. -/
def pivotRow (m : ComplexMatrix) (n column : Nat) : Nat :=
  (List.range' column (n - column)).foldl
    (fun best row =>
      if Single.totalOrderKey (m.entry best column).normSqr
          ≤ Single.totalOrderKey (m.entry row column).normSqr then row else best)
    column

/-- Subtract the multiple of a pivot row that clears a row's entry in a column. -/
def clearEntry (pivot : Array Complex) (column : Nat) (row : Array Complex) : Array Complex :=
  let factor := row.getD column Complex.zero
  if factor.re == 0 && factor.im == 0 then row
  else row.zipWith (fun x p => x - factor * p) pivot

/-- Make a column a unit column, if it has a pivot. -/
def eliminate (n : Nat) (m : ComplexMatrix) (column : Nat) : Option ComplexMatrix :=
  let best := m.pivotRow n column
  if (m.entry best column).normSqr < leastPivot then none
  else
    let m : ComplexMatrix := ⟨m.rows.swapIfInBounds column best⟩
    let scale := (m.entry column column).inv
    let pivot := (m.rows.getD column #[]).map (· * scale)
    some ⟨m.rows.mapIdx fun i row => if i = column then pivot else clearEntry pivot column row⟩

/-- The inverse of a square matrix of size `n`; none if it has no inverse. -/
def invert (m : ComplexMatrix) (n : Nat) : Option ComplexMatrix := do
  let reduced ← (List.range n).foldlM (eliminate n) (m.augment n)
  return ⟨reduced.rows.map (·.extract n (2 * n))⟩

end ComplexMatrix

/-! ## Symbols -/

namespace Equalizer

/-- The single layer of an element: `channel` holds its coefficient on every port. -/
def combine (received channel : Array Complex) (noise : Array Float32) : Equalized :=
  let gains := channel.map Complex.normSqr
  let gain := Single.sum gains
  if gain ≤ 0 then Equalized.erased
  else
    let combined := Complex.sum (channel.zipWith (fun h y => h.conj * y) received)
    let total := Single.sum (gains.zipWith (· * ·) noise)
    ⟨combined.divReal gain, total / (gain * gain)⟩

/-- The layers of an element: `channel` holds the coefficients of every layer on every port. -/
def separate (layers : Nat) (received : Array Complex) (channel : ComplexMatrix)
    (noise : Array Float32) : Array Equalized :=
  let product (i : Nat) (values : Nat → Complex) : Complex :=
    Complex.sum ((Array.range received.size).map fun p => (channel.entry p i).conj * values p)
  let gram := ComplexMatrix.tabulate layers layers fun i j => product i (channel.entry · j)
  let matched := (Array.range layers).map fun i => product i (received.getD · Complex.zero)
  let mean := Single.sum noise / Single.ofNat received.size
  match gram.invert layers with
  | some inverse =>
    inverse.rows.mapIdx fun i row =>
      ⟨Complex.sum (row.zipWith (· * ·) matched), mean * (row.getD i Complex.zero).re⟩
  | none => Array.replicate layers Equalized.erased

/-- The symbols of an element's layers. -/
def equalize (layers : Nat) (received : Array Complex) (channel : ComplexMatrix)
    (noise : Array Float32) : Array Equalized :=
  if layers = 1 then #[combine received (channel.rows.map (·.getD 0 Complex.zero)) noise]
  else separate layers received channel noise

end Equalizer

end Uplink
