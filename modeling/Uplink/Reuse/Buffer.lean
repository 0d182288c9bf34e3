import Uplink.ResourceGrid

/-!
# Buffers that are used again

A buffer that is kept between two uses is given a new length and written over. What it held before
is neither cleared nor read: it stays where nothing is written.

- `Buffer.resize`: a new length; what fits stays.
- `Buffer.overwriteEach`: pieces of one length, written behind each other.
- `ResourceGrid.readOver`: a row of the grid, read over the one before.
-/

namespace Uplink

namespace Buffer

universe u

variable {α : Type u}

/-- The buffer with `length` elements: cut off at its end, or extended with `value`. -/
def resize (buffer : Array α) (length : Nat) (value : α) : Array α :=
  buffer.extract 0 length ++ Array.replicate (length - buffer.size) value

/-- The buffer with pieces written from its start on, one every `length` elements. -/
def overwriteEach (buffer : Array α) (length : Nat) (pieces : List (Array α)) : Array α :=
  pieces.zipIdx.foldl (fun buffer x => overwrite buffer (x.2 * length) x.1) buffer

end Buffer

/-- The row with the elements of a port and symbol from the first subcarrier on, as many as it
holds. -/
def ResourceGrid.readOver (grid : ResourceGrid) (row : Array Complex) (port symbol : Nat) :
    Checked (Array Complex) := do
  return Buffer.overwrite row 0 (← grid.readRange row.size port symbol 0)

end Uplink
