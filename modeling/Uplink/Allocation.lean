import Uplink.Fault

/-!
# Frequency allocations

The resource blocks given to a transmission, counted from the start of its bandwidth part.

- `Allocation.count`: number of allocated blocks.
- `Allocation.fits`: whether the allocation is not empty and lies in the bandwidth part.
- `Allocation.blockMask`: the allocated blocks counted from the common block zero.
-/

namespace Uplink

/-- Resource blocks of a transmission, relative to the bandwidth part. -/
inductive Allocation where
  /-- `length` adjacent blocks from `start` on. -/
  | contiguous (start length : Nat)
  /-- The listed blocks. -/
  | listed (blocks : List Nat)
deriving DecidableEq, Repr

namespace Allocation

/-- Number of allocated blocks. -/
def count : Allocation → Nat
  | contiguous _ length => length
  | listed blocks => blocks.length

/-- The allocation holds a block and ends inside a bandwidth part of `bwpSize` blocks. -/
def fits (allocation : Allocation) (bwpSize : Nat) : Checked Bool :=
  match allocation with
  | contiguous start length =>
    if length = 0 then .ok false
    else do
      let stop ← Size.add start length
      return stop ≤ bwpSize
  | listed blocks => .ok (!blocks.isEmpty && blocks.all (· < bwpSize))

/-- The mask with one block marked. -/
def markBlock (bwpStart : Nat) (mask : Array Bool) (block : Nat) : Checked (Array Bool) := do
  let i ← Size.add bwpStart block
  Buffer.write mask i true

/-- Whether each block from the common block zero to the end of the bandwidth part is allocated. -/
def blockMask (allocation : Allocation) (bwpStart bwpSize : Nat) : Checked (Array Bool) := do
  let size ← Size.add bwpStart bwpSize
  let _ ← Size.cells 1 [size]
  match allocation with
  | contiguous start length =>
    let _ ← Size.add start length
    if length = 0 then
      return Array.replicate size false
    let first ← Size.add bwpStart start
    if first + length ≤ size then
      return Array.ofFn fun i : Fin size => decide (first ≤ i ∧ i < first + length)
    else
      throw .bounds
  | listed blocks =>
    blocks.foldlM (markBlock bwpStart) (Array.replicate size false)

/-- The text of an allocation. -/
def describe : Allocation → String
  | contiguous start length => s!"Contiguous \x7b start: {start}, len: {length} \x7d"
  | listed blocks => "List([" ++ ", ".intercalate (blocks.map Nat.repr) ++ "])"

end Allocation

end Uplink
