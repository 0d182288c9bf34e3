import Uplink.SoftBit

/-!
# Combining buffers

What the receiver keeps of a transport block between its transmissions: for every codeblock the
combined soft bits, the last decided message, and whether that message passed its check.

- `HarqBuffer.ofCount`, `HarqBuffer.clearPassed`: a new buffer, and one without passed codeblocks.
- `HarqBuffer.borrow`: a codeblock's storage at given lengths; storage of another length is replaced
  by zeros.
-/

namespace Uplink

/-- What is kept of one codeblock. -/
structure StoredBlock where
  soft : Array SoftBit
  message : Bits
  passed : Bool
deriving DecidableEq, Inhabited

namespace StoredBlock

/-- Nothing is kept. -/
def empty : StoredBlock := ⟨#[], #[], false⟩

/-- The storage at the given lengths; each part of another length is replaced by zeros. -/
def fit (b : StoredBlock) (softLength messageLength : Nat) : StoredBlock :=
  { b with
    soft := if b.soft.size = softLength then b.soft else Array.replicate softLength SoftBit.erased
    message :=
      if b.message.size = messageLength then b.message else Array.replicate messageLength 0 }

end StoredBlock

/-- What is kept of a transport block. -/
structure HarqBuffer where
  blocks : Array StoredBlock
deriving DecidableEq, Inhabited

namespace HarqBuffer

/-- A new buffer for `n` codeblocks. -/
def ofCount (n : Nat) : HarqBuffer := ⟨Array.replicate n StoredBlock.empty⟩

/-- Number of codeblocks. -/
def count (b : HarqBuffer) : Nat := b.blocks.size

/-- Whether each codeblock passed its check. -/
def passed (b : HarqBuffer) : Array Bool := b.blocks.map (·.passed)

/-- The buffer with no codeblock passed. -/
def clearPassed (b : HarqBuffer) : HarqBuffer :=
  ⟨b.blocks.map fun block => { block with passed := false }⟩

/-- The storage of codeblock `i` at the given lengths. -/
def borrow (b : HarqBuffer) (i softLength messageLength : Nat) : Checked StoredBlock :=
  match b.blocks[i]? with
  | some block => .ok (block.fit softLength messageLength)
  | none =>
    .error (.requirement s!"Codeblock index {i} exceeds the {b.count} reserved codeblocks")

/-- The buffer with the storage of codeblock `i` replaced. -/
def store (b : HarqBuffer) (i : Nat) (block : StoredBlock) : HarqBuffer :=
  ⟨b.blocks.setIfInBounds i block⟩

@[simp] theorem count_ofCount (n : Nat) : (ofCount n).count = n := by simp [count, ofCount]

@[simp] theorem count_clearPassed (b : HarqBuffer) : b.clearPassed.count = b.count := by
  simp [count, clearPassed]

@[simp] theorem count_store (b : HarqBuffer) (i : Nat) (block : StoredBlock) :
    (b.store i block).count = b.count := by
  simp [count, store]

end HarqBuffer

end Uplink
