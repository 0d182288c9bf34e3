import Uplink.Harq.Buffer
import Uplink.Proofs.Checked

/-!
# Codeblocks of a combining buffer

- `block`: what is kept of codeblock `i`, with a read-over-write lemma for each operation.
- `HarqBuffer.all_passed_iff`: all flags at once.
-/

namespace Uplink

namespace StoredBlock

variable {b : StoredBlock} {softLength messageLength : Nat}

@[simp] theorem size_soft_fit : (b.fit softLength messageLength).soft.size = softLength := by
  rw [fit]
  split
  · assumption
  · simp

@[simp] theorem size_message_fit :
    (b.fit softLength messageLength).message.size = messageLength := by
  rw [fit]
  dsimp only
  split
  · assumption
  · simp

@[simp] theorem passed_fit : (b.fit softLength messageLength).passed = b.passed := rfl

end StoredBlock

namespace HarqBuffer

variable {b : HarqBuffer} {i j n : Nat} {x : StoredBlock}

/-- What is kept of codeblock `i`. -/
def block (b : HarqBuffer) (i : Nat) : StoredBlock := b.blocks.getD i StoredBlock.empty

@[simp] theorem block_ofCount : (ofCount n).block i = StoredBlock.empty := by
  rw [block, ofCount, Array.getD_eq_getD_getElem?, Array.getElem?_replicate]
  split <;> rfl

@[simp] theorem block_clearPassed : b.clearPassed.block i = { b.block i with passed := false } := by
  rw [block, block, clearPassed, Array.getD_eq_getD_getElem?, Array.getD_eq_getD_getElem?,
    Array.getElem?_map]
  cases b.blocks[i]? <;> rfl

theorem block_store_self (h : i < b.count) : (b.store i x).block i = x := by
  rw [block, store, Buffer.getD_setIfInBounds, if_pos ⟨rfl, h⟩]

theorem block_store_of_ne (h : i ≠ j) : (b.store i x).block j = b.block j := by
  rw [block, store, Buffer.getD_setIfInBounds, if_neg fun hij => h hij.1]
  rfl

/-- A buffer is what it keeps of its codeblocks, so two of one size that keep
the same are equal. -/
theorem ext_block {b' : HarqBuffer} (hcount : b.count = b'.count)
    (h : ∀ i < b.count, b.block i = b'.block i) : b = b' := by
  obtain ⟨blocks⟩ := b
  obtain ⟨blocks'⟩ := b'
  refine congrArg mk (Array.ext hcount fun i hi hi' => ?_)
  have hblock := h i hi
  rwa [block, block, Buffer.getD_of_lt hi, Buffer.getD_of_lt hi'] at hblock

/-- Storage can be borrowed of a reserved codeblock only. It comes at the
lengths that are asked for, and blank if it had others. -/
theorem borrow_eq_ok {softLength messageLength : Nat} :
    b.borrow i softLength messageLength = .ok x ↔
      i < b.count ∧ x = (b.block i).fit softLength messageLength := by
  rw [borrow, block, Array.getD_eq_getD_getElem?]
  by_cases h : i < b.blocks.size
  · simp [count, h, eq_comm]
  · simp [count, h]

/-- All flags at once, as the final verification looks at them. -/
theorem all_passed_iff : b.passed.all id = true ↔ ∀ i < b.count, (b.block i).passed = true := by
  rw [passed, Array.all_eq_true]
  simp only [Array.size_map, Array.getElem_map, id_eq]
  constructor
  · intro h i hi
    rw [block, Buffer.getD_of_lt hi]
    exact h i hi
  · intro h i hi
    have := h i hi
    rwa [block, Buffer.getD_of_lt hi] at this

end HarqBuffer

end Uplink
