import Mathlib.Data.List.Dedup
import Mathlib.Data.List.Nodup
import Mathlib.Data.List.Perm.Basic
import Uplink.Allocation
import Uplink.Dmrs
import Uplink.Proofs.Checked

/-!
# Masks of allocations

- `Allocation.blocks`: the allocated blocks as a list; `fits_eq_ok` says where they lie.
- `Allocation.exists_blockMask`: an allocation in its bandwidth part has a mask, which marks its
  blocks and no others.
- `Allocation.length_allocated_eq_dedup`, `length_allocated_eq_count_iff`: as many blocks are marked
  as different ones are allocated, which are all of them if none is listed twice.
-/

namespace Uplink

namespace Allocation

variable {a : Allocation} {bwpStart bwpSize : Nat}

/-- The allocated blocks, relative to the bandwidth part. -/
def blocks : Allocation → List Nat
  | contiguous start length => List.range' start length
  | listed blocks => blocks

/-- The count of an allocation counts a repeated block again. -/
theorem length_blocks (a : Allocation) : a.blocks.length = a.count := by
  cases a with
  | contiguous start length => exact List.length_range'
  | listed blocks => rfl

/-- A mask marks the listed blocks of the bandwidth part and no others. -/
def Marks (bwpStart : Nat) (blocks : List Nat) (mask : Array Bool) : Prop :=
  ∀ k, mask.getD k false = true ↔ ∃ b ∈ blocks, bwpStart + b = k

theorem marks_nil (bwpStart size : Nat) : Marks bwpStart [] (Array.replicate size false) := by
  intro k
  rw [Array.getD_eq_getD_getElem?, Array.getElem?_replicate]
  split <;> simp

/-- Marking one more block adds it to the listed ones. -/
theorem Marks.insert {blocks : List Nat} {mask : Array Bool} {b : Nat}
    (h : Marks bwpStart blocks mask) (hb : bwpStart + b < mask.size) :
    Marks bwpStart (blocks ++ [b]) (mask.setIfInBounds (bwpStart + b) true) := by
  intro k
  simp only [Buffer.getD_setIfInBounds, List.mem_append, List.mem_singleton, or_and_right,
    exists_or, exists_eq_left, ← h k]
  by_cases hk : bwpStart + b = k
  · simp [hk, hk ▸ hb]
  · simp [hk]

/-- An allocation that fits is not empty and ends in the bandwidth part. No sum
on the way overflows. -/
theorem fits_eq_ok (h : a.fits bwpSize = .ok true) :
    a.blocks ≠ [] ∧ ∀ b ∈ a.blocks, b < bwpSize := by
  cases a with
  | contiguous start length =>
    unfold fits at h
    dsimp only at h
    split at h
    case isTrue => cases h
    case isFalse hlength =>
      obtain ⟨stop, hstop, hle⟩ := bind_eq_ok.mp h
      obtain ⟨-, rfl⟩ := Size.add_eq_ok.mp hstop
      have hle : start + length ≤ bwpSize := of_decide_eq_true (Except.ok.inj hle)
      refine ⟨fun hnil => hlength (List.range'_eq_nil_iff.mp hnil), fun b hb => ?_⟩
      have := List.mem_range'_1.mp hb
      omega
  | listed blocks =>
    have h : (!blocks.isEmpty && blocks.all (· < bwpSize)) = true := Except.ok.inj h
    rw [Bool.and_eq_true, List.all_eq_true] at h
    refine ⟨fun hnil => ?_, fun b hb => of_decide_eq_true (h.2 b hb)⟩
    have hnil : blocks = [] := hnil
    rw [hnil] at h
    exact Bool.noConfusion h.1

/-- An allocation that fits has a mask, in which its blocks are marked, listed
ones as well as a range. -/
theorem exists_blockMask (hsize : bwpStart + bwpSize < Size.signedLimit)
    (h : a.fits bwpSize = .ok true) :
    ∃ mask, a.blockMask bwpStart bwpSize = .ok mask ∧ mask.size = bwpStart + bwpSize ∧
      Marks bwpStart a.blocks mask := by
  obtain ⟨hne, hlt⟩ := fits_eq_ok h
  have hlimit : Size.signedLimit < Size.limit := by decide
  have hone : 1 < Size.signedLimit := by decide
  have hcells : Size.cells 1 [bwpStart + bwpSize] = .ok (bwpStart + bwpSize) :=
    Size.cells_of_lt Nat.one_pos (by omega)
  rw [blockMask, Size.add_of_lt (by omega), ok_bind, hcells, ok_bind]
  cases a with
  | contiguous start length =>
    have hlength : length ≠ 0 := fun hzero => hne (by rw [hzero]; rfl)
    have hlast := hlt (start + length - 1) (List.mem_range'_1.mpr (by omega))
    dsimp only
    rw [Size.add_of_lt (by omega), ok_bind, if_neg hlength, Size.add_of_lt (by omega), ok_bind,
      if_pos (by omega)]
    refine ⟨_, rfl, Array.size_ofFn, fun k => ?_⟩
    rw [Array.getD_eq_getD_getElem?, Array.getElem?_ofFn]
    constructor
    · intro hk
      split at hk
      case isTrue =>
        have hk : bwpStart + start ≤ k ∧ k < bwpStart + start + length := of_decide_eq_true hk
        exact ⟨k - bwpStart, List.mem_range'_1.mpr (by omega), by omega⟩
      case isFalse => cases hk
    · rintro ⟨b, hb, rfl⟩
      have hb := List.mem_range'_1.mp hb
      rw [dif_pos (by omega)]
      exact decide_eq_true (by dsimp only; omega)
  -- listed blocks are marked one after the other
  | listed blocks =>
    dsimp only
    have hlt : ∀ b ∈ blocks, b < bwpSize := hlt
    obtain ⟨mask, hmask, hsize, hmarks⟩ := foldlM_total (f := markBlock bwpStart) (l := blocks)
      (b := Array.replicate (bwpStart + bwpSize) false)
      (fun seen mask => mask.size = bwpStart + bwpSize ∧ Marks bwpStart seen mask)
      ⟨Array.size_replicate, marks_nil _ _⟩ (by
        rintro seen b rest mask rfl ⟨hmask, hmarks⟩
        have hb := hlt b (by simp)
        rw [markBlock, Size.add_of_lt (by omega), ok_bind, Buffer.write_of_lt (by omega)]
        exact ⟨_, rfl, (Array.size_setIfInBounds ..).trans hmask, hmarks.insert (by omega)⟩)
    exact ⟨mask, hmask, hsize, hmarks⟩

/-- As many blocks are marked as different ones are allocated, since marking a
block twice changes nothing. -/
theorem length_allocated_eq_dedup {mask : Array Bool} (h : Marks bwpStart a.blocks mask) :
    (Dmrs.allocated mask).length = a.blocks.dedup.length := by
  have hlength : (a.blocks.dedup.map (bwpStart + ·)).length = a.blocks.dedup.length :=
    List.length_map _
  rw [← hlength]
  refine List.Perm.length_eq ((List.perm_ext_iff_of_nodup ?_ ?_).mpr fun k => ?_)
  · exact List.nodup_range.filter _
  · exact a.blocks.nodup_dedup.map fun b b' hb => Nat.add_left_cancel hb
  · simp only [Dmrs.allocated, List.mem_filter, List.mem_map, List.mem_dedup, ← h k,
      List.mem_range, and_iff_right_iff_imp]
    intro hk
    by_contra hsize
    rw [Array.getD_eq_getD_getElem?, Array.getElem?_eq_none (by omega)] at hk
    cases hk

/-- As many blocks are marked as are allocated exactly if none is listed twice.
-/
theorem length_allocated_eq_count_iff {mask : Array Bool} (h : Marks bwpStart a.blocks mask) :
    (Dmrs.allocated mask).length = a.count ↔ a.blocks.Nodup := by
  rw [length_allocated_eq_dedup h, ← a.length_blocks, ← List.dedup_eq_self]
  exact a.blocks.dedup_sublist.length_eq

/-- As many blocks are marked as are allocated, which budgets, placement and
demodulation rely on. -/
theorem length_allocated {mask : Array Bool} (h : Marks bwpStart a.blocks mask)
    (hnodup : a.blocks.Nodup) : (Dmrs.allocated mask).length = a.count :=
  (length_allocated_eq_count_iff h).mpr hnodup

theorem nodup_blocks (h : ∀ blocks, a = .listed blocks → blocks.Nodup) : a.blocks.Nodup := by
  cases a with
  | contiguous start length => exact List.nodup_range'
  | listed blocks => exact h blocks rfl

end Allocation

end Uplink
