import Uplink.Demodulation
import Uplink.Proofs.Placement.Fields

/-!
# The data elements of a symbol

The demodulator finds the data elements of a symbol by a mask over its subcarriers, the placement by
their number. Both count the same.

- `filter_blocks`, `countP_blocks`: what recurs in every block of a mask.
- `DemodulationRequest.dataPlaces`, `elementsOn`: the data elements that the demodulator finds.
- `DemodulationRequest.elementsOn_eq`: they are those of the placement.
- `DemodulationRequest.sum_elementsOn`: the data elements of all symbols.
-/

namespace Uplink

/-- What recurs in every block is found once and taken for all blocks of a mask.
-/
theorem filter_blocks (mask recurs : Nat → Bool)
    (h : ∀ block k, recurs (block * subcarriersPerBlock + k) = recurs k) (n : Nat) :
    (List.range (n * subcarriersPerBlock)).filter
        (fun k => mask (k / subcarriersPerBlock) && recurs k) =
      ((List.range n).filter mask).flatMap fun block =>
        ((List.range subcarriersPerBlock).filter recurs).map (block * subcarriersPerBlock + ·) := by
  induction n with
  | zero => rw [Nat.zero_mul]; rfl
  | succ n ih =>
    have hblock : ∀ k ∈ List.range subcarriersPerBlock,
        (mask ((n * subcarriersPerBlock + k) / subcarriersPerBlock) &&
          recurs (n * subcarriersPerBlock + k)) = (mask n && recurs k) := by
      intro k hk
      have hk := List.mem_range.mp hk
      rw [h, Nat.mul_comm, Nat.mul_add_div (by decide), Nat.div_eq_of_lt hk, Nat.add_zero]
    rw [Nat.succ_mul, List.range_add, List.filter_append, ih, List.filter_map,
      List.filter_congr (p := _ ∘ _) hblock, List.range_succ, List.filter_append,
      List.flatMap_append, List.filter_singleton]
    cases hmask : mask n with
    | true => simp
    | false => simp

/-- It is counted once, too. -/
theorem countP_blocks (mask recurs : Nat → Bool)
    (h : ∀ block k, recurs (block * subcarriersPerBlock + k) = recurs k) (n : Nat) :
    (List.range (n * subcarriersPerBlock)).countP
        (fun k => mask (k / subcarriersPerBlock) && recurs k) =
      (List.range n).countP mask * (List.range subcarriersPerBlock).countP recurs := by
  rw [List.countP_eq_length_filter, filter_blocks mask recurs h, List.length_flatMap]
  simp only [List.length_map, List.map_const', List.sum_replicate, List.countP_eq_length_filter,
    smul_eq_mul]

/-- The free groups recur in every block, as a block has an even number of
subcarriers. -/
theorem decide_mod_two_blocks (freeGroups block k : Nat) :
    decide (freeGroups ≤ (block * subcarriersPerBlock + k) % 2) = decide (freeGroups ≤ k % 2) := by
  rw [subcarriersPerBlock, show (block * 12 + k) % 2 = k % 2 by omega]

namespace DemodulationRequest

theorem size_dataMask (q : DemodulationRequest) (onDmrs : Bool) :
    (q.dataMask onDmrs).size = q.blockMask.size * subcarriersPerBlock := Array.size_ofFn

theorem getD_dataMask (q : DemodulationRequest) (onDmrs : Bool) {k : Nat}
    (hk : k < q.blockMask.size * subcarriersPerBlock) :
    (q.dataMask onDmrs).getD k false =
      (q.blockMask.getD (k / subcarriersPerBlock) false &&
        (!onDmrs || decide (q.freeGroups ≤ k % 2))) := by
  rw [Array.getD_eq_getD_getElem?, dataMask, Array.getElem?_ofFn, dif_pos hk]
  rfl

/-- The places of the data on a symbol, as the mask of the receiver selects
them. -/
def dataPlaces (q : DemodulationRequest) (symbol : Nat) : List Nat :=
  let mask := q.dataMask (q.dmrsMask.contains symbol)
  (List.range mask.size).filter (mask.getD · false)

/-- Data elements that are found on a symbol. -/
def elementsOn (q : DemodulationRequest) (symbol : Nat) : Nat := (q.dataPlaces symbol).length

variable {q : DemodulationRequest} {r : Region}

/-- The data elements of a symbol are those of its row in the placement. One is
counted by the receiver's mask, the other by the number of blocks. -/
theorem elementsOn_eq (hmask : r.dmrsMask = q.dmrsMask) (hgroups : r.freeGroups = q.freeGroups)
    (hblocks : (Dmrs.allocated q.blockMask).length = r.blocks) (symbol : Nat) :
    q.elementsOn symbol = Placement.dataElements r symbol := by
  have hallocated : (List.range q.blockMask.size).countP (q.blockMask.getD · false) = r.blocks := by
    rw [← hblocks, List.countP_eq_length_filter]
    rfl
  have hall : (List.range r.blocks).countP (fun _ => true) = r.blocks := by
    rw [List.countP_true, List.length_range]
  have hfound := countP_blocks (q.blockMask.getD · false)
    (fun k => !q.dmrsMask.contains symbol || decide (q.freeGroups ≤ k % 2))
    (fun block k => congrArg (_ || ·) (decide_mod_two_blocks _ block k)) q.blockMask.size
  rw [elementsOn, dataPlaces, ← List.countP_eq_length_filter, size_dataMask,
    List.countP_congr (q := fun k => q.blockMask.getD (k / subcarriersPerBlock) false &&
      (!q.dmrsMask.contains symbol || decide (q.freeGroups ≤ k % 2)))]
  · rw [hfound, hallocated, Placement.dataElements, Region.isPlain, hmask, hgroups]
    -- all subcarriers of a block on a plain symbol, else those of the free groups
    cases q.dmrsMask.contains symbol with
    | false =>
      simp only [Bool.not_false, Bool.true_or, if_true]
      rw [List.countP_true, List.length_range]
      rfl
    | true =>
      simp only [Bool.not_true, Bool.false_or, Bool.false_eq_true, if_false]
      have hplaces := countP_blocks (fun _ => true) (fun k => decide (q.freeGroups ≤ k % 2))
        (fun block k => decide_mod_two_blocks _ block k) r.blocks
      rw [hall] at hplaces
      simp only [Bool.true_and] at hplaces
      rw [← hplaces, Placement.dataPlaces, ← List.countP_eq_length_filter]
      rfl
  · intro k hk
    rw [q.getD_dataMask _ (List.mem_range.mp hk)]

/-- The data elements of all symbols, plain or with reference signals. -/
theorem sum_elementsOn (hmask : r.dmrsMask = q.dmrsMask) (hgroups : r.freeGroups = q.freeGroups)
    (hblocks : (Dmrs.allocated q.blockMask).length = r.blocks) :
    (r.symbols.map q.elementsOn).sum = r.plainSymbols.length * r.elements +
      r.dmrsSymbols.length * Placement.dataPlaces r.freeGroups r.elements := by
  rw [← Placement.sizeTotal_start, Placement.sizeTotal, List.map_map]
  refine congrArg List.sum (List.map_congr_left fun symbol _ => ?_)
  rw [elementsOn_eq hmask hgroups hblocks]
  exact (Placement.size_startRow symbol).symm

end DemodulationRequest

end Uplink
