import Uplink.Transmitter
import Uplink.Proofs.Allocation
import Uplink.Proofs.Mapping.Places

/-!
# Allocations without repeated blocks

The budgets and the placement count the allocated blocks, the demodulator and the transmitter look
them up in a mask. A list in which a block stands twice fits its bandwidth part like any other, but
its mask has fewer blocks than are counted.

- `Pdu.Counted`: with a mask as many data elements are found on a symbol as are counted.
- `Pdu.counted_iff`: on a plain symbol these are the elements of the allocated blocks.
- `Pdu.observes_of_mappingRequest`: demodulator and transmitter use the mask alike.
- `Allocation.covers_iff_nodup`: the mask of an allocation that fits, and when it has the blocks
  that are counted.
-/

namespace Uplink

namespace Pdu

variable {pdu : Pdu} {mask : Array Bool} {symbol : Nat}

/-- The demodulator finds as many data elements on a symbol as the budgets and
the placement count. -/
def Counted (pdu : Pdu) (mask : Array Bool) (symbol : Nat) : Prop :=
  ((pdu.demodulationRequest mask).dataPlaces symbol).length =
    Placement.dataElements pdu.region symbol

/-- With as many blocks in the mask as are counted, so are the data elements. -/
theorem counted_of_length (h : (Dmrs.allocated mask).length = pdu.allocation.count)
    (symbol : Nat) : pdu.Counted mask symbol :=
  DemodulationRequest.elementsOn_eq (r := pdu.region) rfl rfl h symbol

/-- On a symbol without reference signals every block counts, so a block too
many shows in the number of elements. -/
theorem counted_iff (hplain : pdu.region.isPlain symbol = true) :
    pdu.Counted mask symbol ↔ (Dmrs.allocated mask).length = pdu.allocation.count := by
  have hfound : ((pdu.demodulationRequest mask).dataPlaces symbol).length =
      (Dmrs.allocated mask).length * subcarriersPerBlock := by
    have helements := DemodulationRequest.elementsOn_eq (q := pdu.demodulationRequest mask)
      (r := { pdu.region with blocks := (Dmrs.allocated mask).length }) rfl rfl rfl symbol
    exact helements.trans (if_pos hplain)
  rw [Counted, hfound, Placement.dataElements, if_pos hplain]
  exact Nat.mul_left_inj (by decide)

/-- What is mapped is demodulated with the same mask. -/
theorem observes_of_mappingRequest {q : MappingRequest} (hmask : pdu.blockMask = .ok mask)
    (h : pdu.mappingRequest = .ok q) : (pdu.demodulationRequest mask).Observes q := by
  rw [mappingRequest, hmask, ok_bind] at h
  obtain ⟨reference, -, h⟩ := bind_eq_ok.mp h
  rw [← Except.ok.inj h]
  exact ⟨rfl, rfl, rfl, rfl, rfl⟩

end Pdu

namespace Allocation

variable {a : Allocation} {bwpStart bwpSize : Nat}

/-- A mask beyond the machine sizes cannot be made. No other fault comes before
this one. -/
theorem blockMask_eq_error (hsize : Size.signedLimit ≤ bwpStart + bwpSize) :
    a.blockMask bwpStart bwpSize = .error .arithmetic := by
  by_cases hlimit : bwpStart + bwpSize < Size.limit
  · have hcells : Size.cells 1 [bwpStart + bwpSize] = .error .arithmetic := by
      rw [Size.cells]
      exact if_neg fun h => by simp at h; omega
    rw [blockMask, Size.add_of_lt hlimit, ok_bind, hcells]
    rfl
  · have hadd : Size.add bwpStart bwpSize = .error .arithmetic := if_neg hlimit
    rw [blockMask, hadd]
    rfl

/-- An allocation that fits its bandwidth part has a mask up to the end of this
part, whose blocks are the different ones of the allocation and lie in the part.
These are as many as are counted exactly if no block is repeated, and exactly
then transmitter and demodulator, which use the same elements, have on each
symbol as many of them as the placement. -/
theorem covers_iff_nodup (h : a.fits bwpSize = .ok true) :
    (Size.signedLimit ≤ bwpStart + bwpSize ∧ a.blockMask bwpStart bwpSize = .error .arithmetic) ∨
    ∃ mask, a.blockMask bwpStart bwpSize = .ok mask ∧ mask.size = bwpStart + bwpSize ∧
      (∀ k ∈ Dmrs.allocated mask, bwpStart ≤ k) ∧
      (Dmrs.allocated mask).length = a.blocks.dedup.length ∧
      ((Dmrs.allocated mask).length = a.count ↔ a.blocks.Nodup) ∧
      ∀ pdu : Pdu, pdu.allocation = a → pdu.bwpStart = bwpStart → pdu.bwpSize = bwpSize →
        (∀ q, pdu.mappingRequest = .ok q → ∀ symbol,
          q.dataSubcarriers (q.dmrsMask.contains symbol) =
            (pdu.demodulationRequest mask).dataPlaces symbol) ∧
        (a.blocks.Nodup → ∀ symbol, pdu.Counted mask symbol) ∧
        ∀ symbol, pdu.region.isPlain symbol = true →
          (pdu.Counted mask symbol ↔ a.blocks.Nodup) := by
  by_cases hsize : bwpStart + bwpSize < Size.signedLimit
  case neg => exact .inl ⟨Nat.not_lt.mp hsize, blockMask_eq_error (Nat.not_lt.mp hsize)⟩
  case pos =>
    obtain ⟨mask, hmask, hmaskSize, hmarks⟩ := exists_blockMask hsize h
    have hcount := length_allocated_eq_count_iff hmarks
    refine .inr ⟨mask, hmask, hmaskSize, fun k hk => ?_, length_allocated_eq_dedup hmarks, hcount,
      ?_⟩
    · obtain ⟨b, -, rfl⟩ := (hmarks k).mp (List.mem_filter.mp hk).2
      exact Nat.le_add_right _ _
    · rintro pdu rfl rfl rfl
      refine ⟨fun q hq symbol => ?_, fun hnodup => Pdu.counted_of_length (hcount.mpr hnodup),
        fun symbol hplain => (Pdu.counted_iff hplain).trans hcount⟩
      exact ((Pdu.observes_of_mappingRequest hmask hq).dataPlaces_eq symbol).symm

/-- Of three listed blocks one is repeated, and two are marked. -/
theorem covers_iff_nodup_repeated :
    let a := listed [0, 1, 0]
    a.fits 2 = .ok true ∧ ∃ mask, a.blockMask 3 2 = .ok mask ∧ mask.size = 5 ∧
      (Dmrs.allocated mask).length = 2 ∧ a.count = 3 ∧
      ∀ pdu : Pdu, pdu.allocation = a → pdu.bwpStart = 3 → pdu.bwpSize = 2 →
        ∀ symbol, pdu.region.isPlain symbol = true → ¬ pdu.Counted mask symbol := by
  intro a
  have hfits : a.fits 2 = .ok true := by decide
  have hrepeated : ¬ a.blocks.Nodup := by decide
  refine ⟨hfits, ?_⟩
  obtain ⟨hlimit, -⟩ | ⟨mask, hmask, hsize, -, hlength, -, hpdu⟩ :=
    @covers_iff_nodup a 3 2 hfits
  · exact absurd hlimit (by decide)
  · refine ⟨mask, hmask, hsize, hlength, rfl, fun pdu ha hstart hbwp symbol hplain hcounted => ?_⟩
    exact hrepeated (((hpdu pdu ha hstart hbwp).2.2 symbol hplain).mp hcounted)

end Allocation

end Uplink
