import Uplink.Mapping
import Uplink.Proofs.Demodulation.Elements

/-!
# The places of a symbol

The transmitter lays data on the allocated blocks one after the other and counts the elements as it
goes; the receiver goes over all subcarriers with a mask. Both find the same places in the same
order, and reference signals are on others.

- `MappingRequest.dataSubcarriers_eq`: the places of the data as a selection of all subcarriers.
- `MappingRequest.referenceSubcarriers`: the places of the reference signals of a layer;
  `not_mem_dataSubcarriers`: none of them carries data.
- `DemodulationRequest.Observes`: a demodulation of what is mapped; `dataPlaces_eq`: its masks
  select the places of the data.
-/

namespace Uplink

namespace MappingRequest

variable (q : MappingRequest) {onDmrs : Bool} {k layer : Nat}

/-- Elements of a row. -/
def width : Nat := q.blockMask.size * subcarriersPerBlock

/-! ## Data -/

/-- Whether a subcarrier carries data. -/
def carriesData (onDmrs : Bool) (k : Nat) : Bool :=
  q.blockMask.getD (k / subcarriersPerBlock) false && !(onDmrs && decide (k % 2 < q.freeGroups))

/-- The places of the data are those subcarriers, in increasing order. -/
theorem dataSubcarriers_eq (onDmrs : Bool) :
    q.dataSubcarriers onDmrs = (List.range q.width).filter (q.carriesData onDmrs) := by
  refine (filter_blocks (q.blockMask.getD · false)
    (fun k => !(onDmrs && decide (k % 2 < q.freeGroups))) (fun block k => ?_) _).symm
  rw [subcarriersPerBlock, show (block * 12 + k) % 2 = k % 2 by omega]

theorem mem_dataSubcarriers :
    k ∈ q.dataSubcarriers onDmrs ↔ k < q.width ∧ q.carriesData onDmrs k = true := by
  rw [dataSubcarriers_eq, List.mem_filter, List.mem_range]

theorem nodup_dataSubcarriers (onDmrs : Bool) : (q.dataSubcarriers onDmrs).Nodup := by
  rw [dataSubcarriers_eq]
  exact List.nodup_range.filter _

/-! ## Reference signals -/

/-- The places of the reference signals of a layer with the given offset. -/
def referenceSubcarriers (offset : Nat) : List Nat :=
  (Dmrs.allocated q.blockMask).flatMap fun block =>
    (List.range DmrsType.type1.perBlock).map fun j => block * subcarriersPerBlock + 2 * j + offset

/-- Reference signals of a layer are on every other subcarrier. -/
theorem mod_two_of_mem_referenceSubcarriers {offset : Nat} (h : k ∈ q.referenceSubcarriers offset) :
    k % 2 = offset % 2 := by
  obtain ⟨block, -, h⟩ := List.mem_flatMap.mp h
  obtain ⟨j, -, rfl⟩ := List.mem_map.mp h
  rw [subcarriersPerBlock]
  omega

/-- Both groups are kept free of data, or there are reference signals in the
free one only. -/
def KeepsApart : Prop := q.freeGroups = 2 ∨ q.freeGroups = 1 ∧ q.ports.length ≤ 2

/-- The first two layers share one group of subcarriers, the other two the other
one. -/
theorem offset_of_ofLayer {weights : DmrsWeights} (h : DmrsWeights.ofLayer layer = .ok weights) :
    layer < 4 ∧ weights.offset = layer / 2 := by
  match layer, h with
  | 0, h => cases h; decide
  | 1, h => cases h; decide
  | 2, h => cases h; decide
  | 3, h => cases h; decide

/-- No reference signal is where data is, whichever of the two conditions keeps
them apart. -/
theorem not_mem_dataSubcarriers (h : q.KeepsApart) (hlayer : layer < q.ports.length)
    {weights : DmrsWeights} (hweights : DmrsWeights.ofLayer layer = .ok weights)
    (hk : k ∈ q.referenceSubcarriers weights.offset) : k ∉ q.dataSubcarriers true := by
  rw [q.mem_dataSubcarriers, carriesData]
  obtain ⟨hfour, hoffset⟩ := offset_of_ofLayer hweights
  have hparity := q.mod_two_of_mem_referenceSubcarriers hk
  rw [hoffset] at hparity
  have hfree : k % 2 < q.freeGroups := by
    rcases h with h | ⟨h, hlayers⟩ <;> omega
  simp [hfree]

end MappingRequest

/-! ## The receiver's view -/

namespace DemodulationRequest

/-- A demodulation of what is mapped: on the same symbols and blocks, with the
same reference signals. -/
structure Observes (d : DemodulationRequest) (q : MappingRequest) : Prop where
  blockMask_eq : d.blockMask = q.blockMask
  firstSymbol_eq : d.firstSymbol = q.firstSymbol
  symbolCount_eq : d.symbolCount = q.symbolCount
  dmrsMask_eq : d.dmrsMask = q.dmrsMask
  freeGroups_eq : d.freeGroups = q.freeGroups

/-- The receiver's masks select the places of the data, although transmitter and
receiver find them in different ways. -/
theorem Observes.dataPlaces_eq {d : DemodulationRequest} {q : MappingRequest} (h : d.Observes q)
    (symbol : Nat) : d.dataPlaces symbol = q.dataSubcarriers (q.dmrsMask.contains symbol) := by
  rw [dataPlaces, q.dataSubcarriers_eq]
  have hsize : (d.dataMask (d.dmrsMask.contains symbol)).size = q.width := by
    rw [size_dataMask, h.blockMask_eq]
    rfl
  rw [hsize, h.dmrsMask_eq]
  refine List.filter_congr fun k hk => ?_
  rw [d.getD_dataMask _ (h.blockMask_eq ▸ List.mem_range.mp hk), MappingRequest.carriesData,
    h.blockMask_eq, h.freeGroups_eq]
  congr 1
  rw [Bool.not_and, ← decide_not]
  simp only [Nat.not_lt]

end DemodulationRequest

end Uplink
