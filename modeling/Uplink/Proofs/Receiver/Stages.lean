import Uplink.Proofs.Demodulation.Run
import Uplink.Proofs.Placement.Agreement
import Uplink.Proofs.Readable
import Uplink.Proofs.Receiver.Acceptance

/-!
# The stages of a reception up to its demodulation

What each stage of a receiver does with a transmission that is accepted and for which the caller
provides what it needs.

- `Receiver.Ready`: a receiver between transmissions.
- `Receiver.Provision`: an accepted transmission, and what is provided for it; `Receiver.Provides`:
  without a limit on the combining buffer; `Receiver.Suits`: with any limit that leaves room.
- `Receiver.Affords`: the machine can count the iterations of its decoding.
- `Receiver.Placed`, `Suits.exists_placed`: the elements of a transmission are budgeted and placed.
- `Suits.exists_blockMask`, `exists_start`, `exists_estimateChannel`,
  `exists_estimatorSinrDb`: the stages before the demodulation, each of which completes.
- `Suits.covered`: what is demodulated lies in the grid and in the estimate.
-/

namespace Uplink

namespace Receiver

/-! ## Transmissions -/

/-- A receiver between transmissions. -/
structure Ready (r : Receiver) : Prop where
  supported : r.settings.Supported
  dims_eq : r.estimate.dims = dimensions r.settings

/-- What is provided for a transport block: a redundancy version, room for its
bytes, and a buffer for its codeblocks. -/
structure Holds (parameters : BlockParameters) (block : Bytes) (buffer : HarqBuffer) : Prop where
  rv_lt : parameters.rv < 4
  block_ne : block.size ≠ 0
  count : ∀ s, Segmentation.ofSize parameters.base (block.size * 8) = .ok s →
    buffer.count = s.blocks

/-- A transmission that is accepted, and what is provided for it: a grid of its
ports, symbols and bandwidth part, and what a transport block needs if there is
one. -/
structure Provision (r : Receiver) (block : Bytes) (buffer : HarqBuffer) (grid : ResourceGrid)
    (pdu : Pdu) : Prop where
  check : (pdu.check r.settings.limits).run = .ok (.ok ())
  distinct : ∀ blocks, pdu.allocation = .listed blocks → blocks.Nodup
  transportBlock : ∀ parameters ∈ pdu.block, Holds parameters block buffer
  covers_ports : ∀ port ∈ pdu.rxPorts, port < grid.ports
  covers_symbols : pdu.firstSymbol + pdu.symbolCount ≤ grid.symbols
  covers_blocks : pdu.bwpStart + pdu.bwpSize ≤ grid.blocks

/-- Control information may take all elements, and the combining buffer is not
limited. -/
structure Provides (r : Receiver) (block : Bytes) (buffer : HarqBuffer) (grid : ResourceGrid)
    (pdu : Pdu) : Prop extends r.Provision block buffer grid pdu where
  alpha_le : pdu.uci.alpha ≤ 1
  unlimited : pdu.limitBytes = 0

/-- Any part of the elements for control information, any combining buffer whose
codeblocks hold more than their fillers, and a transport block whose bits can be
counted. -/
structure Suits (r : Receiver) (block : Bytes) (buffer : HarqBuffer) (grid : ResourceGrid)
    (pdu : Pdu) : Prop extends r.Provision block buffer grid pdu where
  alpha : Budget.IsPart pdu.uci.alpha
  room : ∀ parameters ∈ pdu.block, ∀ s,
    Segmentation.ofSize parameters.base (block.size * 8) = .ok s →
      s.fillers < s.ringLength (pdu.limitBytes * 8)
  -- sizes of the machine
  limit_lt : ∀ parameters ∈ pdu.block, 3 * (pdu.limitBytes * 8) < Size.limit
  bytes_lt : ∀ parameters ∈ pdu.block, 16 * block.size < Size.limit

/-- The machine can count the iterations of all codeblocks together. -/
def Affords (r : Receiver) (block : Bytes) (pdu : Pdu) : Prop :=
  ∀ parameters ∈ pdu.block, ∀ s,
    Segmentation.ofSize parameters.base (block.size * 8) = .ok s →
      s.blocks * r.settings.iterations < Size.limit

/-- The elements of a transmission with a block of `tbs` bits: those of its
budget, each placed. -/
structure Placed (pdu : Pdu) (tbs : Nat) (budget : Budget) (uses : Array ElementUse) : Prop where
  budget_eq : Budget.ofRequest (pdu.budgetRequest tbs) = .ok budget
  sound : budget.Sound (pdu.budgetRequest tbs)
  uses_eq : Placement.ofRequest (pdu.placementRequest budget) = .ok uses
  size_eq : uses.size = budget.dataElements
  ack_eq : uses.count .harqAck + uses.count .punctured = budget.ackElements
  csi1_eq : uses.count .csiPart1 = budget.csi1Elements
  split : budget.dataElements * (pdu.layers * pdu.modulation.order) =
    (uses.count .sch + uses.count .punctured) * (pdu.layers * pdu.modulation.order) +
      budget.csi1Bits + (if 2 < pdu.uci.ackBits then budget.ackBits else 0)
  size_le : uses.size ≤ 14 * (275 * 12)

variable {r : Receiver} {block : Bytes} {buffer : HarqBuffer} {grid : ResourceGrid} {pdu : Pdu}

/-- What is provided for a reception without limits suits: control information
may take any part of the elements, and the buffer holds whole codeblocks. -/
theorem Provides.suits (h : Provides r block buffer grid pdu)
    (hbytes : ∀ parameters ∈ pdu.block, 16 * block.size < Size.limit) :
    Suits r block buffer grid pdu where
  toProvision := h.toProvision
  alpha := Budget.isPart_of_le h.alpha_le
  room _ _ s hs := by
    rw [h.unlimited]
    exact (Segmentation.ofSize_eq_ok hs).fillers_lt_ringLength
  limit_lt _ _ := by
    rw [h.unlimited]
    decide
  bytes_lt := hbytes

namespace Suits

variable {mask : Array Bool} {estimate : ChannelEstimate}

theorem accepted (h : Suits r block buffer grid pdu) : pdu.Accepted r.settings.limits :=
  Pdu.check_eq_ok h.check

theorem symbols_le (h : Suits r block buffer grid pdu) :
    pdu.firstSymbol + pdu.symbolCount ≤ symbols := by
  refine Nat.le_trans h.accepted.symbols ?_
  cases pdu.cyclicPrefix <;> decide

/-- The mask of the allocation marks as many blocks as are allocated, within the
bandwidth part. -/
theorem exists_blockMask (h : Suits r block buffer grid pdu) (hr : r.Ready) :
    ∃ mask, pdu.blockMask = .ok mask ∧ mask.size = pdu.bwpStart + pdu.bwpSize ∧
      (Dmrs.allocated mask).length = pdu.allocation.count := by
  have hblocks := h.accepted.bandwidth
  have hlimit := hr.supported.blocks_le
  have hmachine : pdu.bwpStart + pdu.bwpSize < Size.signedLimit :=
    Nat.lt_of_le_of_lt (hblocks.trans hlimit) (by decide)
  obtain ⟨mask, hmask, hsize, hmarks⟩ := Allocation.exists_blockMask hmachine h.accepted.fits
  exact ⟨mask, hmask, hsize,
    Allocation.length_allocated hmarks (Allocation.nodup_blocks h.distinct)⟩

/-! ## Budget and placement -/

theorem count_le (h : Suits r block buffer grid pdu) (hr : r.Ready) :
    pdu.allocation.count ≤ 275 := by
  obtain ⟨mask, -, hsize, hcount⟩ := h.exists_blockMask hr
  have hle := Dmrs.length_allocated_le mask
  have hblocks := h.accepted.bandwidth
  have hlimit := hr.supported.blocks_le
  omega

theorem layers_le (h : Suits r block buffer grid pdu) (hr : r.Ready) : pdu.layers ≤ 4 :=
  Nat.le_trans h.accepted.layers_le hr.supported.layers_le

/-- Bits of an element on all layers: at most four layers of eight bits. -/
theorem group_le (h : Suits r block buffer grid pdu) (hr : r.Ready) :
    pdu.layers * pdu.modulation.order ≤ 32 :=
  Nat.mul_le_mul (h.layers_le hr) (by cases pdu.modulation <;> decide : _ ≤ 8)

/-- Twice the bits of the transport block is a machine size, as segmentation
needs. -/
theorem blockBits_le (h : Suits r block buffer grid pdu) :
    2 * pdu.blockBits block.size < Size.limit := by
  rw [Pdu.blockBits]
  split
  case isTrue hblock =>
    obtain ⟨parameters, hparameters⟩ := Option.isSome_iff_exists.mp hblock
    have := h.bytes_lt parameters hparameters
    omega
  case isFalse => decide

/-- Elements of all symbols: at most 14 symbols of 275 blocks. -/
theorem total_le (h : Suits r block buffer grid pdu) (hr : r.Ready) :
    pdu.symbolCount * (pdu.allocation.count * subcarriersPerBlock) ≤ 14 * (275 * 12) := by
  have hsymbols : pdu.firstSymbol + pdu.symbolCount ≤ 14 := h.symbols_le
  exact Nat.mul_le_mul (by omega) (Nat.mul_le_mul_right _ (h.count_le hr))

/-- The sizes of an accepted transmission stay in reach of the machine, so that
no step of its budget can overflow. -/
theorem inReach (h : Suits r block buffer grid pdu) (hr : r.Ready) :
    (pdu.budgetRequest (pdu.blockBits block.size)).InReach := by
  have hcount : pdu.allocation.count * subcarriersPerBlock ≤ 275 * 12 :=
    Nat.mul_le_mul_right _ (h.count_le hr)
  have hsymbols : pdu.firstSymbol + pdu.symbolCount ≤ 14 := h.symbols_le
  have hgroup := h.group_le hr
  have htotal := h.total_le hr
  have hack : pdu.uci.ackBits ≤ 11 := h.accepted.ackBits_le
  have hcsi1 : pdu.uci.csi1Bits ≤ 11 := h.accepted.csi1Bits_le
  have hbits := h.blockBits_le
  have hlimit : Size.limit = 18446744073709551616 := rfl
  have hsigned : Size.signedLimit = 9223372036854775808 := rfl
  -- every bound is far from the limit; only the block's own bits have to be assumed
  exact
    { symbols := show pdu.firstSymbol + pdu.symbolCount < _ by omega
      elements := show pdu.allocation.count * subcarriersPerBlock < _ by omega
      references := by
        show pdu.dmrsType.perBlock * pdu.freeGroups < _
        rw [h.accepted.dmrsType_eq, h.accepted.freeGroups_eq]
        decide
      table := show 8 * max pdu.symbolCount 1 < _ by omega
      total := Nat.le_trans htotal (by decide)
      group := show pdu.layers * pdu.modulation.order < _ by omega
      bits := Nat.lt_of_le_of_lt (Nat.mul_le_mul htotal hgroup) (by decide)
      ack := show pdu.uci.ackBits + 11 < _ by omega
      csi1 := show pdu.uci.csi1Bits + 11 < _ by omega
      block := show 2 * pdu.blockBits block.size < _ by omega
      message := fun s hs => by
        have hle := Segmentation.blocks_mul_messageLength_le hs
        have hmax : ∀ base : Ldpc.BaseGraph, base.maxMessageLength ≤ 8448 := by
          intro base
          cases base <;> decide
        have := hmax (pdu.budgetRequest (pdu.blockBits block.size)).base
        have hcheck : longCheckLength = 24 := rfl
        have htbs : (pdu.budgetRequest (pdu.blockBits block.size)).tbs =
          pdu.blockBits block.size := rfl
        omega }

/-- The data elements of a budget are those that the demodulator finds. The one
counts them by the region, the other by the masks of the symbols. -/
theorem dataElements_eq (h : Suits r block buffer grid pdu) {budget : Budget} {tbs : Nat}
    (hsound : budget.Sound (pdu.budgetRequest tbs))
    (hmask : (Dmrs.allocated mask).length = pdu.allocation.count) :
    budget.dataElements = ((List.range' pdu.firstSymbol pdu.symbolCount).map
      (pdu.demodulationRequest mask).elementsOn).sum := by
  have hsum : ((List.range' pdu.firstSymbol pdu.symbolCount).map
      (pdu.demodulationRequest mask).elementsOn).sum = _ :=
    DemodulationRequest.sum_elementsOn (r := pdu.region) rfl rfl hmask
  have hplaces := Placement.dataPlaces_eq pdu.freeGroups pdu.allocation.count
  have hdmrs : Budget.dataOnDmrs pdu.region =
      Placement.dataPlaces pdu.freeGroups (pdu.allocation.count * subcarriersPerBlock) := by
    rw [hplaces]
    show _ * (_ - pdu.dmrsType.perBlock * _) = _
    rw [h.accepted.dmrsType_eq]
    rfl
  rw [hsound.dataElements_eq, hsum]
  exact congrArg (fun n => _ + _ * n) hdmrs

/-- The budget of an accepted transmission is kept by the placement: every
stream gets the elements that it was budgeted. -/
theorem exists_placed (h : Suits r block buffer grid pdu) (hr : r.Ready) :
    ∃ budget uses, Placed pdu (pdu.blockBits block.size) budget uses := by
  have hreach := h.inReach hr
  obtain ⟨budget, hbudget, hsound⟩ := Budget.exists_ofRequest_of_isPart
    (q := pdu.budgetRequest (pdu.blockBits block.size)) h.accepted.layers_pos
    h.accepted.csi2Bits_eq h.alpha hreach
  obtain ⟨uses, huses, hsize, hack, hcsi1, hsplit⟩ :=
    hsound.exists_placement h.accepted.layers_pos h.accepted.dmrsType_eq hreach
  rw [← Pdu.placementRequest_eq] at huses
  refine ⟨budget, uses, hbudget, hsound, huses, hsize, hack, hcsi1, hsplit, ?_⟩
  calc uses.size = budget.dataElements := hsize
    _ ≤ pdu.symbolCount * (pdu.allocation.count * subcarriersPerBlock) := by
        rw [hsound.dataElements_eq]
        exact Budget.dataTotal_le pdu.region
    _ ≤ 14 * (275 * 12) := h.total_le hr

/-- The codeword can be taken apart: its elements are those that the demodulator
finds, so the placement ends with the last of them. -/
theorem exists_start (h : Suits r block buffer grid pdu) (hr : r.Ready)
    (hmask : (Dmrs.allocated mask).length = pdu.allocation.count) :
    ∃ budget demultiplexer,
      Budget.ofRequest (pdu.budgetRequest (pdu.blockBits block.size)) = .ok budget ∧
      Demultiplexer.start (pdu.placementRequest budget) = .ok demultiplexer ∧
      demultiplexer.done = 0 ∧ demultiplexer.group = pdu.layers * pdu.modulation.order ∧
      demultiplexer.placement.size = ((List.range' pdu.firstSymbol pdu.symbolCount).map
        (pdu.demodulationRequest mask).elementsOn).sum ∧
      demultiplexer.placement.size * demultiplexer.group ≤ maxCodewordLength := by
  obtain ⟨budget, uses, hplaced⟩ := h.exists_placed hr
  have hgroup := h.group_le hr
  have hall := hplaced.size_le
  have hlimit : 32 < Size.limit := by decide
  have hsigned : 32 < Size.signedLimit := by decide
  have hbitsPerElement : (pdu.placementRequest budget).bitsPerElement =
      .ok (pdu.layers * pdu.modulation.order) :=
    Size.mul_of_lt (show pdu.layers * pdu.modulation.order < _ by omega)
  refine ⟨budget, ⟨uses, pdu.layers * pdu.modulation.order, 0⟩, hplaced.budget_eq, ?_, rfl, rfl, ?_,
    Nat.le_trans (Nat.mul_le_mul hall hgroup) (by decide)⟩
  · rw [Demultiplexer.start, hplaced.uses_eq, ok_bind, hbitsPerElement, ok_bind,
      Size.cells_of_lt Nat.one_pos (by omega)]
    rfl
  · rw [← h.dataElements_eq hplaced.sound hmask]
    exact hplaced.size_eq

/-! ## Channel estimate -/

/-- The channel is estimated, whatever the grid holds, and the estimate is
complete for all blocks, layers and ports of the receiver. -/
theorem exists_estimateChannel (h : Suits r block buffer grid pdu) (hr : r.Ready)
    (hmask : mask.size = pdu.bwpStart + pdu.bwpSize) :
    ∃ estimate, r.estimateChannel grid pdu mask = .ok estimate ∧
      estimate.dims = dimensions r.settings ∧ estimate.Complete := by
  have hdims := hr.dims_eq
  have hblocks := h.accepted.bandwidth
  have hlimit := hr.supported.blocks_le
  have hsymbols := h.symbols_le
  have hsigned : 100000 < Size.signedLimit := by decide
  obtain ⟨q, hq, hcovered⟩ : ∃ q, pdu.estimationRequest mask = .ok q ∧
      q.Covered grid r.estimate.dims := by
    rw [Pdu.estimationRequest, Pdu.reference, Pdu.referenceAmplitude, h.accepted.freeGroups_eq]
    refine ⟨_, rfl, ?_⟩
    rw [hdims]
    exact
      { dmrsType_eq := h.accepted.dmrsType_eq
        layers_le := h.layers_le hr
        layers_le_dims := h.accepted.layers_le
        ports_le_dims := h.accepted.ports_le
        symbols_le_dims := hsymbols
        allocated_lt := fun block hblock =>
          Nat.lt_of_lt_of_le (hmask ▸ Dmrs.lt_of_mem_allocated hblock) hblocks
        references := fun symbol hsymbol =>
          Nat.lt_of_lt_of_le (h.accepted.references symbol hsymbol).2 h.covers_symbols
        ports := h.covers_ports
        blocks := Nat.le_trans (Nat.le_of_eq hmask) h.covers_blocks
        symbols_lt := show 14 < _ by decide
        mask_lt := show 64 * (mask.size + 1) < _ by omega }
  obtain ⟨estimate, hestimate, hestimateDims, hcomplete⟩ :=
    EstimationRequest.exists_estimate hcovered
  rw [hdims] at hestimateDims
  rw [estimateChannel, hq, ok_bind, hestimate, ok_bind]
  -- an accepted subcarrier of the carrier frequency lies in the estimate
  cases hdc : pdu.dcSubcarrier with
  | none => exact ⟨estimate, rfl, hestimateDims, hcomplete⟩
  | some dc =>
    have hsubcarriers : estimate.dims.subcarriers = r.settings.limits.blocks * 12 := by
      rw [hestimateDims]
      rfl
    have hlt : dc < r.settings.limits.blocks * 12 := h.accepted.dcSubcarrier_lt dc hdc
    obtain ⟨cleared, hcleared, hclearedDims, hclearedComplete⟩ :=
      hcomplete.exists_clearSubcarrier (k := dc) (by omega) (by omega)
    exact ⟨cleared, hcleared, hclearedDims.trans hestimateDims, hclearedComplete⟩

/-- The signal to noise ratio of the reference signals is found from a complete
estimate. -/
theorem exists_estimatorSinrDb (h : Suits r block buffer grid pdu)
    (hdims : estimate.dims = dimensions r.settings) (hcomplete : estimate.Complete) :
    ∃ ratio, estimatorSinrDb estimate pdu.layers pdu.rxPorts.length = .ok ratio := by
  have hports : pdu.rxPorts.length ≤ estimate.dims.ports := by
    rw [hdims]
    exact h.accepted.ports_le
  have hlayers : pdu.layers ≤ estimate.dims.layers := by
    rw [hdims]
    exact h.accepted.layers_le
  obtain ⟨ratios, hratios, -⟩ := exists_mapM_array
    (fun layer => estimate.layerSinrDb layer pdu.rxPorts.length) (Array.range pdu.layers)
    (fun layer hlayer => hcomplete.exists_layerSinrDb hports
      (Nat.lt_of_lt_of_le (Array.mem_range.mp hlayer) hlayers))
  rw [estimatorSinrDb, hratios]
  exact ⟨_, rfl⟩

/-! ## Demodulation -/

/-- The elements that are demodulated lie in the grid and in the estimate, so
that no read of either can fail. -/
theorem covered (h : Suits r block buffer grid pdu) (hr : r.Ready)
    (hmask : mask.size = pdu.bwpStart + pdu.bwpSize)
    (hdims : estimate.dims = dimensions r.settings) (hcomplete : estimate.Complete) :
    (pdu.demodulationRequest mask).Covered grid estimate := by
  have hsymbols : pdu.firstSymbol + pdu.symbolCount ≤ 14 := h.symbols_le
  have hblocks := h.accepted.bandwidth
  have hlimit := hr.supported.blocks_le
  have hmachine : 4000 < Size.limit := by decide
  exact
    { dmrsType_eq := h.accepted.dmrsType_eq
      layers_pos := h.accepted.layers_pos
      layers_le := h.layers_le hr
      ports_pos := h.accepted.ports_pos
      ports_le := Nat.le_trans h.accepted.ports_le hr.supported.ports_le
      complete := hcomplete
      layers_le_dims := by rw [hdims]; exact h.accepted.layers_le
      ports_le_dims := by rw [hdims]; exact h.accepted.ports_le
      symbols_le_dims := by rw [hdims]; exact h.symbols_le
      blocks_le_dims := by rw [hdims]; exact Nat.le_trans (Nat.le_of_eq hmask) hblocks
      ports := h.covers_ports
      symbols := h.covers_symbols
      blocks := Nat.le_trans (Nat.le_of_eq hmask) h.covers_blocks
      symbols_lt := show pdu.firstSymbol + pdu.symbolCount < _ by omega
      subcarriers_lt := show mask.size * subcarriersPerBlock < _ by
        rw [hmask, subcarriersPerBlock]
        omega }

end Suits

end Receiver

end Uplink
