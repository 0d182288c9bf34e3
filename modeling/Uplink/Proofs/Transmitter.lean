import Uplink.Proofs.Mapping.Completion
import Uplink.Proofs.Multiplexing
import Uplink.Proofs.Receiver.Stages
import Uplink.Proofs.TransportBlock.Sent
import Uplink.Proofs.Uci.Codeword
import Uplink.Transmitter

/-!
# Transmissions complete

What a receiver can receive, a transmitter can send, whatever the contents are.

- `Suits.exists_controlFields`, `Suits.exists_encodeBlock`: the fields are encoded to the lengths
  of their budget.
- `Suits.exists_codeword`: their codeword fills the elements of the allocation.
- `Suits.exists_transmit`: it is written to the grid without an error.
- `Transmitter.room_of_transmit`: nothing is sent of a transport block whose circular buffers hold
  only fillers.
-/

namespace Uplink

/-! ## Control fields -/

/-- A control field is encoded to its length; without a message there is nothing
to send, and the length has to be zero. -/
theorem Transmitter.exists_encodeField (pdu : Pdu) {message : Bits} {length : Nat}
    (hle : message.size ≤ ShortBlock.maxLength) (hnone : message.size = 0 → length = 0) :
    ∃ bits, encodeField pdu message length = .ok bits ∧ bits.size = length := by
  rw [encodeField]
  cases hempty : message.isEmpty with
  | true =>
    have hzero : message.size = 0 := by rw [Array.isEmpty_iff.mp hempty]; rfl
    exact ⟨#[], rfl, (hnone hzero).symm⟩
  | false =>
    have hpos : 0 < message.size :=
      Array.size_pos_iff.mpr (Array.isEmpty_eq_false_iff.mp hempty)
    obtain ⟨w, hw⟩ := ShortBlock.exists_encode pdu.modulation hpos hle
    rw [if_neg Bool.false_ne_true, hw]
    refine ⟨_, rfl, ?_⟩
    rw [ShortBlock.repeatTo, Array.size_map, Array.size_range]

/-! ## Elements of the streams -/

/-- The elements that feed a stream are those of its uses. A punctured element
counts for the data as well as for the acknowledgements. -/
theorem ElementUse.countP_feeds (uses : Array ElementUse) :
    uses.toList.countP (·.feeds .sch) = uses.count .sch + uses.count .punctured ∧
    uses.toList.countP (·.feeds .harqAck) = uses.count .harqAck + uses.count .punctured ∧
    uses.toList.countP (·.feeds .csiPart1) = uses.count .csiPart1 := by
  simp only [← Array.count_toList]
  induction uses.toList with
  | nil => exact ⟨rfl, rfl, rfl⟩
  | cons use uses ih =>
    obtain ⟨hsch, hack, hcsi1⟩ := ih
    simp only [List.countP_cons, List.count_cons, hsch, hack, hcsi1]
    cases use <;> simp [feeds] <;> omega

namespace Receiver

namespace Suits

variable {r : Receiver} {block : Bytes} {buffer : HarqBuffer} {grid : ResourceGrid} {pdu : Pdu}
  {mask : Array Bool} {payload : Payload} {length : Nat}

/-! ## Transport blocks -/

/-- The transport block is encoded, to any length of whole groups, and has that
length. -/
theorem exists_encodeBlock (h : Suits r block buffer grid pdu) (hr : r.Ready)
    {parameters : BlockParameters} (hparameters : pdu.block = some parameters) {data : Bytes}
    (hdata : data.size = block.size) (hwhole : length % (pdu.layers * pdu.modulation.order) = 0)
    (hlength : length < Size.signedLimit) (store : Ldpc.GraphStore) :
    ∃ w store', Transmitter.encodeBlock store pdu data length = .ok (w, store') ∧
      w.size = length := by
  have hholds := h.transportBlock parameters hparameters
  have hbytes := h.bytes_lt parameters hparameters
  have hlimit := h.limit_lt parameters hparameters
  have hgroup := h.group_le hr
  have hmachine : 32 < Size.limit := by decide
  have hformat : pdu.codewordFormat parameters length =
      .ok ⟨parameters.base, parameters.rv, pdu.modulation, pdu.limitBytes * 8, pdu.layers,
        length⟩ := by
    rw [Pdu.codewordFormat, Pdu.bufferLimit, Size.mul_of_lt (by omega)]
    rfl
  have hroom := h.room parameters hparameters
  rw [← hdata] at hroom hbytes
  have hblock : data.size ≠ 0 := hdata ▸ hholds.block_ne
  let format : CodewordFormat := ⟨parameters.base, parameters.rv, pdu.modulation,
    pdu.limitBytes * 8, pdu.layers, length⟩
  have hpos : 0 < format.group := Nat.mul_pos h.accepted.layers_pos pdu.modulation.order_pos
  have hgroupLt : format.group < Size.limit := Nat.lt_of_le_of_lt hgroup hmachine
  obtain ⟨w, store', hencode, hsize⟩ := TransportBlock.exists_encode_size hblock (by omega)
    hholds.rv_lt hpos hgroupLt hwhole hlength hlimit hroom store
  refine ⟨w, store', ?_, hsize⟩
  rw [Transmitter.encodeBlock, hparameters]
  dsimp only
  rw [hformat, ok_bind]
  exact hencode

/-! ## Codewords -/

/-- A payload for a transmission, with a block of some size. -/
structure Fits (payload : Payload) (pdu : Pdu) (bytes : Nat) : Prop where
  block_eq : payload.block.size = bytes
  harqAck_eq : payload.harqAck.size = pdu.uci.ackBits
  csiPart1_eq : payload.csiPart1.size = pdu.uci.csi1Bits

variable {budget : Budget} {uses : Array ElementUse}

/-- The control fields fill their elements: each one has as many bits as its
elements carry on all layers. -/
theorem exists_controlFields (h : Suits r block buffer grid pdu)
    (hplaced : Placed pdu (pdu.blockBits block.size) budget uses)
    (hpayload : Fits payload pdu block.size) :
    ∃ ack csi1, Transmitter.encodeField pdu payload.harqAck budget.ackBits = .ok ack ∧
      Transmitter.encodeField pdu payload.csiPart1 budget.csi1Bits = .ok csi1 ∧
      ∀ sch, ∀ stream ≠ .sch, (FieldBits.of ⟨sch, ack, csi1⟩ stream).size =
        uses.toList.countP (·.feeds stream) * (pdu.layers * pdu.modulation.order) := by
  have hsound := hplaced.sound
  obtain ⟨-, hfeedsAck, hfeedsCsi1⟩ := ElementUse.countP_feeds uses
  have hackNone : payload.harqAck.size = 0 → budget.ackBits = 0 := fun hzero => by
    rw [hsound.ackBits_eq, hsound.ack_none (hpayload.harqAck_eq.symm.trans hzero), Nat.zero_mul]
  have hcsi1None : payload.csiPart1.size = 0 → budget.csi1Bits = 0 := fun hzero => by
    rw [hsound.csi1Bits_eq, hsound.csi1_none (hpayload.csiPart1_eq.symm.trans hzero), Nat.zero_mul]
  obtain ⟨ack, hack, hackBits⟩ :=
    Transmitter.exists_encodeField pdu (hpayload.harqAck_eq ▸ h.accepted.ackBits_le) hackNone
  obtain ⟨csi1, hcsi1, hcsi1Bits⟩ :=
    Transmitter.exists_encodeField pdu (hpayload.csiPart1_eq ▸ h.accepted.csi1Bits_le) hcsi1None
  refine ⟨ack, csi1, hack, hcsi1, fun sch stream hstream => ?_⟩
  cases stream with
  | sch => exact absurd rfl hstream
  | harqAck =>
    show ack.size = _
    rw [hackBits, hfeedsAck, hplaced.ack_eq, hsound.ackBits_eq]
    rfl
  | csiPart1 =>
    show csi1.size = _
    rw [hcsi1Bits, hfeedsCsi1, hplaced.csi1_eq, hsound.csi1Bits_eq]
    rfl

/-- The data take the elements that the control fields leave, and those that are
punctured later. -/
theorem schBits_eq (h : Suits r block buffer grid pdu)
    (hplaced : Placed pdu (pdu.blockBits block.size) budget uses) {parameters : BlockParameters}
    (hparameters : pdu.block = some parameters) :
    budget.schBits =
      uses.toList.countP (·.feeds .sch) * (pdu.layers * pdu.modulation.order) := by
  have hne := (h.transportBlock parameters hparameters).block_ne
  have hpos : 0 < (pdu.budgetRequest (pdu.blockBits block.size)).tbs := by
    show 0 < pdu.blockBits block.size
    rw [Pdu.blockBits, hparameters, Option.isSome_some, if_pos rfl]
    omega
  have hgroup : (pdu.budgetRequest (pdu.blockBits block.size)).group =
      pdu.layers * pdu.modulation.order := rfl
  have hack : (pdu.budgetRequest (pdu.blockBits block.size)).ackBits = pdu.uci.ackBits := rfl
  rw [hplaced.sound.schBits_eq, if_pos hpos, (ElementUse.countP_feeds uses).1, hgroup,
    hplaced.split, hack]
  omega

/-- The transport block is encoded to the elements that are left to it, and all
streams are multiplexed over the elements of the placement. Without a transport
block there is nothing to encode, and the elements left over stay zero. -/
theorem exists_multiplexed (h : Suits r block buffer grid pdu) (hr : r.Ready)
    (hplaced : Placed pdu (pdu.blockBits block.size) budget uses)
    (hpayload : Fits payload pdu block.size) {ack csi1 : Bits}
    (hcontrol : ∀ sch, ∀ stream ≠ .sch, (FieldBits.of ⟨sch, ack, csi1⟩ stream).size =
      uses.toList.countP (·.feeds stream) * (pdu.layers * pdu.modulation.order))
    (store : Ldpc.GraphStore) :
    ∃ sch store' w,
      Transmitter.encodeBlock store pdu payload.block budget.schBits = .ok (sch, store') ∧
      multiplex ⟨sch, ack, csi1⟩ (pdu.placementRequest budget) = .ok w ∧
      w.size = uses.size * (pdu.layers * pdu.modulation.order) := by
  have hbits : max uses.size 1 * (pdu.layers * pdu.modulation.order) < Size.signedLimit := by
    have hall := hplaced.size_le
    exact Nat.lt_of_le_of_lt (Nat.mul_le_mul (by omega : _ ≤ 14 * (275 * 12)) (h.group_le hr))
      (by decide)
  have hsized : (pdu.placementRequest budget).Sized uses.size := ⟨h.accepted.layers_pos, hbits⟩
  cases hblock : pdu.block with
  | none =>
    obtain ⟨w, hw, hsize⟩ :=
      exists_multiplex_of_sch_empty hplaced.uses_eq hsized rfl (hcontrol #[])
    exact ⟨#[], store, w, by rw [Transmitter.encodeBlock, hblock]; rfl, hw, hsize⟩
  | some parameters =>
    have hschBits := h.schBits_eq hplaced hblock
    have hfeeds : uses.toList.countP (·.feeds .sch) ≤ max uses.size 1 :=
      Nat.le_trans (List.countP_le_length) (Nat.le_max_left _ _)
    obtain ⟨sch, store', hencode, hsize⟩ := h.exists_encodeBlock hr hblock hpayload.block_eq
      (by rw [hschBits, Nat.mul_mod_left])
      (hschBits ▸ Nat.lt_of_le_of_lt (Nat.mul_le_mul_right _ hfeeds) hbits) store
    have hfill : FieldBits.Fill ⟨sch, ack, csi1⟩ uses.toList
        (pdu.layers * pdu.modulation.order) := by
      intro stream
      cases stream with
      | sch => exact hsize.trans hschBits
      | harqAck => exact hcontrol sch .harqAck (by decide)
      | csiPart1 => exact hcontrol sch .csiPart1 (by decide)
    obtain ⟨w, hw, hmultiplexed⟩ := exists_multiplex hplaced.uses_eq hsized hfill
    exact ⟨sch, store', w, hencode, hw, hmultiplexed.size_eq⟩

/-- The fields of a payload fill the elements of the allocation, one after the
other. -/
theorem exists_codeword (h : Suits r block buffer grid pdu) (hr : r.Ready)
    (hmask : (Dmrs.allocated mask).length = pdu.allocation.count)
    (hpayload : Fits payload pdu block.size) (store : Ldpc.GraphStore) :
    ∃ w store', Transmitter.codeword store pdu payload = .ok (w, store') ∧
      w.size = ((List.range' pdu.firstSymbol pdu.symbolCount).map
        (pdu.demodulationRequest mask).elementsOn).sum * (pdu.layers * pdu.modulation.order) := by
  obtain ⟨budget, uses, hplaced⟩ := h.exists_placed hr
  obtain ⟨ack, csi1, hack, hcsi1, hcontrol⟩ := h.exists_controlFields hplaced hpayload
  obtain ⟨sch, store', w, hsch, hw, hsize⟩ :=
    h.exists_multiplexed hr hplaced hpayload hcontrol store
  refine ⟨w, store', ?_, ?_⟩
  · rw [Transmitter.codeword, require_of (beq_iff_eq.mpr hpayload.harqAck_eq), ok_bind,
      require_of (beq_iff_eq.mpr hpayload.csiPart1_eq), ok_bind, hpayload.block_eq,
      hplaced.budget_eq, ok_bind, hsch, ok_bind]
    dsimp only
    rw [hack, ok_bind, hcsi1, ok_bind, hw]
    rfl
  · rw [hsize, hplaced.size_eq, h.dataElements_eq hplaced.sound hmask]

/-! ## Grids -/

/-- A payload is written to every grid that holds the layers and the bandwidth
part. -/
theorem exists_transmit (h : Suits r block buffer grid pdu) (hr : r.Ready)
    (hpayload : Fits payload pdu block.size) {target : ResourceGrid}
    (hports : pdu.layers ≤ target.ports)
    (hsymbols : pdu.firstSymbol + pdu.symbolCount ≤ target.symbols)
    (hblocks : pdu.bwpStart + pdu.bwpSize ≤ target.blocks) (store : Ldpc.GraphStore) :
    ∃ target' store', Transmitter.transmit store pdu payload target =
        .ok (⟨target', none⟩, store') ∧ target'.SameExtent target := by
  obtain ⟨mask, hmask, hsize, hallocated⟩ := h.exists_blockMask hr
  obtain ⟨w, store', hw, hwidth⟩ := h.exists_codeword hr hallocated hpayload store
  have hbandwidth := h.accepted.bandwidth
  have hlimit := hr.supported.blocks_le
  have hsigned : 64 * 276 < Size.signedLimit := by decide
  obtain ⟨q, hq, hcovered, hobserves⟩ : ∃ q, pdu.mappingRequest = .ok q ∧ q.Covered target ∧
      (pdu.demodulationRequest mask).Observes q ∧ q.modulation = pdu.modulation ∧
      q.ports = List.range pdu.layers := by
    rw [Pdu.mappingRequest, hmask, ok_bind, Pdu.reference, Pdu.referenceAmplitude,
      h.accepted.freeGroups_eq]
    refine ⟨_, rfl, ?_, ⟨rfl, rfl, rfl, rfl, h.accepted.freeGroups_eq⟩, rfl, rfl⟩
    exact
      { dmrsType_eq := h.accepted.dmrsType_eq
        keepsApart := .inl rfl
        layers_pos := by rw [List.length_range]; exact h.accepted.layers_pos
        layers_le := by rw [List.length_range]; exact h.layers_le hr
        ports := fun port hport => Nat.lt_of_lt_of_le (List.mem_range.mp hport) hports
        symbols := hsymbols
        blocks := Nat.le_trans (Nat.le_of_eq hsize) hblocks
        symbols_le := h.symbols_le
        blocks_lt := show 64 * (mask.size + 1) < _ by omega }
  obtain ⟨hobserves, hmodulation, hqports⟩ := hobserves
  -- the transmitter counts the elements that the demodulator finds
  have helements : (pdu.demodulationRequest mask).elementsOn = q.elementsOn := funext fun symbol =>
    congrArg List.length (hobserves.dataPlaces_eq symbol)
  have hfills : w.size = ((List.range' q.firstSymbol q.symbolCount).map q.elementsOn).sum *
      (q.ports.length * q.modulation.order) := by
    rw [hwidth, helements, hqports, List.length_range, hmodulation, ← hobserves.firstSymbol_eq,
      ← hobserves.symbolCount_eq]
    rfl
  obtain ⟨target', hwrite, hextent⟩ := hcovered.exists_write hfills
  refine ⟨target', store', ?_, hextent⟩
  rw [Transmitter.transmit, hw, ok_bind, hq]
  dsimp only
  rw [ok_bind, hwrite]
  rfl

end Suits

end Receiver

/-- A transport block is sent only if its circular buffers hold more than the
fillers. -/
theorem Transmitter.room_of_transmit {store store' : Ldpc.GraphStore} {pdu : Pdu}
    {payload : Payload} {target : ResourceGrid} {written : Written}
    (h : transmit store pdu payload target = .ok (written, store')) {parameters : BlockParameters}
    (hparameters : pdu.block = some parameters) {seg : Segmentation}
    (hfound : Segmentation.ofSize parameters.base (payload.block.size * 8) = .ok seg) :
    seg.fillers < seg.ringLength (pdu.limitBytes * 8) := by
  obtain ⟨⟨w, graphs⟩, hw, -⟩ := bind_eq_ok.mp h
  simp only [codeword, bind_eq_ok] at hw
  obtain ⟨-, -, -, -, budget, -, ⟨sch, left⟩, hsch, -⟩ := hw
  rw [encodeBlock, hparameters] at hsch
  obtain ⟨format, hformat, hencode⟩ := bind_eq_ok.mp hsch
  obtain ⟨limit, hlimit, hformat⟩ := bind_eq_ok.mp hformat
  obtain ⟨-, rfl⟩ := Size.mul_eq_ok.mp hlimit
  obtain rfl := Except.ok.inj hformat
  exact TransportBlock.room_of_encode hencode hfound

end Uplink
