import Uplink.Proofs.Demodulation.Delivery
import Uplink.Proofs.Receiver.Reception

/-!
# The subcarrier of the carrier frequency

A receiver knows nothing of the subcarrier at its own carrier frequency. The transmission's soft
bits on it are erased, and all others are those of a transmission without such a subcarrier.

- `Receiver.Delivers`: the blocks that the codeword of a transmission is delivered in.
- `Pdu.softBitAt`: the soft bit of an element, layer and bit in them.
- `Receiver.delivers_dcSubcarrier`: these soft bits with the subcarrier and without it.
-/

namespace Uplink

/-- The soft bit of an element's layer and bit in a codeword that is delivered
in blocks. -/
def Pdu.softBitAt (pdu : Pdu) (blocks : List (Array SoftBit)) (element layer bit : Nat) :
    Option SoftBit :=
  (blocks.flatMap Array.toList)[(element * pdu.layers + layer) * pdu.modulation.order + bit]?

namespace Receiver

variable {settings : ReceiverSettings} {r r' : Receiver} {block : Bytes} {buffer : HarqBuffer}
  {grid : ResourceGrid} {pdu : Pdu} {received : Received} {d : Nat}

/-- Whoever takes the codeword of a transmission is passed these blocks, one
after the other. -/
def Delivers (r : Receiver) (grid : ResourceGrid) (pdu : Pdu) (blocks : List (Array SoftBit)) :
    Prop :=
  ∃ mask estimate, pdu.blockMask = .ok mask ∧ r.estimateChannel grid pdu mask = .ok estimate ∧
    (pdu.demodulationRequest mask).Delivers grid estimate blocks

/-- What has been received was accepted and demodulated, on some estimate of the
channel and with some start of the fields. -/
theorem exists_run_of_receive (h : r.receive block buffer grid pdu = .ok (received, r')) :
    pdu.Accepted r.settings.limits ∧
      ∃ (mask : Array Bool) (estimate : ChannelEstimate) (start : Demultiplexer × FieldSinks)
        (found : DemodulationStatistics × Demultiplexer × FieldSinks),
        pdu.blockMask = .ok mask ∧ r.estimateChannel grid pdu mask = .ok estimate ∧
          (pdu.demodulationRequest mask).run grid estimate FieldSinks.consume start =
            .ok found := by
  obtain ⟨verdict, hcheck, h⟩ := bind_eq_ok.mp h
  cases verdict with
  | error e => cases h
  | ok _ =>
    refine ⟨Pdu.check_eq_ok hcheck, ?_⟩
    replace h : r.receiveAccepted block buffer grid pdu = .ok (received, r') := h
    unfold receiveAccepted at h
    simp only [bind_eq_ok] at h
    obtain ⟨mask, hmask, budget, -, estimate, hestimate, sinr, -, sch, -, demultiplexer, -, found,
      hrun, -⟩ := h
    exact ⟨mask, estimate, _, found, hmask, hestimate, hrun⟩

/-- The estimate of a transmission with a subcarrier of the carrier frequency is
the cleared one of the same transmission without it. -/
theorem estimateChannel_dcSubcarrier {mask : Array Bool} {cleared : ChannelEstimate}
    (hdc : pdu.dcSubcarrier = some d) (h : r.estimateChannel grid pdu mask = .ok cleared) :
    ∃ estimate, r.estimateChannel grid { pdu with dcSubcarrier := none } mask = .ok estimate ∧
      estimate.clearSubcarrier d = .ok cleared := by
  obtain ⟨q, hq, h⟩ := bind_eq_ok.mp h
  obtain ⟨estimate, hestimate, h⟩ := bind_eq_ok.mp h
  rw [hdc] at h
  refine ⟨estimate, bind_eq_ok.mpr ⟨q, hq, bind_eq_ok.mpr ⟨estimate, hestimate, rfl⟩⟩, h⟩

/-- The place of a soft bit among those of its element, counted by layer and
then by bit. -/
theorem layer_mul_add_lt {layer layers bit order : Nat} (hlayer : layer < layers)
    (hbit : bit < order) : layer * order + bit < layers * order := by
  calc layer * order + bit < (layer + 1) * order := by rw [Nat.succ_mul]; omega
    _ ≤ layers * order := Nat.mul_le_mul_right order hlayer

/-- A transmission with a subcarrier of the carrier frequency, received by a
receiver in use, beside the same transmission without it: both give one soft bit
for each element, layer and bit. Those of the elements on the subcarrier are
erased, and all others are the same. -/
theorem delivers_dcSubcarrier (hr : Serves settings r) (hdc : pdu.dcSubcarrier = some d)
    (h : r.receive block buffer grid pdu = .ok (received, r')) :
    ∃ mask blocks without, pdu.blockMask = .ok mask ∧ r.Delivers grid pdu blocks ∧
      r.Delivers grid { pdu with dcSubcarrier := none } without ∧
      let elements := (pdu.demodulationRequest mask).elements
      (blocks.flatMap Array.toList).length =
        elements.length * (pdu.layers * pdu.modulation.order) ∧
      (without.flatMap Array.toList).length =
        elements.length * (pdu.layers * pdu.modulation.order) ∧
      ∀ element symbol k layer bit, elements[element]? = some (symbol, k) →
        layer < pdu.layers → bit < pdu.modulation.order →
        (k = d → pdu.softBitAt blocks element layer bit = some SoftBit.erased) ∧
        (k ≠ d →
          pdu.softBitAt blocks element layer bit = pdu.softBitAt without element layer bit) := by
  obtain ⟨haccepted, mask, cleared, start, found, hmask, hcleared, hrun⟩ :=
    exists_run_of_receive h
  obtain ⟨estimate, hestimate, hclear⟩ := estimateChannel_dcSubcarrier hdc hcleared
  have hd : d < Size.signedLimit := by
    have hsupported := hr.ready.1.supported.blocks_le
    have hlt : d < r.settings.limits.blocks * 12 := haccepted.dcSubcarrier_lt d hdc
    have hlimit : 275 * 12 < Size.signedLimit := by decide
    omega
  obtain ⟨blocks, without, hblocks, hwithout, hnulled⟩ :=
    DemodulationRequest.run_nulled hclear hd hrun
  refine ⟨mask, blocks, without, hmask, ⟨mask, cleared, hmask, hcleared, hblocks⟩,
    ⟨mask, estimate, hmask, hestimate, hwithout⟩, ?_⟩
  have hlength := hnulled.length_eq
  rw [List.length_map] at hlength
  refine ⟨hlength.1, hlength.2, fun element symbol k layer bit helement hlayer hbit => ?_⟩
  have hk : ((pdu.demodulationRequest mask).elements.map Prod.snd)[element]? = some k := by
    rw [List.getElem?_map, helement]
    rfl
  -- the place of a soft bit, counted by symbols and counted by elements
  have hplace : (element * pdu.layers + layer) * pdu.modulation.order + bit =
      element * (pdu.layers * pdu.modulation.order) + (layer * pdu.modulation.order + bit) := by
    rw [Nat.add_mul, Nat.mul_assoc, Nat.add_assoc]
  rw [Pdu.softBitAt, Pdu.softBitAt, hplace]
  constructor
  · rintro rfl
    exact hnulled.getElem?_hit hk (layer_mul_add_lt hlayer hbit)
  · intro hne
    exact hnulled.getElem?_miss hk hne (layer_mul_add_lt hlayer hbit)

/-- The seventh element of the small transmission is on its subcarrier. Its two
soft bits are erased, and those of the eighth are as without the subcarrier. -/
theorem delivers_dcSubcarrier_small : ∃ received r' blocks without,
    smallReceiver.receive #[0xA5] (HarqBuffer.ofCount 1) (ResourceGrid.zeros 1 14 1) smallPdu =
      .ok (received, r') ∧
    smallReceiver.Delivers (ResourceGrid.zeros 1 14 1) smallPdu blocks ∧
    smallReceiver.Delivers (ResourceGrid.zeros 1 14 1) { smallPdu with dcSubcarrier := none }
      without ∧
    (∀ bit < 2, smallPdu.softBitAt blocks 6 0 bit = some SoftBit.erased) ∧
    ∀ bit < 2, smallPdu.softBitAt blocks 7 0 bit = smallPdu.softBitAt without 7 0 bit := by
  have hr : Serves smallSettings smallReceiver := .created rfl
  obtain ⟨received, r', -, -, -, -, hreceive, -⟩ :=
    (smallReceiver_provides.suits fun _ _ => by decide).exists_receive hr.ready.1
      smallReceiver_affords
  obtain ⟨mask, blocks, without, hmask, hblocks, hwithout, hall⟩ :=
    delivers_dcSubcarrier hr (d := 6) rfl hreceive
  have hfound : smallPdu.blockMask = .ok #[true] := by decide
  obtain rfl : mask = #[true] := Except.ok.inj (hmask.symm.trans hfound)
  obtain ⟨-, -, hsoftBits⟩ := hall
  refine ⟨received, r', blocks, without, hreceive, hblocks, hwithout, fun bit hbit => ?_,
    fun bit hbit => ?_⟩
  · exact (hsoftBits 6 0 6 0 bit (by decide) (by decide) hbit).1 rfl
  · exact (hsoftBits 7 0 7 0 bit (by decide) (by decide) hbit).2 (by decide)

end Receiver

end Uplink
