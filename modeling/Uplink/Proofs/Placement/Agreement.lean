import Uplink.Pdu
import Uplink.Proofs.Budget.Sound
import Uplink.Proofs.Placement.Fields

/-!
# Budgets and placements agree

The budget of a transmission says how many elements every field gets, the placement says which ones.
Both are found from the same request, one by shares and limits and the other symbol by symbol.

- `BudgetRequest.placement`: what places the fields of a budget; `Pdu.placementRequest_eq`.
- `Budget.Sound.fits`: the fields of a budget fit.
- `Budget.placement_agrees`: the placement of a budget gives every field its elements.
-/

namespace Uplink

/-- What places the fields of a budget. -/
def BudgetRequest.placement (q : BudgetRequest) (b : Budget) : PlacementRequest :=
  { modulation := q.modulation
    layers := q.layers
    region := q.region
    ackPayload := q.ackBits
    ackBits := b.ackBits
    reservedBits := b.reservedBits
    csi1Bits := b.csi1Bits }

/-- The receiver places what the budget of the same transmission has sized: both
requests are made of the same parameters. -/
theorem Pdu.placementRequest_eq (pdu : Pdu) (tbs : Nat) (b : Budget) :
    pdu.placementRequest b = (pdu.budgetRequest tbs).placement b := rfl

namespace Budget

variable {q : BudgetRequest} {b : Budget}

/-- The fields of a budget fit, because a budget gives no field more than there
is for it. -/
theorem Sound.fits (h : b.Sound q) (hlayers : 0 < q.layers)
    (htype : q.region.dmrsType = .type1) :
    Placement.Fits (q.placement b) b.ackElements b.reservedElements b.csi1Elements where
  group_pos _ := Nat.mul_pos hlayers q.modulation.order_pos
  type1 := htype
  ackBits_eq _ := h.ackBits_eq
  reservedBits_eq _ := h.reservedBits_eq
  csi1Bits_eq := h.csi1Bits_eq
  ack_le _ := h.ackElements_le
  reserved_le _ := h.reservedElements_le
  ack_le_reserved hshort := by
    rw [PlacementRequest.punctures, Bool.and_eq_true, decide_eq_true_iff, decide_eq_true_iff]
      at hshort
    exact h.ack_le_reserved hshort.2
  csi1_le := by
    refine le_trans (Nat.add_le_add_left ?_ _) h.csi1_le
    show (if 2 < q.ackBits then _ else _) ≤ _
    split
    · exact Nat.le_refl _
    · split
      · exact Nat.le_refl _
      · exact Nat.zero_le _

/-- A request in reach leaves no machine size on the way to its placement. The
bounds of the budget cover those of the placement. -/
theorem not_beyond (hreach : q.InReach) : ¬ (q.placement b).Beyond := by
  have htotal := hreach.total
  have hsigned : Size.signedLimit = 2 ^ 63 := rfl
  rintro (hgroup | hsymbols | htable | ⟨hpos, hsize⟩)
  · exact absurd hreach.group (Nat.not_lt.mpr hgroup)
  · exact absurd hreach.symbols (Nat.not_lt.mpr hsymbols)
  · have htable' := hreach.table
    change Size.signedLimit ≤ 8 * q.region.symbolCount at htable
    omega
  · have hone : q.region.elements ≤ q.region.symbolCount * q.region.elements :=
      Nat.le_mul_of_pos_left _ hpos
    rcases hsize with hsize | hsize
    · change Size.signedLimit ≤ 8 * q.region.elements at hsize
      omega
    · exact absurd hreach.bits
        (Nat.not_lt.mpr (Nat.le_trans hsize (Nat.mul_le_mul_right _ hone)))

/-- The placement of a sound budget, with the elements of every field. What data
does not take back from reserved elements stays data. -/
theorem Sound.exists_placement (h : b.Sound q) (hlayers : 0 < q.layers)
    (htype : q.region.dmrsType = .type1) (hreach : q.InReach) :
    ∃ uses, Placement.ofRequest (q.placement b) = .ok uses ∧ uses.size = b.dataElements ∧
      uses.count .harqAck + uses.count .punctured = b.ackElements ∧
      uses.count .csiPart1 = b.csi1Elements ∧
      b.dataElements * q.group = (uses.count .sch + uses.count .punctured) * q.group +
        b.csi1Bits + (if 2 < q.ackBits then b.ackBits else 0) := by
  have hfits := h.fits hlayers htype
  obtain ⟨hsize, hharqAck, hpunctured, hcsi1, hsch⟩ := hfits.placedUses
  set uses := Placement.placedUses (q.placement b) b.ackElements b.reservedElements b.csi1Elements
  have hdata : uses.size = b.dataElements := by
    have hplaces := Placement.dataPlaces_eq q.region.freeGroups q.region.blocks
    rw [hsize, h.dataElements_eq, plainTotal, dataOnDmrs, htype]
    exact congrArg (fun n => _ + _ * n) hplaces
  -- long acknowledgements have a use of their own, short ones replace data
  refine ⟨uses, hfits.ofRequest_eq.eq_ok (not_beyond hreach), hdata, ?_, hcsi1, ?_⟩
  · rw [hharqAck, hpunctured]
    by_cases hlong : 2 < (q.placement b).ackPayload
    · rw [if_pos hlong, PlacementRequest.punctures_of_long hlong]
      rfl
    · by_cases hshort : (q.placement b).punctures = true
      · rw [if_neg hlong, if_pos hshort, Nat.zero_add]
      · rw [if_neg hlong, if_neg hshort, h.ack_none]
        refine Nat.eq_zero_of_not_pos fun hpos => hshort ?_
        exact Bool.and_eq_true_iff.mpr
          ⟨decide_eq_true hpos, decide_eq_true (Nat.le_of_not_lt hlong)⟩
  · rw [← hdata, ← hsch, h.csi1Bits_eq, h.ackBits_eq, Nat.add_mul, Nat.add_mul]
    congr 1
    show (if 2 < q.ackBits then _ else 0) * q.group = _
    split
    · rfl
    · exact Nat.zero_mul _

/-- The placement of a budget has its data elements, and every field gets the
elements of the budget; none of the differences of the data bits is cut off at
zero. -/
theorem placement_agrees (hlayers : 0 < q.layers) (hcsi2 : q.csi2Bits = 0)
    (htype : q.region.dmrsType = .type1) (halpha : q.alpha ≤ 1) (hreach : q.InReach) :
    ∃ (b : Budget) (uses : Array ElementUse),
      ofRequest q = .ok b ∧ Placement.ofRequest (q.placement b) = .ok uses ∧
      uses.size = b.dataElements ∧
      uses.count .harqAck + uses.count .punctured = b.ackElements ∧
      uses.count .csiPart1 = b.csi1Elements ∧
      (0 < q.tbs → (uses.count .sch + uses.count .punctured) * q.group = b.schBits) ∧
      (if 2 < q.ackBits then b.ackBits else 0) + b.csi1Bits ≤ b.dataElements * q.group := by
  obtain ⟨b, hb, hsound⟩ := exists_ofRequest hlayers hcsi2 halpha hreach
  obtain ⟨uses, huses, hdata, hack, hcsi1, hsplit⟩ := hsound.exists_placement hlayers htype hreach
  refine ⟨b, uses, hb, huses, hdata, hack, hcsi1, fun hpos => ?_, by omega⟩
  rw [hsound.schBits_eq, if_pos hpos, hsplit]
  omega

/-- A block on a slot with reference signals on its third symbol. -/
def sampleRegion : Region :=
  { blocks := 1, firstSymbol := 0, symbolCount := 14, dmrsType := .type1
    dmrsMask := ⟨(Array.replicate 14 false).setIfInBounds 2 true, by decide⟩, freeGroups := 2 }

/-- Five bytes of data with two short fields. -/
def sampleRequest : BudgetRequest :=
  { tbs := 40, modulation := .qpsk, codeRate := 308, ackBits := 1, csi1Bits := 4, csi2Bits := 0
    alpha := 1, betaAck := 2, betaCsi1 := 1.5, region := sampleRegion, layers := 1, base := .two }

theorem sampleRequest_inReach : sampleRequest.InReach where
  symbols := by decide
  elements := by decide
  references := by decide
  table := by decide
  total := by decide
  group := by decide
  bits := by decide
  ack := by decide
  csi1 := by decide
  block := by decide
  message s hs := by
    have hsample : Segmentation.ofSize .two 40 =
        .ok ⟨.two, 1, 16, 0, 56, 10, 100, 44⟩ := by decide +kernel
    rw [← Except.ok.inj (hsample.symm.trans hs)]
    decide

theorem placement_agrees_sample :
    ∃ (b : Budget) (uses : Array ElementUse),
      ofRequest sampleRequest = .ok b ∧ Placement.ofRequest (sampleRequest.placement b) = .ok uses ∧
      uses.size = b.dataElements ∧
      uses.count .harqAck + uses.count .punctured = b.ackElements ∧
      uses.count .csiPart1 = b.csi1Elements ∧
      (0 < sampleRequest.tbs →
        (uses.count .sch + uses.count .punctured) * sampleRequest.group = b.schBits) ∧
      (if 2 < sampleRequest.ackBits then b.ackBits else 0) + b.csi1Bits ≤
        b.dataElements * sampleRequest.group :=
  placement_agrees (by decide) rfl rfl (by decide +kernel) sampleRequest_inReach

/-- Two symbols of a block, sent on so many layers that the bits of twelve
elements are no machine size. -/
def wideRequest : BudgetRequest :=
  { tbs := 0, modulation := .qpsk, codeRate := 1024, ackBits := 3, csi1Bits := 0, csi2Bits := 0
    alpha := 1, betaAck := 0.5, betaCsi1 := 1, layers := 2 ^ 60, base := .two
    region := { blocks := 1, firstSymbol := 0, symbolCount := 2, dmrsType := .type1
                dmrsMask := ⟨(Array.replicate 14 false).setIfInBounds 0 true, by decide⟩
                freeGroups := 2 } }

/-- The budget of one element is found, but the bits of the symbol that it is
chosen from leave the machine sizes. -/
theorem not_placed_wide :
    0 < wideRequest.layers ∧ wideRequest.csi2Bits = 0 ∧ wideRequest.region.dmrsType = .type1 ∧
      wideRequest.alpha ≤ 1 ∧
      ofRequest wideRequest = .ok ⟨0, 2 ^ 61, 0, 0, 1, 0, 0, 12, 12⟩ ∧
      Placement.ofRequest (wideRequest.placement ⟨0, 2 ^ 61, 0, 0, 1, 0, 0, 12, 12⟩) =
        .error .arithmetic := by
  refine ⟨by decide, rfl, rfl, by decide +kernel, by decide +kernel, ?_⟩
  decide +kernel

end Budget

end Uplink
