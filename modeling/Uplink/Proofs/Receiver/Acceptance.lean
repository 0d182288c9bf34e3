import Uplink.Receiver
import Uplink.Proofs.Allocation

/-!
# Accepted transmissions

- `Pdu.Accepted`: what a transmission that passes the check of a receiver is like.
- `Pdu.check_eq_ok`: the check finds all of it.
- `Receiver.create_eq_ok`: what a receiver is like.
-/

namespace Uplink

namespace Pdu

/-! ## Verdicts -/

theorem run_ensure_eq_ok {holds : Bool} {e : PduError} {u : Unit} :
    (ensure holds e).run = .ok (.ok u) ↔ holds = true := by
  cases holds with
  | true => exact iff_of_true rfl rfl
  | false => exact iff_of_false (fun h => nomatch h) Bool.false_ne_true

/-! ## Symbols with reference signals -/

/-- The listed symbols lie between the first and the last one, so checking these
two checks them all. -/
theorem mem_ones_bounds {mask : SymbolMask} {first stop symbol : Nat}
    (hlow : mask.lowest?.any (first ≤ ·) = true) (hhigh : mask.highest?.any (· < stop) = true)
    (h : symbol ∈ mask.ones) : first ≤ symbol ∧ symbol < stop := by
  have hsorted : mask.ones.Pairwise (· < ·) := List.pairwise_lt_range.filter _
  rw [SymbolMask.lowest?, Option.any_eq_true] at hlow
  rw [SymbolMask.highest?, Option.any_eq_true] at hhigh
  obtain ⟨low, hhead, hlow⟩ := hlow
  obtain ⟨high, hlast, hhigh⟩ := hhigh
  have hlow : first ≤ low := of_decide_eq_true hlow
  have hhigh : high < stop := of_decide_eq_true hhigh
  -- the list is sorted: nothing stands before its head or after its last entry
  have hle : low ≤ symbol := by
    obtain ⟨rest, hrest⟩ := List.head?_eq_some_iff.mp hhead
    rw [hrest] at h hsorted
    rcases List.mem_cons.mp h with rfl | hmem
    · exact Nat.le_refl _
    · exact Nat.le_of_lt (List.rel_of_pairwise_cons hsorted hmem)
  have hge : symbol ≤ high := by
    obtain ⟨rest, hrest⟩ := List.getLast?_eq_some_iff.mp hlast
    rw [hrest] at h hsorted
    rcases List.mem_append.mp h with hmem | hmem
    · exact Nat.le_of_lt ((List.pairwise_append.mp hsorted).2.2 symbol hmem high (by simp))
    · exact Nat.le_of_eq (List.mem_singleton.mp hmem)
  omega

/-! ## Acceptance -/

/-- What an accepted transmission is like. -/
structure Accepted (pdu : Pdu) (limits : ReceiverLimits) : Prop where
  bandwidth : pdu.bwpStart + pdu.bwpSize ≤ limits.blocks
  layers_pos : 1 ≤ pdu.layers
  layers_le : pdu.layers ≤ limits.layers
  ports_pos : 1 ≤ pdu.rxPorts.length
  ports_le : pdu.rxPorts.length ≤ limits.ports
  fits : pdu.allocation.fits pdu.bwpSize = .ok true
  ackBits_le : pdu.uci.ackBits ≤ ShortBlock.maxLength
  csi1Bits_le : pdu.uci.csi1Bits ≤ ShortBlock.maxLength
  csi2Bits_eq : pdu.uci.csi2Bits = 0
  references_ne : pdu.dmrsMask.ones ≠ []
  references : ∀ symbol ∈ pdu.dmrsMask.ones,
    pdu.firstSymbol ≤ symbol ∧ symbol < pdu.firstSymbol + pdu.symbolCount
  symbols : pdu.firstSymbol + pdu.symbolCount ≤ pdu.cyclicPrefix.symbolsPerSlot
  dmrsType_eq : pdu.dmrsType = .type1
  freeGroups_eq : pdu.freeGroups = 2
  dcSubcarrier_lt : ∀ dc ∈ pdu.dcSubcarrier, dc < limits.blocks * subcarriersPerBlock

/-- The check finds all that makes a transmission acceptable. What follows about
the receiver is derived from this record and does not open the check again. -/
theorem check_eq_ok {pdu : Pdu} {limits : ReceiverLimits}
    (h : (pdu.check limits).run = .ok (.ok ())) : pdu.Accepted limits := by
  unfold check at h
  simp only [run_bind_eq_ok, run_lift_eq_ok, run_ensure_eq_ok, Size.add_eq_ok, decide_eq_true_iff,
    Bool.and_eq_true, beq_iff_eq, Bool.not_eq_true'] at h
  obtain ⟨_, ⟨-, rfl⟩, -, hbandwidth, -, ⟨hlayers, hlayers'⟩, -, ⟨hports, hports'⟩, _, hfits, -,
    rfl, -, ⟨hack, hcsi1⟩, -, hcsi2, -, ⟨-, hempty⟩, _, ⟨-, rfl⟩, -, hlow, -, hhigh, -, hsymbols, -,
    ⟨htype, hgroups⟩, hdc⟩ := h
  refine
    { bandwidth := hbandwidth, layers_pos := hlayers, layers_le := hlayers', ports_pos := hports
      ports_le := hports', fits := hfits, ackBits_le := hack, csi1Bits_le := hcsi1
      csi2Bits_eq := hcsi2
      references_ne := fun hnil => by rw [SymbolMask.isEmpty, hnil] at hempty; cases hempty
      references := fun symbol hsymbol => mem_ones_bounds hlow hhigh hsymbol
      symbols := hsymbols, dmrsType_eq := htype, freeGroups_eq := hgroups
      dcSubcarrier_lt := fun dc hdc' => ?_ }
  rw [Option.mem_def] at hdc'
  rw [hdc'] at hdc
  simp only [run_bind_eq_ok, run_lift_eq_ok, run_ensure_eq_ok, Size.mul_eq_ok, decide_eq_true_iff]
    at hdc
  obtain ⟨_, ⟨-, rfl⟩, hlt⟩ := hdc
  exact hlt

end Pdu

/-! ## Receivers -/

/-- The settings that a receiver can have. -/
structure ReceiverSettings.Supported (settings : ReceiverSettings) : Prop where
  blocks_pos : 1 ≤ settings.limits.blocks
  blocks_le : settings.limits.blocks ≤ 275
  layers_pos : 1 ≤ settings.limits.layers
  layers_le : settings.limits.layers ≤ 4
  ports_pos : 1 ≤ settings.limits.ports
  ports_le : settings.limits.ports ≤ 4
  iterations_pos : 0 < settings.iterations

namespace Receiver

/-- Dimensions of a receiver's channel estimate. -/
def dimensions (settings : ReceiverSettings) : ChannelDimensions :=
  ⟨settings.limits.blocks, symbols, settings.limits.ports, settings.limits.layers⟩

/-- A receiver before its first transmission. -/
def fresh (settings : ReceiverSettings) : Receiver :=
  ⟨settings, ChannelEstimate.zeros (dimensions settings), BlockDecoder.fresh⟩

/-- There is a receiver exactly for the supported settings, and it is the fresh
one. -/
theorem create_eq_ok {settings : ReceiverSettings} {r : Receiver} :
    create settings = .ok r ↔ settings.Supported ∧ r = fresh settings := by
  unfold create
  dsimp only [ReceiverSettings.maxLimits]
  constructor
  · intro h
    split at h
    case isTrue => cases h
    case isFalse hblocks =>
      split at h
      case isTrue => cases h
      case isFalse hantennas =>
        split at h
        case isTrue => cases h
        case isFalse hiterations =>
          exact ⟨⟨by omega, by omega, by omega, by omega, by omega, by omega, by omega⟩,
            (Except.ok.inj h).symm⟩
  · rintro ⟨⟨_, _, _, _, _, _, _⟩, rfl⟩
    rw [if_neg (by omega), if_neg (by omega), if_neg (by omega)]
    rfl

end Receiver

end Uplink
