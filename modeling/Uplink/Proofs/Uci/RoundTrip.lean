import Uplink.Proofs.Uci.Detection

/-!
# Control messages survive the short block code

Soft bits that follow a repeated codeword give every total the sign of its code bit. The message
then reaches all that is possible. Another message has another code bit among those that every
received length shows, whose total is not zero, so that it reaches less.

- `ShortBlock.Follows`: soft bits with the signs of what was sent.
- `ShortBlock.Follows.signed_total`, `ShortBlock.Follows.signed_total_pos`: the signs of the totals.
- `ShortBlock.Follows.agreement_eq`, `ShortBlock.Follows.agreement_lt`: the message and any other.
- `ShortBlock.decode_encode`: the message is decoded, and it is valid.
-/

namespace Uplink

namespace ShortBlock

open Finset (range)

/-- The soft bits are positive where a zero was sent and negative where a one
was sent; at placeholders they are any. -/
def Follows (softBits : Array SoftBit) (sent : Bits) : Prop :=
  ∀ k < softBits.size, (sent.getD k 0 = 0 → 0 < level softBits k) ∧
    (sent.getD k 0 = 1 → level softBits k < 0)

/-- Two different bits have opposite signs. -/
theorem signed_of_ne {a b : UInt8} (ha : a = 0 ∨ a = 1) (hb : b = 0 ∨ b = 1) (hne : a ≠ b) (v : ℤ) :
    signed a v = -signed b v := by
  rcases ha with rfl | rfl <;> rcases hb with rfl | rfl
  · exact absurd rfl hne
  · exact (neg_neg v).symm
  · rfl
  · exact absurd rfl hne

/-- The elements that are needed show code bits of the codeword. -/
theorem lt_codeLength {n p : ℕ} (h : p < neededLength n) : p < codeLength n :=
  codePosition_lt (codePosition_self .qpsk h)

theorem neededLength_pos (n : ℕ) : 0 < neededLength n := by
  unfold neededLength
  split <;> decide

namespace Follows

variable {m : Modulation} {softBits : Array SoftBit} {message other w : Bits}
variable (h : Follows softBits (repeatTo w softBits.size)) (hbits : message.HasOnly01)
  (hw : encode message m = .ok w)
include h hbits hw

/-- Each soft bit of a code bit has its sign, since it follows the element that
was sent. -/
theorem signed_level_pos {k p : ℕ} (hk : k < softBits.size)
    (hp : codePosition message.size m k = some p) :
    0 < signed (codeBit message p) (level softBits k) := by
  obtain ⟨hzero, hone⟩ := h k hk
  rw [getD_repeatTo w hk] at hzero hone
  rcases element_encode hw k with ⟨q, hq, hbit⟩ | ⟨hnone, -⟩
  · obtain rfl : q = p := Option.some.inj (hq.symm.trans hp)
    rw [hbit] at hzero hone
    rcases codeBit_only01 hbits q with hcode | hcode
    · rw [hcode]
      exact hzero hcode
    · rw [hcode]
      exact neg_pos.mpr (hone hcode)
  · rw [hnone] at hp
    cases hp

/-- The total of a code bit has its sign: nothing in it cancels. -/
theorem signed_total (p : ℕ) :
    signed (codeBit message p) (total message.size m softBits p) =
      |total message.size m softBits p| := by
  rw [← abs_signed (codeBit message p), eq_comm, abs_eq_self, total, signed_sum]
  refine Finset.sum_nonneg fun k hk => ?_
  obtain ⟨hlt, hp⟩ := Finset.mem_filter.mp hk
  exact (h.signed_level_pos hbits hw (Finset.mem_range.mp hlt) hp).le

/-- The total of a code bit that was received is not zero. -/
theorem signed_total_pos (hsize : neededLength message.size ≤ softBits.size) {p : ℕ}
    (hp : p < neededLength message.size) :
    0 < signed (codeBit message p) (total message.size m softBits p) := by
  have hself : codePosition message.size m p = some p := codePosition_self m hp
  rw [total, signed_sum]
  refine Finset.sum_pos (fun k hk => ?_) ⟨p, ?_⟩
  · obtain ⟨hlt, hk⟩ := Finset.mem_filter.mp hk
    exact h.signed_level_pos hbits hw (Finset.mem_range.mp hlt) hk
  · exact Finset.mem_filter.mpr ⟨Finset.mem_range.mpr (hp.trans_le hsize), hself⟩

/-- The message reaches all that is possible, as every total agrees with it. -/
theorem agreement_eq :
    agreement message.size m softBits message = energy message.size m softBits :=
  Finset.sum_congr rfl fun p _ => h.signed_total hbits hw p

/-- With all needed elements received, something is possible. -/
theorem energy_pos (hsize : neededLength message.size ≤ softBits.size) :
    0 < energy message.size m softBits := by
  have hpos := neededLength_pos message.size
  refine energy_pos_iff.mpr ⟨0, lt_codeLength hpos, fun hzero => ?_⟩
  have hfirst := h.signed_total_pos hbits hw hsize hpos
  rw [h.signed_total hbits hw, hzero, abs_zero] at hfirst
  exact lt_irrefl 0 hfirst

/-- Another message reaches less. It differs in one of the code bits that are
needed, and there it loses twice the total. -/
theorem agreement_lt (hle : message.size ≤ maxLength)
    (hsize : neededLength message.size ≤ softBits.size) (hother : other.HasOnly01)
    (hotherSize : other.size = message.size) (hne : other ≠ message) :
    agreement message.size m softBits other < agreement message.size m softBits message := by
  obtain ⟨p, hp, hdiffer⟩ :
      ∃ p < neededLength message.size, codeBit other p ≠ codeBit message p := by
    by_contra hsame
    refine hne (eq_of_codeBit hbits hother hotherSize hle fun p hp => ?_)
    by_contra hdiffer
    exact hsame ⟨p, hp, hdiffer⟩
  refine Finset.sum_lt_sum (fun q _ => ?_) ⟨p, Finset.mem_range.mpr (lt_codeLength hp), ?_⟩
  · rw [h.signed_total hbits hw, ← abs_signed (codeBit other q)]
    exact le_abs_self _
  · have hpos := h.signed_total_pos hbits hw hsize hp
    rw [signed_of_ne (codeBit_only01 hother p) (codeBit_only01 hbits p) hdiffer]
    exact neg_lt_self hpos

end Follows

/-- A message is decoded from any soft bits that follow its codeword and show
each of the code bits that are needed. -/
theorem decode_encode (m : Modulation) {message : Bits} (hbits : message.HasOnly01)
    (hpos : 1 ≤ message.size) (hle : message.size ≤ maxLength) :
    ∃ w, encode message m = .ok w ∧ ∀ softBits : Array SoftBit,
      neededLength message.size ≤ softBits.size → magnitude softBits < 2 ^ 24 →
      Follows softBits (repeatTo w softBits.size) →
      decode message.size m softBits = .ok (message, .valid) := by
  obtain ⟨w, hw⟩ := exists_encode m hpos hle
  refine ⟨w, hw, fun softBits hsize hsum h => ?_⟩
  obtain ⟨winner, part, hfirst, hpart, hdecode⟩ := exists_decode m hpos hle hsum
  obtain ⟨hlt, hnumber⟩ := messageOf_number hbits
  have hmost : agreement message.size m softBits message ≤
      agreement message.size m softBits (messageOf message.size winner) := by
    simpa only [hnumber] using hfirst.most _ hlt
  have hfound : messageOf message.size winner = message := by
    by_contra hne
    exact not_lt.mpr hmost (h.agreement_lt hbits hw hle hsize (messageOf_only01 _ winner)
      (size_messageOf _ winner) hne)
  rw [hfound, h.agreement_eq hbits hw] at hpart
  rw [hdecode, hfound, if_pos (hpart.threshold_lt (h.energy_pos hbits hw hsize) _)]

/-- Two bits from the first three elements of a codeword, the third of them a
placeholder. -/
theorem decode_encode_two :
    decode 2 .qam16 #[⟨-5⟩, ⟨3⟩, ⟨7⟩] = .ok (#[1, 0], .valid) := by
  have hbits : Bits.HasOnly01 #[1, 0] := by simp [Bits.HasOnly01]
  obtain ⟨w, hw, hdecode⟩ := decode_encode .qam16 hbits (by decide) (by decide)
  have hcodeword : encode #[1, 0] .qam16 = .ok #[1, 0, 2, 2, 1, 1, 2, 2, 0, 1, 2, 2] := rfl
  obtain rfl := Except.ok.inj (hw.symm.trans hcodeword)
  refine hdecode _ (by decide) (by decide +kernel) ?_
  unfold Follows
  decide +kernel

end ShortBlock

end Uplink
