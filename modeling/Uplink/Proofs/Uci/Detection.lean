import Uplink.Proofs.Uci.Number
import Uplink.Proofs.Uci.Totals

/-!
# Detection of control messages

The decoder correlates the totals of the code bits with the code bits of every message. That is the
same as to compare the soft bits, one by one, with the codeword that the encoder repeats. So the
message found is the likeliest one, and of several the one with the lowest number.

- `ShortBlock.merit`, `ShortBlock.merit_eq_agreement`: the codeword compared soft bit by soft bit.
- `ShortBlock.IsFirstMost`, `ShortBlock.exists_search`: the search over the candidates.
- `ShortBlock.IsPart`, `ShortBlock.exists_decode`: what is decoded, and the number its status rests
  on.
- `ShortBlock.IsBest.likeliest`, `ShortBlock.IsBest.agreement_pos`: the best candidate.
- `ShortBlock.decode_likeliest`: the message is the likeliest one; messages of one and two bits are
  valid unless all totals are zero, and longer ones are not valid then.
-/

namespace Uplink

namespace ShortBlock

open Finset (range)
open Single (IsWhole isWhole_toFloat32)

variable {n : ℕ} {m : Modulation} {softBits : Array SoftBit}

/-! ## Codewords compared soft bit by soft bit -/

/-- What a soft bit says for the element that was sent: its value for a zero,
the opposite for a one, and nothing for a placeholder. -/
def vote (sent : UInt8) (v : ℤ) : ℤ := if sent = 0 then v else if sent = 1 then -v else 0

/-- What the soft bits say for a codeword, repeated to their number. -/
def merit (softBits : Array SoftBit) (codeword : Bits) : ℤ :=
  ∑ k ∈ range softBits.size,
    vote ((repeatTo codeword softBits.size).getD k 0) (level softBits k)

theorem vote_eq_signed {bit : UInt8} (h : bit = 0 ∨ bit = 1) (v : ℤ) :
    vote bit v = signed bit v := by
  rcases h with rfl | rfl <;> rfl

/-- A sign may be taken out of a sum. -/
theorem signed_sum (bit : UInt8) (s : Finset ℕ) (f : ℕ → ℤ) :
    signed bit (∑ k ∈ s, f k) = ∑ k ∈ s, signed bit (f k) := by
  simp only [signed]
  split
  · rfl
  · exact (Finset.sum_neg_distrib f).symm

theorem getD_repeatTo (w : Bits) {length k : ℕ} (hk : k < length) :
    (repeatTo w length).getD k 0 = w.getD (k % w.size) 0 := by
  have hsize : k < (repeatTo w length).size := by
    rwa [repeatTo, Array.size_map, Array.size_range]
  rw [Buffer.getD_of_lt hsize]
  simp only [repeatTo, Array.getElem_map, Array.getElem_range]

/-- The totals say for a codeword what the soft bits say. Soft bits of one code
bit have one sign, so they may be added up first, and placeholders say nothing.
-/
theorem merit_eq_agreement (softBits : Array SoftBit) {message w : Bits}
    (hbits : message.HasOnly01) (h : encode message m = .ok w) :
    merit softBits w = agreement message.size m softBits message := by
  simp only [agreement, total, signed_sum]
  rw [sum_codePosition message.size m softBits.size fun p k =>
    signed (codeBit message p) (level softBits k), merit]
  refine Finset.sum_congr rfl fun k hk => ?_
  rw [getD_repeatTo w (Finset.mem_range.mp hk)]
  rcases element_encode h k with ⟨p, hp, hbit⟩ | ⟨hnone, hplaceholder⟩
  · rw [hp, hbit, vote_eq_signed (codeBit_only01 hbits p)]
    rfl
  · rw [hnone]
    rcases hplaceholder with hone | hprevious
    · rw [hone]
      rfl
    · rw [hprevious]
      rfl

/-! ## The search over the candidates -/

/-- The first number below `count` that has the greatest value. -/
structure IsFirstMost (value : ℕ → ℤ) (count winner : ℕ) : Prop where
  lt : winner < count
  most : ∀ v < count, value v ≤ value winner
  first : ∀ v < winner, value v < value winner

/-- The only candidate is the first best one. -/
theorem isFirstMost_one (value : ℕ → ℤ) : IsFirstMost value 1 0 where
  lt := Nat.one_pos
  most v hv := by rw [Nat.lt_one_iff.mp hv]
  first v hv := absurd hv v.not_lt_zero

/-- One candidate more: it wins only if it is better than all before it, so ties
go to the first. -/
theorem IsFirstMost.succ {value : ℕ → ℤ} {count winner : ℕ} (h : IsFirstMost value count winner) :
    IsFirstMost value (count + 1) (if value winner < value count then count else winner) := by
  split
  · rename_i hmore
    have hbelow : ∀ v < count, value v < value count := fun v hv => (h.most v hv).trans_lt hmore
    refine ⟨count.lt_succ_self, fun v hv => ?_, hbelow⟩
    rcases Nat.lt_succ_iff_lt_or_eq.mp hv with hv | rfl
    · exact (hbelow v hv).le
    · exact le_rfl
  · rename_i hless
    refine ⟨h.lt.trans count.lt_succ_self, fun v hv => ?_, h.first⟩
    rcases Nat.lt_succ_iff_lt_or_eq.mp hv with hv | rfl
    · exact h.most v hv
    · exact not_lt.mp hless

/-- A search over numbers whose scores are exact finds the first best one.
Exactness makes the comparisons those of the integers. -/
theorem exists_search {score : ℕ → Float32} {value : ℕ → ℤ} (h : ∀ v, IsWhole (score v) (value v))
    {count : ℕ} (hcount : 1 ≤ count) :
    ∃ winner, IsFirstMost value count winner ∧
      (List.range count).foldl
        (fun most v => if most.2 < score v then (v, score v) else most)
        (0, Single.negInfinity) = (winner, score winner) := by
  induction count, hcount using Nat.le_induction with
  | base => exact ⟨0, isFirstMost_one value, if_pos (h 0).negInfinity_lt⟩
  | succ count _ ih =>
    obtain ⟨winner, hfirst, hfold⟩ := ih
    refine ⟨_, hfirst.succ, ?_⟩
    rw [List.range_succ, List.foldl_append, hfold, List.foldl_cons, List.foldl_nil]
    by_cases hmore : value winner < value count
    · rw [if_pos hmore]
      exact if_pos (((h winner).lt_iff (h count)).mpr hmore)
    · rw [if_neg hmore]
      exact if_neg (mt ((h winner).lt_iff (h count)).mp hmore)

/-- The first candidate whose code bits agree best with the totals. -/
def IsBest (n : ℕ) (m : Modulation) (softBits : Array SoftBit) (winner : ℕ) : Prop :=
  IsFirstMost (fun v => agreement n m softBits (messageOf n v)) (2 ^ n) winner

/-- The decoder finds the first best candidate. -/
theorem exists_best (n : ℕ) (hsum : magnitude softBits < 2 ^ 24) :
    ∃ winner, IsBest n m softBits winner ∧ best n (combine n m softBits) =
      (winner, correlation (combine n m softBits) (messageOf n winner)) :=
  exists_search (fun v => isWhole_correlation hsum (messageOf n v)) Nat.one_le_two_pow

/-! ## The status -/

/-- The part of the greatest possible agreement that was reached; none if
nothing is possible. -/
inductive IsPart (reached possible : ℤ) : Float32 → Prop
  | none (h : possible ≤ 0) : IsPart reached possible 0
  | quotient {x y : Float32} (h : 0 < possible) (hx : IsWhole x reached) (hy : IsWhole y possible) :
      IsPart reached possible (x / y)

namespace IsPart

variable {reached possible : ℤ} {part : Float32}

/-- Where something was reached, the part of it is more than nothing. -/
theorem zero_lt (h : IsPart reached possible part) (hpossible : 0 < possible)
    (hreached : 0 < reached) : 0 < part := by
  cases h with
  | none h => exact absurd hpossible (not_lt.mpr h)
  | quotient _ hx hy => exact hx.zero_lt_div hy hreached hpossible

/-- No message is trusted if nothing is possible: the part of nothing is zero,
and no threshold is below that. -/
theorem not_threshold_lt (h : IsPart reached possible part) (hpossible : possible ≤ 0) (n : ℕ) :
    ¬ threshold n < part := by
  cases h with
  | none h =>
    rw [threshold]
    split
    · decide
    · decide
  | quotient h => exact absurd hpossible (not_le.mpr h)

/-- A message is trusted if all that is possible was reached, as every threshold
is below one. -/
theorem threshold_lt (h : IsPart possible possible part) (hpossible : 0 < possible) (n : ℕ) :
    threshold n < part := by
  cases h with
  | none h => exact absurd hpossible (not_lt.mpr h)
  | quotient _ hx hy =>
    have hone : IsWhole 1 1 := isWhole_toFloat32 1
    rw [(hx.div_self hy hpossible).lt_congr hone Int.one_pos, threshold]
    split
    · decide
    · decide

end IsPart

/-- Something is possible exactly if some total is not zero. -/
theorem energy_pos_iff :
    0 < energy n m softBits ↔ ∃ p < codeLength n, total n m softBits p ≠ 0 := by
  rw [energy, Finset.sum_pos_iff_of_nonneg fun p _ => abs_nonneg _]
  simp only [Finset.mem_range, abs_pos]

/-- The two values of one bit are opposite, so one of them is positive unless
the total is zero. -/
theorem agreement_one (m : Modulation) (softBits : Array SoftBit) :
    agreement 1 m softBits (messageOf 1 0) = total 1 m softBits 0 ∧
    agreement 1 m softBits (messageOf 1 1) = -total 1 m softBits 0 := by
  have hcode : codeBit (messageOf 1 0) 0 = 0 ∧ codeBit (messageOf 1 1) 0 = 1 := by decide +kernel
  simp [agreement, codeLength, signed, hcode]

/-- The four values of two bits add up to zero, so the greatest of them is never
negative. -/
theorem agreement_two (m : Modulation) (softBits : Array SoftBit) :
    agreement 2 m softBits (messageOf 2 0) =
      total 2 m softBits 0 + total 2 m softBits 1 + total 2 m softBits 2 ∧
    agreement 2 m softBits (messageOf 2 1) =
      total 2 m softBits 0 - total 2 m softBits 1 - total 2 m softBits 2 ∧
    agreement 2 m softBits (messageOf 2 2) =
      -total 2 m softBits 0 + total 2 m softBits 1 - total 2 m softBits 2 ∧
    agreement 2 m softBits (messageOf 2 3) =
      -total 2 m softBits 0 - total 2 m softBits 1 + total 2 m softBits 2 := by
  have hcode : ∀ v < 4, (codeBit (messageOf 2 v) 0 = 0 ↔ v < 2) ∧
      (codeBit (messageOf 2 v) 1 = 0 ↔ v % 2 = 0) ∧
      (codeBit (messageOf 2 v) 2 = 0 ↔ v = 0 ∨ v = 3) := by decide +kernel
  simp [agreement, codeLength, signed, Finset.sum_range_succ, hcode, sub_eq_add_neg]

/-- A best message of one or two bits has a positive value, unless all totals
are zero: the values of all messages add up to zero, and are not all zero. -/
theorem IsBest.agreement_pos {winner : ℕ} (h : IsBest n m softBits winner) (hpos : 1 ≤ n)
    (hshort : n ≤ 2) (henergy : 0 < energy n m softBits) :
    0 < agreement n m softBits (messageOf n winner) := by
  obtain ⟨p, hp, htotal⟩ := energy_pos_iff.mp henergy
  obtain rfl | rfl : n = 1 ∨ n = 2 := by omega
  · obtain rfl : p = 0 := Nat.lt_one_iff.mp hp
    obtain ⟨hzero, hone⟩ := agreement_one m softBits
    have hmost0 := hzero ▸ h.most 0 (by decide)
    have hmost1 := hone ▸ h.most 1 (by decide)
    omega
  · have hplace : p = 0 ∨ p = 1 ∨ p = 2 := by
      have hlt : p < 3 := hp
      omega
    obtain ⟨hzero, hone, htwo, hthree⟩ := agreement_two m softBits
    have hmost0 := hzero ▸ h.most 0 (by decide)
    have hmost1 := hone ▸ h.most 1 (by decide)
    have hmost2 := htwo ▸ h.most 2 (by decide)
    have hmost3 := hthree ▸ h.most 3 (by decide)
    rcases hplace with rfl | rfl | rfl <;> omega

/-! ## Decoding -/

/-- The first best candidate is detected, with its part of the greatest possible
value. -/
theorem exists_detect (n : ℕ) (m : Modulation) (hsum : magnitude softBits < 2 ^ 24) :
    ∃ winner part, IsBest n m softBits winner ∧
      IsPart (agreement n m softBits (messageOf n winner)) (energy n m softBits) part ∧
      detect n (combine n m softBits) = (winner, part) := by
  obtain ⟨winner, hfirst, hbest⟩ := exists_best (m := m) n hsum
  have henergy := isWhole_energy (n := n) (m := m) hsum
  have hpositive := Single.isWhole_zero.lt_iff henergy
  rw [detect, hbest]
  by_cases h : 0 < energy n m softBits
  · exact ⟨winner, _, hfirst, .quotient h (isWhole_correlation hsum _) henergy,
      congrArg (Prod.mk winner) (if_pos (hpositive.mpr h))⟩
  · exact ⟨winner, 0, hfirst, .none (not_lt.mp h),
      congrArg (Prod.mk winner) (if_neg (mt hpositive.mp h))⟩

/-- The detected message is decoded, and its part decides on the status alone.
-/
theorem exists_decode (m : Modulation) (hpos : 1 ≤ n) (hle : n ≤ maxLength)
    (hsum : magnitude softBits < 2 ^ 24) :
    ∃ winner part, IsBest n m softBits winner ∧
      IsPart (agreement n m softBits (messageOf n winner)) (energy n m softBits) part ∧
      decode n m softBits =
        .ok (messageOf n winner, if threshold n < part then .valid else .invalid) := by
  obtain ⟨winner, part, hfirst, hpart, hdetect⟩ := exists_detect n m hsum
  refine ⟨winner, part, hfirst, hpart, ?_⟩
  rw [decode, require_length hpos hle, ok_bind, hdetect]
  rfl

/-- The message is a best one for the soft bits, and of several the one with the
lowest number. -/
structure Likeliest (m : Modulation) (softBits : Array SoftBit) (message : Bits) : Prop where
  only01 : message.HasOnly01
  most : ∃ w, encode message m = .ok w ∧
    ∀ other : Bits, other.HasOnly01 → other.size = message.size →
      ∃ w', encode other m = .ok w' ∧ merit softBits w' ≤ merit softBits w ∧
        (merit softBits w' = merit softBits w → number message ≤ number other)

/-- The first best number is that of the likeliest message: what is said of
totals is said of soft bits, and every message of the length has a number. -/
theorem IsBest.likeliest {winner : ℕ} (h : IsBest n m softBits winner) (hpos : 1 ≤ n)
    (hle : n ≤ maxLength) : Likeliest m softBits (messageOf n winner) := by
  have hsize := size_messageOf n winner
  have hbits := messageOf_only01 n winner
  obtain ⟨w, hw⟩ := exists_encode m (hsize.symm ▸ hpos) (hsize.trans_le hle)
  refine ⟨hbits, w, hw, fun other hother hotherSize => ?_⟩
  rw [hsize] at hotherSize
  obtain ⟨w', hw'⟩ := exists_encode m (hotherSize.symm ▸ hpos) (hotherSize.trans_le hle)
  obtain ⟨hlt, hnumber⟩ := messageOf_number hother
  have hmerit := merit_eq_agreement softBits hbits hw
  have hmerit' := merit_eq_agreement softBits hother hw'
  rw [hsize] at hmerit
  rw [hotherSize] at hlt hnumber hmerit'
  refine ⟨w', hw', ?_, fun heq => ?_⟩
  · rw [hmerit, hmerit', ← hnumber]
    exact h.most _ hlt
  · rw [number_messageOf h.lt]
    by_contra hbefore
    have hless := h.first _ (not_le.mp hbefore)
    rw [hmerit, hmerit', ← hnumber] at heq
    exact hless.ne heq

/-- The decoder finds the likeliest message. With one or two bits it is valid
exactly if some total is not zero, and with more bits it is not valid if all
totals are zero. -/
theorem decode_likeliest (m : Modulation) (hpos : 1 ≤ n) (hle : n ≤ maxLength)
    (hsum : magnitude softBits < 2 ^ 24) :
    ∃ message status, decode n m softBits = .ok (message, status) ∧ message.size = n ∧
      Likeliest m softBits message ∧
      (n ≤ 2 → (status = .valid ↔ ∃ p < codeLength n, total n m softBits p ≠ 0)) ∧
      (3 ≤ n → (∀ p < codeLength n, total n m softBits p = 0) → status = .invalid) := by
  obtain ⟨winner, part, hfirst, hpart, hdecode⟩ := exists_decode m hpos hle hsum
  refine ⟨_, _, hdecode, size_messageOf n winner, hfirst.likeliest hpos hle, ?_, ?_⟩
  · intro hshort
    have hthreshold : threshold n = 0 := if_pos hshort
    rw [← energy_pos_iff]
    constructor
    · intro hvalid
      by_contra henergy
      rw [if_neg (hpart.not_threshold_lt (not_lt.mp henergy) n)] at hvalid
      cases hvalid
    · intro henergy
      rw [hthreshold, if_pos (hpart.zero_lt henergy (hfirst.agreement_pos hpos hshort henergy))]
  · intro _ hzero
    have henergy : ¬ 0 < energy n m softBits := fun h => by
      obtain ⟨p, hp, hne⟩ := energy_pos_iff.mp h
      exact hne (hzero p hp)
    rw [if_neg (hpart.not_threshold_lt (not_lt.mp henergy) n)]

/-- Two bits from the four soft bits of a symbol with two placeholders. -/
theorem decode_likeliest_two :
    ∃ message status, decode 2 .qam16 #[⟨5⟩, ⟨-3⟩, ⟨1⟩, ⟨0⟩] = .ok (message, status) ∧
      message.size = 2 ∧ Likeliest .qam16 #[⟨5⟩, ⟨-3⟩, ⟨1⟩, ⟨0⟩] message ∧
      (2 ≤ 2 → (status = .valid ↔
        ∃ p < codeLength 2, total 2 .qam16 #[⟨5⟩, ⟨-3⟩, ⟨1⟩, ⟨0⟩] p ≠ 0)) ∧
      (3 ≤ 2 → (∀ p < codeLength 2, total 2 .qam16 #[⟨5⟩, ⟨-3⟩, ⟨1⟩, ⟨0⟩] p = 0) →
        status = .invalid) :=
  decode_likeliest .qam16 (by decide) (by decide) (by decide +kernel)

end ShortBlock

end Uplink
