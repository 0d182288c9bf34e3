import Uplink.Proofs.Single.Whole
import Uplink.Proofs.Uci.Codeword

/-!
# Totals of soft bits

The decoder adds the soft bits of each code bit in single precision, and it adds the totals again
with the signs of a codeword. As long as the magnitudes of all soft bits add up to less than the
24th power of two, each of these sums is exact.

- `ShortBlock.total`, `ShortBlock.isWhole_combine`: the soft bits of a code bit.
- `ShortBlock.agreement`, `ShortBlock.isWhole_correlation`: the totals with the signs of a codeword.
- `ShortBlock.energy`, `ShortBlock.isWhole_energy`: the magnitudes of the totals.
-/

namespace Uplink

namespace ShortBlock

open Finset (range)
open Single (IsWhole isWhole_sum isWhole_zero isWhole_ofInt8)

/-! ## Soft bits -/

/-- The value of the soft bit at place `k`. -/
def level (softBits : Array SoftBit) (k : ℕ) : ℤ := (softBits.getD k .erased).value.toInt

/-- The magnitudes of all soft bits together. -/
def magnitude (softBits : Array SoftBit) : ℤ := ∑ k ∈ range softBits.size, |level softBits k|

/-- The soft bits of code bit `p` together. -/
def total (n : ℕ) (m : Modulation) (softBits : Array SoftBit) (p : ℕ) : ℤ :=
  ∑ k ∈ range softBits.size with codePosition n m k = some p, level softBits k

variable {n : ℕ} {m : Modulation} {softBits : Array SoftBit}

theorem level_push_of_lt {k : ℕ} (hk : k < softBits.size) (a : SoftBit) :
    level (softBits.push a) k = level softBits k := by
  simp [level, Array.getD_eq_getD_getElem?, Array.getElem?_push, hk.ne]

theorem level_push_self (softBits : Array SoftBit) (a : SoftBit) :
    level (softBits.push a) softBits.size = a.value.toInt := by
  simp [level]

theorem magnitude_push (softBits : Array SoftBit) (a : SoftBit) :
    magnitude (softBits.push a) = magnitude softBits + |a.value.toInt| := by
  rw [magnitude, Array.size_push, Finset.sum_range_succ, level_push_self]
  congr 1
  exact Finset.sum_congr rfl fun k hk => by rw [level_push_of_lt (Finset.mem_range.mp hk)]

/-- A further soft bit is added to the total of its own code bit, and to no
other. -/
theorem total_push (n : ℕ) (m : Modulation) (softBits : Array SoftBit) (a : SoftBit) (p : ℕ) :
    total n m (softBits.push a) p = total n m softBits p +
      if codePosition n m softBits.size = some p then a.value.toInt else 0 := by
  simp only [total, Finset.sum_filter]
  rw [Array.size_push, Finset.sum_range_succ, level_push_self]
  congr 1
  exact Finset.sum_congr rfl fun k hk => by rw [level_push_of_lt (Finset.mem_range.mp hk)]

/-- What is summed by code bits is summed once, except at placeholders. No soft
bit counts for two code bits. -/
theorem sum_codePosition (n : ℕ) (m : Modulation) (size : ℕ) (f : ℕ → ℕ → ℤ) :
    ∑ p ∈ range (codeLength n), ∑ k ∈ range size with codePosition n m k = some p, f p k =
      ∑ k ∈ range size, (codePosition n m k).elim 0 fun p => f p k := by
  simp only [Finset.sum_filter]
  rw [Finset.sum_comm]
  refine Finset.sum_congr rfl fun k _ => ?_
  cases hk : codePosition n m k with
  | none => simp
  | some q =>
    have hq := codePosition_lt hk
    simp [hq]

/-! ## Magnitudes of the totals -/

/-- The magnitudes of the totals together. -/
def energy (n : ℕ) (m : Modulation) (softBits : Array SoftBit) : ℤ :=
  ∑ p ∈ range (codeLength n), |total n m softBits p|

/-- Totals are not greater than what they are made of, so a bound on the soft
bits bounds all that the decoder computes. -/
theorem energy_le (n : ℕ) (m : Modulation) (softBits : Array SoftBit) :
    energy n m softBits ≤ magnitude softBits :=
  calc energy n m softBits
      ≤ ∑ p ∈ range (codeLength n), ∑ k ∈ range softBits.size with codePosition n m k = some p,
          |level softBits k| := Finset.sum_le_sum fun p _ => Finset.abs_sum_le_sum_abs _ _
    _ = ∑ k ∈ range softBits.size, (codePosition n m k).elim 0 fun _ => |level softBits k| :=
        sum_codePosition n m softBits.size fun _ k => |level softBits k|
    _ ≤ magnitude softBits := Finset.sum_le_sum fun k _ => by
        cases codePosition n m k with
        | none => exact abs_nonneg _
        | some p => exact le_rfl

theorem abs_total_le {p : ℕ} (hp : p < codeLength n) :
    |total n m softBits p| ≤ magnitude softBits :=
  (Finset.single_le_sum (fun p _ => abs_nonneg (total n m softBits p))
    (Finset.mem_range.mpr hp)).trans (energy_le n m softBits)

/-! ## The soft bits of each code bit -/

/-- A soft bit enters the sum of its code bit; at a placeholder it is left out.
-/
theorem combine_push (n : ℕ) (m : Modulation) (softBits : Array SoftBit) (a : SoftBit) :
    combine n m (softBits.push a) =
      match codePosition n m softBits.size with
      | some p => (combine n m softBits).modify p (· + a.toSingle)
      | none => combine n m softBits := by
  unfold combine
  rw [Array.foldl_push]
  generalize hstate : softBits.foldl _ _ = state
  have hplace : state.2 = softBits.size := by
    rw [← hstate]
    exact Array.foldl_induction (fun i (state : Array Float32 × ℕ) => state.2 = i) rfl
      fun i state hi => congrArg (· + 1) hi
  obtain ⟨sums, k⟩ := state
  obtain rfl : k = softBits.size := hplace
  rfl

@[simp] theorem size_combine (n : ℕ) (m : Modulation) (softBits : Array SoftBit) :
    (combine n m softBits).size = codeLength n := by
  induction softBits using Buffer.push_induction with
  | empty => exact Array.size_replicate
  | push softBits a ih =>
    rw [combine_push]
    split
    · rwa [Array.size_modify]
    · exact ih

/-- The sums of the decoder are the totals. In single precision they are exact
as long as the magnitudes add up to less than `2 ^ 24`. -/
theorem isWhole_combine (h : magnitude softBits < 2 ^ 24) {p : ℕ}
    (hp : p < (combine n m softBits).size) :
    IsWhole (combine n m softBits)[p] (total n m softBits p) := by
  induction softBits using Buffer.push_induction with
  | empty =>
    have hzero : (combine n m #[])[p] = 0 := Array.getElem_replicate _
    rw [hzero]
    exact isWhole_zero
  | push softBits a ih =>
    have hlt : p < codeLength n := by rwa [size_combine] at hp
    have hbefore : magnitude softBits < 2 ^ 24 := by
      rw [magnitude_push] at h
      exact (le_add_of_nonneg_right (abs_nonneg _)).trans_lt h
    have hbound := (abs_total_le (m := m) hlt).trans_lt h
    have hsum := ih hbefore (by rwa [size_combine])
    rw [total_push] at hbound ⊢
    -- only the sum of the soft bit's own code bit changes
    cases hk : codePosition n m softBits.size with
    | none =>
      have hsame : combine n m (softBits.push a) = combine n m softBits := by rw [combine_push, hk]
      rw [if_neg nofun, add_zero]
      simpa only [hsame] using hsum
    | some q =>
      have hnext : combine n m (softBits.push a) =
          (combine n m softBits).modify q (· + a.toSingle) := by rw [combine_push, hk]
      simp only [hnext, Array.getElem_modify]
      rw [hk] at hbound
      by_cases hq : q = p
      · rw [if_pos (congrArg some hq)] at hbound ⊢
        rw [if_pos hq]
        exact hsum.add (isWhole_ofInt8 a.value) hbound
      · rw [if_neg (mt Option.some.inj hq), add_zero, if_neg hq]
        exact hsum

/-! ## Correlations -/

/-- A total with the sign of a code bit. -/
def signed (bit : UInt8) (v : ℤ) : ℤ := if bit = 0 then v else -v

/-- The totals with the signs of the codeword of a message together. -/
def agreement (n : ℕ) (m : Modulation) (softBits : Array SoftBit) (message : Bits) : ℤ :=
  ∑ p ∈ range (codeLength n), signed (codeBit message p) (total n m softBits p)

/-- A sign does not change a magnitude. -/
theorem abs_signed (bit : UInt8) (v : ℤ) : |signed bit v| = |v| := by
  rw [signed]
  split
  · rfl
  · exact abs_neg v

/-- The correlation of a candidate is exact, because it adds the totals with
signs. -/
theorem isWhole_correlation (h : magnitude softBits < 2 ^ 24) (message : Bits) :
    IsWhole (correlation (combine n m softBits) message) (agreement n m softBits message) := by
  rw [correlation, agreement, ← size_combine n m softBits, ← Array.size_mapIdx]
  refine isWhole_sum (fun p hp => ?_) ?_
  · have hlt : p < (combine n m softBits).size := by rwa [Array.size_mapIdx] at hp
    rw [Array.getElem_mapIdx, signed]
    split
    · exact isWhole_combine h hlt
    · exact (isWhole_combine h hlt).neg
  · simp only [abs_signed, Array.size_mapIdx, size_combine]
    exact (energy_le n m softBits).trans_lt h

/-- The greatest possible correlation is exact as well. -/
theorem isWhole_energy (h : magnitude softBits < 2 ^ 24) :
    IsWhole (Single.sum ((combine n m softBits).map (·.abs))) (energy n m softBits) := by
  rw [energy, ← size_combine n m softBits, ← Array.size_map]
  refine isWhole_sum (fun p hp => ?_) ?_
  · rw [Array.getElem_map]
    exact (isWhole_combine h (by rwa [Array.size_map] at hp)).abs
  · simp only [abs_abs, Array.size_map, size_combine]
    exact (energy_le n m softBits).trans_lt h

end ShortBlock

end Uplink
