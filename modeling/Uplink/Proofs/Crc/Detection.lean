import Mathlib.RingTheory.Polynomial.DegreeLT
import Uplink.Proofs.Crc

/-!
# Detected errors

A flipped bit adds a power of `X` to the polynomial of a sequence. A checked message with flipped
bits passes the check again only if the generator divides the sum of these powers. It has more
places than a short burst, and it has the root one, which no sum of an odd number of powers has.

- `Bits.flip`, `Bits.errors`: flipped bits and their polynomial.
- `Crc.not_dvd_of_burst`, `Crc.not_dvd_of_odd`: errors that the generator does not divide.
- `Crc.ofBits_flip_ne_zero`: bursts of at most as many bits as the parity has, and odd numbers of
  errors, are detected.
-/

namespace Uplink

open Polynomial

/-! ## Flipped bits -/

namespace Bits

/-- The sequence with the bits at the given places flipped. -/
def flip (bits : Bits) (places : Finset ℕ) : Bits :=
  bits.mapIdx fun i b => if i ∈ places then b ^^^ 1 else b

/-- The powers that flipped bits of a sequence of `size` bits add. -/
noncomputable def errors (size : ℕ) (places : Finset ℕ) : (ZMod 2)[X] :=
  ∑ i ∈ places, X ^ (size - 1 - i)

@[simp] theorem size_flip (bits : Bits) (places : Finset ℕ) :
    (flip bits places).size = bits.size := by
  simp [flip]

/-- Flipping bits adds a power of `X` for each of them, whatever the bits are.
-/
theorem polynomial_flip (bits : Bits) {places : Finset ℕ} (h : ∀ i ∈ places, i < bits.size) :
    polynomial (flip bits places) = polynomial bits + errors bits.size places := by
  have hinside : places = (Finset.range bits.size).filter (· ∈ places) := by
    ext i
    simp only [Finset.mem_filter, Finset.mem_range]
    exact ⟨fun hi => ⟨h i hi, hi⟩, And.right⟩
  rw [polynomial, size_flip, polynomial, errors, hinside, Finset.sum_filter,
    ← Finset.sum_add_distrib, ← hinside]
  refine Finset.sum_congr rfl fun i hi => ?_
  have hlt := Finset.mem_range.mp hi
  have hget : (flip bits places).getD i 0 =
      if i ∈ places then bits.getD i 0 ^^^ 1 else bits.getD i 0 := by
    simp [flip, hlt, Buffer.getD_of_lt hlt]
  rw [hget]
  split
  · rw [coefficient_xor, coefficient_one, map_add, map_one, add_mul, one_mul]
  · rw [add_zero]

/-- Places are counted from the end: bits behind the last error only add a power
of `X`. -/
theorem errors_add {size : ℕ} {places : Finset ℕ} (h : ∀ i ∈ places, i < size) (behind : ℕ) :
    errors (size + behind) places = errors size places * X ^ behind := by
  rw [errors, errors, Finset.sum_mul]
  refine Finset.sum_congr rfl fun i hi => ?_
  have hlt := h i hi
  rw [← pow_add]
  congr 1
  omega

/-- Each flipped bit has a power of its own, so the powers do not cancel. -/
theorem coeff_errors {size i : ℕ} {places : Finset ℕ} (h : ∀ i ∈ places, i < size)
    (hi : i ∈ places) : (errors size places).coeff (size - 1 - i) = 1 := by
  rw [errors, finsetSum_coeff, Finset.sum_eq_single_of_mem i hi]
  · rw [coeff_X_pow, if_pos rfl]
  · intro j hj hne
    have hlt := h i hi
    have hlt' := h j hj
    rw [coeff_X_pow, if_neg (by omega)]

/-- Errors close to the end have low powers only. -/
theorem degree_errors_lt {size n : ℕ} {places : Finset ℕ}
    (h : ∀ i ∈ places, size - 1 - i < n) : (errors size places).degree < n := by
  rw [← mem_degreeLT]
  refine Submodule.sum_mem _ fun i hi => ?_
  rw [mem_degreeLT, degree_X_pow]
  exact_mod_cast h i hi

end Bits

/-! ## Errors that the generator does not divide -/

namespace Crc

variable (crc : Crc)

/-- A burst is a power of `X` times a polynomial below the generator. The
generator shares no factor with the power, and the polynomial is not zero. -/
theorem not_dvd_of_burst {size first : ℕ} {places : Finset ℕ} (hplaces : places.Nonempty)
    (hinside : ∀ i ∈ places, i < size)
    (hburst : ∀ i ∈ places, first ≤ i ∧ i < first + crc.order) :
    ¬ crc.polynomial ∣ Bits.errors size places := by
  obtain ⟨i, hi⟩ := hplaces
  -- the sequence up to where the burst has to end
  obtain ⟨stop, behind, rfl, hstop, hle⟩ : ∃ stop behind, size = stop + behind ∧
      (∀ i ∈ places, i < stop) ∧ stop ≤ first + crc.order := by
    refine ⟨min size (first + crc.order), size - min size (first + crc.order), by omega,
      fun i hi => ?_, min_le_right _ _⟩
    exact lt_min (hinside i hi) (hburst i hi).2
  rw [Bits.errors_add hstop]
  intro hdvd
  have hdegree : (Bits.errors stop places).degree < crc.polynomial.degree := by
    rw [degree_polynomial]
    refine Bits.degree_errors_lt fun i hi => ?_
    have hfirst := (hburst i hi).1
    have hpos := crc.order_pos
    omega
  have hzero := eq_zero_of_dvd_of_degree_lt
    ((crc.isCoprime_X_pow behind).dvd_of_dvd_mul_right hdvd) hdegree
  have hcoeff := Bits.coeff_errors hstop hi
  rw [hzero, coeff_zero] at hcoeff
  exact zero_ne_one hcoeff

/-- Every generator has an even number of terms. -/
theorem eval_one_polynomial : crc.polynomial.eval 1 = 0 := by
  have hsum : (1 : ZMod 2) +
      ∑ i ∈ Finset.range 32, ((place crc.generator i).toNat : ZMod 2) = 0 := by
    cases crc <;> decide
  rw [polynomial, wordPolynomial, eval_add, eval_finsetSum]
  simpa using hsum

/-- The generator has the root one, and an odd number of powers of `X` has not.
-/
theorem not_dvd_of_odd {size : ℕ} {places : Finset ℕ} (hodd : Odd places.card) :
    ¬ crc.polynomial ∣ Bits.errors size places := by
  intro hdvd
  have hroot := eval_eq_zero_of_dvd_of_eval_eq_zero hdvd crc.eval_one_polynomial
  rw [Bits.errors, eval_finsetSum] at hroot
  simp only [eval_pow, eval_X, one_pow, Finset.sum_const, nsmul_eq_mul, mul_one] at hroot
  rw [ZMod.natCast_eq_zero_iff_even] at hroot
  exact Nat.not_even_iff_odd.mpr hodd hroot

/-! ## Checked messages -/

/-- A message of any length with its parity, in which bits are flipped: if all
of them lie within as many consecutive places as there are parity bits, or if
their number is odd, the check is not zero. -/
theorem ofBits_flip_ne_zero (message : Bits) {places : Finset ℕ} (hplaces : places.Nonempty)
    (hinside : ∀ i ∈ places, i < (message ++ crc.parity message).size)
    (hpattern : (∃ first, ∀ i ∈ places, first ≤ i ∧ i < first + crc.order) ∨ Odd places.card) :
    crc.ofBits (Bits.flip (message ++ crc.parity message) places) ≠ 0 := by
  intro hzero
  have hsent := (crc.ofBits_eq_zero_iff _).mp (crc.ofBits_append_parity message)
  rw [ofBits_eq_zero_iff, Bits.polynomial_flip _ hinside, dvd_add_right hsent] at hzero
  rcases hpattern with ⟨first, hburst⟩ | hodd
  · exact crc.not_dvd_of_burst hplaces hinside hburst hzero
  · exact crc.not_dvd_of_odd hodd hzero

/-- The first bit and the last parity bit of a message of one bit. -/
theorem ofBits_flip_ne_zero_ends :
    ({0, 15} : Finset ℕ).Nonempty ∧
      (∀ i ∈ ({0, 15} : Finset ℕ), i < (#[1] ++ crc16.parity #[1]).size) ∧
      ((∃ first, ∀ i ∈ ({0, 15} : Finset ℕ), first ≤ i ∧ i < first + crc16.order) ∨
        Odd ({0, 15} : Finset ℕ).card) ∧
      crc16.ofBits (Bits.flip (#[1] ++ crc16.parity #[1]) {0, 15}) ≠ 0 := by
  have hplaces : ({0, 15} : Finset ℕ).Nonempty := ⟨0, by decide⟩
  have hinside : ∀ i ∈ ({0, 15} : Finset ℕ), i < (#[1] ++ crc16.parity #[1]).size := by
    rw [Array.size_append, size_parity]
    decide
  have hpattern : (∃ first, ∀ i ∈ ({0, 15} : Finset ℕ), first ≤ i ∧ i < first + crc16.order) ∨
      Odd ({0, 15} : Finset ℕ).card := .inl ⟨0, by decide⟩
  exact ⟨hplaces, hinside, hpattern, crc16.ofBits_flip_ne_zero #[1] hplaces hinside hpattern⟩

end Crc

end Uplink
