import Uplink.Proofs.Crc.Table

/-!
# Checks and parity bits

- `Crc.ofBits_append_parity`: a message followed by its parity has the check zero.
- `Crc.eq_parity`: bits that complete a message to the check zero are its parity.
- `Crc.wordPolynomial_ofBits`: the check is the remainder that the generator leaves.
- `Crc.ofBits_eq_zero_iff`: the check is zero for the multiples of the generator.
- `Crc.check_exact`: bits, bytes and parity together.
-/

namespace Uplink

open Polynomial

namespace Crc

variable (crc : Crc)

/-- A check fits the register, so its places beyond the order are empty. -/
theorem fits_ofBits (bits : Bits) : crc.Fits (crc.ofBits bits) := by
  rw [ofBits_eq_foldl]
  exact crc.fits_foldl crc.fits_zero bits.toList

/-- The check of a concatenation continues with the register of its first part.
A check can therefore be found piece by piece. -/
theorem ofBits_append (a b : Bits) :
    crc.ofBits (a ++ b) = b.toList.foldl crc.step (crc.ofBits a) := by
  simp [ofBits_eq_foldl]

/-! ## Parity -/

theorem parity_only01 (bits : Bits) : (crc.parity bits).HasOnly01 :=
  crc.registerBits_only01 _

/-- The sequences that complete a message to the check zero: their bits are the
places of the message's own check, from the highest on. -/
theorem ofBits_append_eq_zero_iff {message tail : Bits} (hsize : tail.size = crc.order) :
    crc.ofBits (message ++ tail) = 0 ↔
      ∀ i < crc.order, place (crc.ofBits message) (crc.order - 1 - i) =
        (tail.getD i 0 &&& 1 != 0) := by
  rw [ofBits_append,
    foldl_step_eq_zero_iff crc (by simp [hsize]) (crc.fits_ofBits message)]
  simp [Array.getD_eq_getD_getElem?, List.getD_eq_getElem?_getD]

/-- A message followed by its parity has the check zero. -/
theorem ofBits_append_parity (message : Bits) :
    crc.ofBits (message ++ crc.parity message) = 0 := by
  rw [ofBits_append_eq_zero_iff crc (crc.size_parity message)]
  intro i hi
  rw [parity, getD_registerBits crc hi]
  cases place (crc.ofBits message) (crc.order - 1 - i) <;> rfl

/-- Bits that complete a message to the check zero are its parity. There is only
one such sequence of the order's length. -/
theorem eq_parity {message tail : Bits} (hsize : tail.size = crc.order) (hbits : tail.HasOnly01)
    (h : crc.ofBits (message ++ tail) = 0) : tail = crc.parity message := by
  rw [ofBits_append_eq_zero_iff crc hsize] at h
  apply Array.ext
  · rw [hsize, size_parity]
  · intro i h₁ h₂
    have hi : i < crc.order := by omega
    rw [← Buffer.getD_of_lt h₁ 0, ← Buffer.getD_of_lt h₂ 0, parity, getD_registerBits crc hi,
      h i hi]
    rcases hbits.getD i with hb | hb <;> rw [hb] <;> rfl

/-- Zero bits pass every check, which is why a decoder must not trust a check
alone. -/
theorem ofBits_of_zeros {bits : Bits} (h : ∀ b ∈ bits, b = 0) : crc.ofBits bits = 0 := by
  have hstep : crc.step 0 0 = 0 := by cases crc <;> decide
  rw [ofBits_eq_foldl]
  have hlist : ∀ b ∈ bits.toList, b = 0 := fun b hb => h b (Array.mem_toList_iff.mp hb)
  generalize bits.toList = l at hlist
  induction l with
  | nil => rfl
  | cons b l ih =>
    rw [List.foldl_cons, hlist b List.mem_cons_self, hstep]
    exact ih fun c hc => hlist c (List.mem_cons_of_mem b hc)

/-! ## Division -/

/-- The register after all bits is congruent to the message, moved up by the
order. -/
theorem congruent_ofBits (bits : Bits) :
    crc.Congruent (wordPolynomial (crc.ofBits bits)) (Bits.polynomial bits * X ^ crc.order) := by
  have hbits := crc.congruent_foldl crc.fits_zero bits.toList
  rwa [wordPolynomial_zero, zero_mul, zero_add, ← ofBits_eq_foldl] at hbits

/-- The check is the remainder that the generator leaves of the message, moved
up by the order: it is congruent to it, and its degree is below that of the
generator. -/
theorem wordPolynomial_ofBits (bits : Bits) :
    wordPolynomial (crc.ofBits bits) = (Bits.polynomial bits * X ^ crc.order) %ₘ crc.polynomial :=
  crc.wordPolynomial_eq_modByMonic (crc.fits_ofBits bits) (crc.congruent_ofBits bits)

/-- The generator has the constant term one, so that it shares no factor with
powers of `X`. -/
theorem isCoprime_X_pow (n : ℕ) : IsCoprime crc.polynomial (X ^ n) := by
  have hconstant : crc.polynomial.coeff 0 = 1 := by
    rw [polynomial, coeff_add, coeff_X_pow, coeff_wordPolynomial, place_generator_zero,
      if_neg crc.order_pos.ne, zero_add]
    rfl
  have hirreducible : Irreducible (X : (ZMod 2)[X]) := irreducible_X
  refine (IsCoprime.pow_left ?_).symm
  rw [hirreducible.coprime_iff_not_dvd, X_dvd_iff, hconstant]
  exact one_ne_zero

/-- The check is zero for the multiples of the generator, and for no other
sequence. Moving the message up makes no difference. -/
theorem ofBits_eq_zero_iff (bits : Bits) :
    crc.ofBits bits = 0 ↔ crc.polynomial ∣ Bits.polynomial bits := by
  have hcheck := crc.wordPolynomial_ofBits bits
  constructor
  · intro h
    rw [h, wordPolynomial_zero, eq_comm, modByMonic_eq_zero_iff_dvd crc.monic_polynomial] at hcheck
    exact (crc.isCoprime_X_pow _).dvd_of_dvd_mul_right hcheck
  · intro h
    rw [(modByMonic_eq_zero_iff_dvd crc.monic_polynomial).mpr (h.mul_right _)] at hcheck
    exact wordPolynomial_injective (hcheck.trans wordPolynomial_zero.symm)

/-- The check of a bit sequence of any length is the remainder of its division
by the generator, a byte sequence has the check of its bits, and a message
followed by the parity that is written for it has the check zero. -/
theorem check_exact (bits : Bits) (bytes : Bytes) :
    wordPolynomial (crc.ofBits bits) =
        (Bits.polynomial bits * X ^ crc.order) %ₘ crc.polynomial ∧
      crc.ofBytes bytes = crc.ofBits (Bits.unpack bytes) ∧
      ∃ parity, crc.parityOfLength bits crc.order = .ok parity ∧
        crc.ofBits (bits ++ parity) = 0 := by
  refine ⟨crc.wordPolynomial_ofBits bits, (crc.ofBits_unpack bytes).symm, crc.parity bits, ?_,
    crc.ofBits_append_parity bits⟩
  simp [parityOfLength]

end Crc

end Uplink
