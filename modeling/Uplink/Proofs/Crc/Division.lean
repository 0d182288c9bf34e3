import Uplink.Proofs.Bits.Coefficient
import Uplink.Proofs.Crc.Register
import Mathlib.Algebra.Polynomial.FieldDivision
import Mathlib.Tactic.Ring

/-!
# Division of polynomials

Words and bit sequences are polynomials over the field of two elements. A step of the register
multiplies by `X`, adds the bit at the power that leaves the register, and subtracts the generator
where that is needed, so that a register holds the remainder of what has entered.

- `Bits.polynomial`, `Crc.wordPolynomial`, `Crc.polynomial`: the polynomials of a bit sequence, of a
  word and of a generator.
- `Crc.Congruent`: polynomials that differ by a multiple of the generator.
- `Crc.wordPolynomial_eq_modByMonic`, `Crc.eq_of_congruent`: a register is the remainder of every
  polynomial that it is congruent to, so that congruent registers are equal.
- `Crc.congruent_foldl`: what a register holds after a bit sequence has entered.
-/

namespace Uplink

open Polynomial

/-! ## Bit sequences -/

namespace Bits

/-- The polynomial of a bit sequence, the first bit the coefficient of the
highest power. -/
noncomputable def polynomial (bits : Bits) : (ZMod 2)[X] :=
  ∑ i ∈ Finset.range bits.size, C (coefficient (bits.getD i 0)) * X ^ (bits.size - 1 - i)

@[simp] theorem polynomial_empty : polynomial #[] = 0 := rfl

/-- A further bit multiplies by `X` and adds, as entering a bit moves a register
up. -/
theorem polynomial_push (bits : Bits) (b : UInt8) :
    polynomial (bits.push b) = polynomial bits * X + C (coefficient b) := by
  rw [polynomial, Array.size_push, Finset.sum_range_succ]
  congr 1
  · rw [polynomial, Finset.sum_mul]
    refine Finset.sum_congr rfl fun i hi => ?_
    have hlt := Finset.mem_range.mp hi
    have hget : (bits.push b).getD i 0 = bits.getD i 0 := by
      simp [Array.getD_eq_getD_getElem?, Array.getElem?_push, hlt.ne]
    rw [hget, mul_assoc, ← pow_succ]
    congr 2
    omega
  · simp

theorem polynomial_replicate_zero (n : ℕ) : polynomial (Array.replicate n 0) = 0 := by
  refine Finset.sum_eq_zero fun i _ => ?_
  have hget : (Array.replicate n (0 : UInt8)).getD i 0 = 0 := by
    rw [Array.getD_eq_getD_getElem?, Array.getElem?_replicate]
    split <;> rfl
  simp [hget]

end Bits

namespace Crc

open Bits (coefficient)

variable (crc : Crc)

/-! ## Words -/

/-- The polynomial of a word, the place `i` the coefficient of `X ^ i`. -/
noncomputable def wordPolynomial (word : UInt32) : (ZMod 2)[X] :=
  ∑ i ∈ Finset.range 32, C ((place word i).toNat : ZMod 2) * X ^ i

/-- The coefficients are the places. There are 32 of them, and no other power
occurs. -/
theorem coeff_wordPolynomial (word : UInt32) (i : ℕ) :
    (wordPolynomial word).coeff i = ((place word i).toNat : ZMod 2) := by
  rw [wordPolynomial, finsetSum_coeff]
  simp only [coeff_C_mul, coeff_X_pow, mul_ite, mul_one, mul_zero, Finset.sum_ite_eq,
    Finset.mem_range]
  split
  · rfl
  · rename_i hge
    rw [place_of_le word (by omega)]
    rfl

theorem toNat_bne (a b : Bool) : ((a != b).toNat : ZMod 2) = a.toNat + b.toNat := by
  revert a b
  decide

@[simp] theorem wordPolynomial_zero : wordPolynomial 0 = 0 := by
  ext i
  rw [coeff_wordPolynomial, place_zero]
  rfl

/-- Exclusive or adds polynomials, since both work place by place. -/
theorem wordPolynomial_xor (r s : UInt32) :
    wordPolynomial (r ^^^ s) = wordPolynomial r + wordPolynomial s := by
  ext i
  rw [coeff_add, coeff_wordPolynomial, coeff_wordPolynomial, coeff_wordPolynomial, place_xor,
    toNat_bne]

/-- Words with one polynomial are equal. -/
theorem wordPolynomial_injective : Function.Injective wordPolynomial := by
  intro r s h
  refine eq_of_place fun i _ => ?_
  have hcoeff := congrArg (coeff · i) h
  simp only [coeff_wordPolynomial] at hcoeff
  revert hcoeff
  generalize place r i = a
  generalize place s i = b
  revert a b
  decide

/-- A register that fits has a polynomial below the generator's degree, and so
may be a remainder. -/
theorem degree_wordPolynomial_lt {r : UInt32} (h : crc.Fits r) :
    (wordPolynomial r).degree < crc.order := by
  rw [degree_lt_iff_coeff_zero]
  intro i hi
  rw [coeff_wordPolynomial]
  by_cases hlt : i < 32
  · rw [h i hi hlt]
    rfl
  · rw [place_of_le r (by omega)]
    rfl

/-! ## The generator -/

/-- The generator polynomial with its leading term. -/
noncomputable def polynomial : (ZMod 2)[X] := X ^ crc.order + wordPolynomial crc.generator

theorem fits_generator : crc.Fits crc.generator := fun _ hle hi => place_generator crc hle hi

/-- The leading term, which the stored generator leaves out, makes the generator
monic. -/
theorem monic_polynomial : crc.polynomial.Monic :=
  monic_X_pow_add (crc.degree_wordPolynomial_lt crc.fits_generator)

theorem degree_polynomial : crc.polynomial.degree = crc.order := by
  rw [polynomial, degree_add_eq_left_of_degree_lt, degree_X_pow]
  rw [degree_X_pow]
  exact crc.degree_wordPolynomial_lt crc.fits_generator

/-- The polynomials differ by a multiple of the generator. -/
def Congruent (p q : (ZMod 2)[X]) : Prop := crc.polynomial ∣ p - q

namespace Congruent

variable {crc}
variable {p q r s : (ZMod 2)[X]}

/-- Congruence is an equivalence; sequences of steps are put together with this.
-/
theorem trans (h : crc.Congruent p q) (h' : crc.Congruent q r) : crc.Congruent p r := by
  have hsum := dvd_add h h'
  rwa [sub_add_sub_cancel] at hsum

theorem add_right (h : crc.Congruent p q) (r : (ZMod 2)[X]) : crc.Congruent (p + r) (q + r) := by
  rwa [Congruent, add_sub_add_right_eq_sub]

theorem mul_right (h : crc.Congruent p q) (r : (ZMod 2)[X]) : crc.Congruent (p * r) (q * r) := by
  rw [Congruent, ← sub_mul]
  exact Dvd.dvd.mul_right h r

end Congruent

/-- A register is the remainder of every polynomial that it is congruent to. -/
theorem wordPolynomial_eq_modByMonic {r : UInt32} (hr : crc.Fits r) {p : (ZMod 2)[X]}
    (h : crc.Congruent (wordPolynomial r) p) : wordPolynomial r = p %ₘ crc.polynomial := by
  have hself : wordPolynomial r %ₘ crc.polynomial = wordPolynomial r := by
    rw [modByMonic_eq_self_iff crc.monic_polynomial, degree_polynomial]
    exact crc.degree_wordPolynomial_lt hr
  rw [← hself]
  exact modByMonic_eq_of_dvd_sub crc.monic_polynomial h

/-- Congruent registers are equal, so two ways of finding a check agree once
both are congruent to the message. -/
theorem eq_of_congruent {r s : UInt32} (hr : crc.Fits r) (hs : crc.Fits s) {p : (ZMod 2)[X]}
    (h : crc.Congruent (wordPolynomial r) p) (h' : crc.Congruent (wordPolynomial s) p) : r = s := by
  refine wordPolynomial_injective ?_
  rw [crc.wordPolynomial_eq_modByMonic hr h, crc.wordPolynomial_eq_modByMonic hs h']

/-! ## Bits enter -/

/-- One bit enters: the exact equation behind a step. What is fed back stands at
the order as well, and is therefore added as a multiple of the whole generator.
-/
theorem wordPolynomial_step {r : UInt32} (hr : crc.Fits r) (b : UInt8) :
    wordPolynomial (crc.step r b) + C ((crc.feedback r b).toNat : ZMod 2) * crc.polynomial =
      wordPolynomial r * X + C (coefficient b) * X ^ crc.order := by
  have horder := crc.order_le
  have hpos := crc.order_pos
  ext i
  simp only [polynomial, coeff_add, coeff_C_mul, coeff_X_pow, coeff_wordPolynomial]
  have hshift : (wordPolynomial r * X).coeff i =
      ((decide (0 < i) && place r (i - 1)).toNat : ZMod 2) := by
    cases i with
    | zero => simp
    | succ i => simp [coeff_wordPolynomial]
  rw [hshift]
  rcases Nat.lt_trichotomy i crc.order with hlt | rfl | hgt
  · -- below the order the places move up, and the generator may be added
    rw [place_step crc r b (by omega), toNat_bne, decide_eq_true hlt, Bool.and_true, if_neg hlt.ne]
    cases crc.feedback r b <;> cases place crc.generator i <;>
      cases decide (0 < i) && place r (i - 1) <;> simp <;> decide
  · -- at the order stands what was fed back
    rw [crc.fits_step r b _ le_rfl (by omega), crc.fits_generator _ le_rfl (by omega),
      decide_eq_true hpos, if_pos rfl, feedback, toNat_bne, ← Bits.coefficient_eq]
    simp
  · -- above it nothing stands
    have hnone : ∀ {s : UInt32}, crc.Fits s → ∀ j, crc.order ≤ j → place s j = false := by
      intro s hs j hj
      by_cases hlt : j < 32
      · exact hs j hj hlt
      · exact place_of_le s (by omega)
    rw [hnone (crc.fits_step r b) i hgt.le, hnone crc.fits_generator i hgt.le,
      hnone hr (i - 1) (by omega), if_neg hgt.ne']
    simp

/-- Modulo the generator, a step multiplies by `X` and adds the bit at the
order. -/
theorem congruent_step {r : UInt32} (hr : crc.Fits r) (b : UInt8) :
    crc.Congruent (wordPolynomial (crc.step r b))
      (wordPolynomial r * X + C (coefficient b) * X ^ crc.order) := by
  rw [Congruent, ← crc.wordPolynomial_step hr b]
  exact ⟨-C ((crc.feedback r b).toNat : ZMod 2), by ring⟩

/-- A bit sequence enters, bit by bit: the register moves up by its length, and
the sequence is added at the order. -/
theorem congruent_foldl {r : UInt32} (hr : crc.Fits r) (bits : List UInt8) :
    crc.Congruent (wordPolynomial (bits.foldl crc.step r))
      (wordPolynomial r * X ^ bits.length + Bits.polynomial bits.toArray * X ^ crc.order) := by
  induction bits using List.reverseRecOn with
  | nil => simp [Congruent]
  | append_singleton bits b ih =>
    have hpush : (bits ++ [b]).toArray = bits.toArray.push b := by simp
    rw [List.foldl_append, List.foldl_cons, List.foldl_nil, hpush, Bits.polynomial_push,
      List.length_append, List.length_singleton]
    -- what entered before moves up by one place with the register
    have hbefore := (ih.mul_right X).add_right (C (coefficient b) * X ^ crc.order)
    refine (crc.congruent_step (crc.fits_foldl hr bits) b).trans ?_
    convert hbefore using 1
    ring

end Crc

end Uplink
