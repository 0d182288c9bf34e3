import Uplink.Proofs.Single.Order

/-!
# Whole numbers in single precision

Whole numbers below the 24th power of two are stored exactly, and the operations give the exact
result where it is such a number too. Their sums do not depend on how they are rounded.

- `Single.Holds`, `Single.IsWhole`: the digits of a whole number, and numbers that are one.
- `Single.isWhole_ofInt8`, `IsWhole.add`, `IsWhole.neg`, `IsWhole.abs`, `isWhole_sum`: the
  operations.
- `Single.IsWhole.lt_iff`: comparisons.
- `Single.IsWhole.div_self`, `IsWhole.zero_lt_div`: quotients.
-/

namespace Uplink

namespace Single

open Float.Model (Format UnpackedFloat totalExponent)
open Float.Model.UnpackedFloat

/-! ## Digits -/

/-- The digits of a whole number as they are stored: none for zero, else as many
zeros behind the point as make 24 digits. -/
inductive Holds : UnpackedFloat → ℤ → Prop
  | zero (s : Sign) : Holds (.zero s) 0
  | finite (s : Sign) (n j : ℕ) (hpos : 0 < n * 2 ^ j) (hlow : 2 ^ 23 ≤ n * 2 ^ j)
      (hhigh : n * 2 ^ j < 2 ^ 24) : Holds (.finite s (n * 2 ^ j) (-(j : ℤ)) hpos) (s.apply n)

theorem placesBehind_lt {n j : ℕ} (hpos : 0 < n * 2 ^ j) (hhigh : n * 2 ^ j < 2 ^ 24) : j < 24 := by
  by_contra hge
  have hle : 2 ^ 24 ≤ n * 2 ^ j := le_trans (Nat.pow_le_pow_right (by norm_num) (by omega))
    (Nat.le_mul_of_pos_left _ (Nat.pos_of_mul_pos_right hpos))
  omega

/-- Zeros at the end are dropped without a trace, so rounding finds nothing to
round. -/
theorem shiftRight_mul_two_pow (q i : ℕ) :
    ExtendedMantissa.ofMantissaAndAccuracy (q * 2 ^ i) .exact >>> i = ⟨q, false, false⟩ := by
  have hrepeat : ∀ i k : ℕ,
      i.repeat ExtendedMantissa.shiftRightOne ⟨q * 2 ^ (i + k), false, false⟩ =
        (⟨q * 2 ^ k, false, false⟩ : ExtendedMantissa) := by
    intro i
    induction i with
    | zero => intro k; rw [Nat.zero_add]; rfl
    | succ i ih =>
      intro k
      have hsucc : i + 1 + k = i + (k + 1) := by omega
      have hdouble : q * 2 ^ (k + 1) = 2 * (q * 2 ^ k) := by ring
      have hhalf : q * 2 ^ (k + 1) / 2 = q * 2 ^ k := by omega
      have hbit : (q * 2 ^ (k + 1) % 2 != 0) = false := by
        rw [hdouble, Nat.mul_mod_right]
        rfl
      rw [Nat.repeat, hsucc, ih, ExtendedMantissa.shiftRightOne]
      simp only [hhalf, hbit, Bool.or_self]
  have hall := hrepeat i 0
  rwa [Nat.add_zero, pow_zero, mul_one] at hall

theorem log2_mul_two_pow {n : ℕ} (hn : 0 < n) (k : ℕ) : (n * 2 ^ k).log2 = n.log2 + k := by
  rw [Nat.log2_eq_iff (Nat.mul_pos hn (Nat.two_pow_pos k)).ne']
  constructor
  · rw [pow_add]
    exact Nat.mul_le_mul_right _ (Nat.log2_self_le hn.ne')
  · rw [Nat.add_right_comm, pow_add]
    exact Nat.mul_lt_mul_of_pos_right Nat.lt_log2_self (Nat.two_pow_pos k)

/-- The place of the last digit of a whole number. -/
def wholePlace (n : ℕ) : ℕ := 23 - n.log2

/-- Trailing zeros do not change how large a number is. -/
theorem totalExponent_whole {n : ℕ} (hn : 0 < n) (k : ℕ) :
    totalExponent (n * 2 ^ k) (-(k : ℤ)) = n.log2 + 1 := by
  rw [totalExponent, log2_mul_two_pow hn]
  omega

/-- A whole number below `2 ^ 24` has its last digit at a place that does not
depend on how it was written. -/
theorem targetExponent_whole {n : ℕ} (hn : 0 < n) (hlt : n < 2 ^ 24) (k : ℕ) :
    Format.binary32.targetExponent (totalExponent (n * 2 ^ k) (-(k : ℤ))) =
      -(wholePlace n : ℤ) := by
  have hlog : n.log2 < 24 := (Nat.log2_lt hn.ne').mpr hlt
  rw [totalExponent_whole hn]
  simp only [Format.targetExponent, Format.mantissaBits, Format.minExponent, wholePlace]
  norm_num
  omega

/-- The first shift brings a whole number to its place, and the second finds it
there. -/
theorem shift_whole {n : ℕ} (hn : 0 < n) (hlt : n < 2 ^ 24) {k : ℕ} (hk : wholePlace n ≤ k) :
    shiftToTargetExponent Format.binary32 (n * 2 ^ k) (-(k : ℤ)) .exact =
      (⟨n * 2 ^ wholePlace n, false, false⟩, -(wholePlace n : ℤ)) := by
  have hsplit : n * 2 ^ k = n * 2 ^ wholePlace n * 2 ^ (k - wholePlace n) := by
    rw [mul_assoc, ← pow_add, Nat.add_sub_cancel' hk]
  have hamount : (-(wholePlace n : ℤ) - -(k : ℤ)).toNat = k - wholePlace n := by omega
  rw [shiftToTargetExponent, targetExponent_whole hn hlt, shiftToExponent, hamount]
  refine Prod.ext ?_ (by dsimp only; omega)
  dsimp only
  rw [hsplit, shiftRight_mul_two_pow]

/-- The digits at that place are those of the whole number. -/
theorem holds_digits {n : ℕ} (hn : 0 < n) (hlt : n < 2 ^ 24) (s : Sign)
    (hpos : 0 < n * 2 ^ wholePlace n) :
    Holds (.finite s (n * 2 ^ wholePlace n) (-(wholePlace n : ℤ)) hpos) (s.apply n) := by
  have hlog : n.log2 < 24 := (Nat.log2_lt hn.ne').mpr hlt
  refine .finite s n _ hpos ?_ ?_
  · calc 2 ^ 23 = 2 ^ n.log2 * 2 ^ wholePlace n := by
          rw [← pow_add, wholePlace, Nat.add_sub_cancel' (by omega)]
      _ ≤ n * 2 ^ wholePlace n := Nat.mul_le_mul_right _ (Nat.log2_self_le hn.ne')
  · calc n * 2 ^ wholePlace n < 2 ^ (n.log2 + 1) * 2 ^ wholePlace n :=
          Nat.mul_lt_mul_of_pos_right Nat.lt_log2_self (Nat.two_pow_pos _)
      _ = 2 ^ 24 := by
          rw [← pow_add, wholePlace]
          congr 1
          omega

/-- Rounding a whole number changes nothing, because all its digits fit. -/
theorem holds_roundWithAccuracy {n : ℕ} (hn : 0 < n) (hlt : n < 2 ^ 24) {k : ℕ}
    (hk : wholePlace n ≤ k) (s : Sign) :
    Holds (roundWithAccuracy Format.binary32 s (n * 2 ^ k) (-(k : ℤ)) .exact) (s.apply n) := by
  have hpos : 0 < n * 2 ^ wholePlace n := Nat.mul_pos hn (Nat.two_pow_pos _)
  rw [roundWithAccuracy, shift_whole hn hlt hk]
  have hrounded : (⟨n * 2 ^ wholePlace n, false, false⟩ : ExtendedMantissa).roundedMantissa =
      n * 2 ^ wholePlace n := rfl
  dsimp only
  rw [hrounded, shift_whole hn hlt le_rfl]
  dsimp only
  rw [dif_neg hpos.ne']
  exact holds_digits hn hlt s hpos

/-- The same for numbers that are first scaled to the places of the format. -/
theorem holds_round {n : ℕ} (hn : 0 < n) (hlt : n < 2 ^ 24) (k : ℕ) (s : Sign) :
    Holds (UnpackedFloat.round Format.binary32 s (n * 2 ^ k) (-(k : ℤ))) (s.apply n) := by
  have hround : UnpackedFloat.round Format.binary32 s (n * 2 ^ k) (-(k : ℤ)) =
      roundWithAccuracy Format.binary32 s (n * 2 ^ (k + (wholePlace n - k)))
        (-((k + (wholePlace n - k) : ℕ) : ℤ)) .exact := by
    have hamount : (-(k : ℤ) - -(wholePlace n : ℤ)).toNat = wholePlace n - k := by omega
    rw [UnpackedFloat.round, targetExponent_whole hn hlt, decreaseExponent, hamount]
    dsimp only
    rw [Nat.shiftLeft_eq, mul_assoc, ← pow_add]
    congr 1
    omega
  rw [hround]
  exact holds_roundWithAccuracy hn hlt (by omega) s

theorem exists_apply (z : ℤ) : ∃ s : Sign, z = s.apply z.natAbs := by
  rcases Int.natAbs_eq z with h | h
  · exact ⟨.positive, h⟩
  · exact ⟨.negative, h⟩

/-- Whole numbers of either sign are stored exactly, and zero with the sign that
is asked for. -/
theorem holds_normalize {z : ℤ} (hlt : z.natAbs < 2 ^ 24) (k : ℕ) (t : Sign) :
    Holds (UnpackedFloat.normalize Format.binary32 (z * 2 ^ k) (-(k : ℤ)) t) z := by
  obtain ⟨s, hs⟩ := exists_apply z
  generalize z.natAbs = n at hlt hs
  subst hs
  rcases Nat.eq_zero_or_pos n with rfl | hn
  · have hzero : s.apply ((0 : ℕ) : ℤ) = 0 := by cases s <;> rfl
    rw [hzero, zero_mul]
    exact .zero t
  have hpos : (0 : ℤ) < (n * 2 ^ k : ℕ) := by exact_mod_cast Nat.mul_pos hn (Nat.two_pow_pos k)
  rw [UnpackedFloat.normalize]
  -- the sign is split off, and what is left is positive
  cases s with
  | positive =>
    have hdigits : Sign.positive.apply n * 2 ^ k = (n * 2 ^ k : ℕ) := by
      push_cast
      rfl
    rw [hdigits, Int.compare_eq_gt.mpr hpos]
    exact holds_round hn hlt k .positive
  | negative =>
    have hdigits : Sign.negative.apply n * 2 ^ k = -(n * 2 ^ k : ℕ) := by
      push_cast
      exact neg_mul _ _
    rw [hdigits, Int.compare_eq_lt.mpr (neg_neg_of_pos hpos)]
    dsimp only
    rw [neg_neg, Int.toNat_natCast]
    exact holds_round hn hlt k .negative

/-- Digits of a whole number fit their format, so that they are read back as
they are stored. -/
theorem stored_of_holds {u : UnpackedFloat} {n : ℤ} (h : Holds u n) : Stored u := by
  cases h with
  | zero s => trivial
  | finite s n j hpos hlow hhigh =>
    have hj := placesBehind_lt hpos hhigh
    exact ⟨hhigh, by omega, by omega, .inl hlow⟩

/-! ## Operations on digits -/

theorem apply_neg (s : Sign) (z : ℤ) : (-s).apply z = -s.apply z := by
  cases s with
  | positive => rfl
  | negative => exact (neg_neg z).symm

theorem apply_mul (s : Sign) (y z : ℤ) : s.apply (y * z) = s.apply y * z := by
  cases s with
  | positive => rfl
  | negative => exact (neg_mul y z).symm

namespace Holds

variable {u v : UnpackedFloat} {a b : ℤ}

theorem neg (h : Holds u a) : Holds u.neg (-a) := by
  cases h with
  | zero s => exact .zero _
  | finite s n j hpos hlow hhigh =>
    rw [← apply_neg]
    exact .finite _ n j hpos hlow hhigh

theorem abs (h : Holds u a) : Holds u.abs |a| := by
  cases h with
  | zero s => exact .zero _
  | finite s n j hpos hlow hhigh =>
    have habs : |s.apply n| = Sign.positive.apply n := by
      cases s with
      | positive => exact abs_of_nonneg (Int.natCast_nonneg n)
      | negative => exact (abs_neg _).trans (abs_of_nonneg (Int.natCast_nonneg n))
    rw [habs]
    exact .finite _ n j hpos hlow hhigh

end Holds

/-- Digits moved to a common place. The place is that of the number with more
zeros behind the point. -/
theorem decreaseExponent_whole (n j k : ℕ) :
    (decreaseExponent (n * 2 ^ j) (-(j : ℤ)) (min (-(j : ℤ)) (-(k : ℤ)))).1 =
      n * 2 ^ max j k := by
  have hamount : (-(j : ℤ) - min (-(j : ℤ)) (-(k : ℤ))).toNat = max j k - j := by omega
  show (n * 2 ^ j) <<< (-(j : ℤ) - min (-(j : ℤ)) (-(k : ℤ))).toNat = _
  rw [hamount, Nat.shiftLeft_eq, mul_assoc, ← pow_add, Nat.add_sub_cancel' (le_max_left j k)]

namespace Holds

variable {u v : UnpackedFloat} {a b : ℤ}

/-- A sum that is small enough is exact. At a common place it is a sum of
integers, and the result is again a whole number below `2 ^ 24`. -/
theorem add (hu : Holds u a) (hv : Holds v b) (h : |a + b| < 2 ^ 24) :
    Holds (UnpackedFloat.add Format.binary32 u v) (a + b) := by
  cases hu with
  | zero s =>
    rw [zero_add]
    cases hv with
    | zero t => cases s <;> cases t <;> exact .zero _
    | finite t n j hpos hlow hhigh => exact .finite t n j hpos hlow hhigh
  | finite s m i hpos hlow hhigh =>
    cases hv with
    | zero t =>
      rw [add_zero]
      exact .finite s m i hpos hlow hhigh
    -- both numbers at a common place
    | finite t n j hpos' hlow' hhigh' =>
      have hplace : min (-(i : ℤ)) (-(j : ℤ)) = -((max i j : ℕ) : ℤ) := by omega
      have hfirst := decreaseExponent_whole m i j
      have hsecond := decreaseExponent_whole n j i
      rw [min_comm, max_comm] at hsecond
      simp only [UnpackedFloat.add]
      rw [hfirst, hsecond, hplace, Nat.cast_mul, Nat.cast_mul, apply_mul, apply_mul, ← add_mul,
        Nat.cast_pow, Nat.cast_ofNat]
      refine holds_normalize ?_ _ _
      rw [← Int.natCast_natAbs] at h
      exact_mod_cast h

/-- The rational number that the digits stand for. -/
theorem value_eq (h : Holds u a) : Double.value? u = some (a : ℚ) := by
  cases h with
  | zero s => exact congrArg some Int.cast_zero.symm
  | finite s n j hpos hlow hhigh =>
    have hdigits : ((n * 2 ^ j : ℕ) : ℚ) * 2 ^ (-(j : ℤ)) = n := by
      rw [Nat.cast_mul, Nat.cast_pow, Nat.cast_ofNat, mul_assoc, ← zpow_natCast,
        ← zpow_add₀ (by norm_num), add_neg_cancel, zpow_zero, mul_one]
    rw [Double.value?, hdigits, Double.cast_apply]

/-- A positive number has one sequence of digits only: 24 of them, the first one
not zero. -/
theorem eq_of_pos (h : Holds u a) (ha : 0 < a) :
    ∃ (n : ℕ) (hpos : 0 < n * 2 ^ wholePlace n), 0 < n ∧ n < 2 ^ 24 ∧ a = (n : ℤ) ∧
      u = .finite .positive (n * 2 ^ wholePlace n) (-(wholePlace n : ℤ)) hpos ∧
      2 ^ 23 ≤ n * 2 ^ wholePlace n ∧ n * 2 ^ wholePlace n < 2 ^ 24 := by
  cases h with
  | zero s => exact absurd ha (lt_irrefl 0)
  | finite s n j hpos hlow hhigh =>
    have hn : 0 < n := Nat.pos_of_mul_pos_right hpos
    obtain rfl : j = wholePlace n := by
      have hlog := log2_mul_two_pow hn j
      rw [(Nat.log2_eq_iff hpos.ne').mpr ⟨hlow, hhigh⟩] at hlog
      rw [wholePlace]
      omega
    have hlt : n < 2 ^ 24 := lt_of_le_of_lt (Nat.le_mul_of_pos_right n (Nat.two_pow_pos _)) hhigh
    cases s with
    | positive => exact ⟨n, hpos, hn, hlt, rfl, rfl, hlow, hhigh⟩
    | negative => exact absurd ha (not_lt.mpr (neg_nonpos.mpr (Int.natCast_nonneg n)))

theorem unique (hu : Holds u a) (hv : Holds v a) (ha : 0 < a) : u = v := by
  obtain ⟨n, hpos, -, -, rfl, rfl, -⟩ := hu.eq_of_pos ha
  obtain ⟨m, hpos', -, -, hm, rfl, -⟩ := hv.eq_of_pos ha
  obtain rfl : n = m := Int.natCast_inj.mp hm
  rfl

/-- The quotient of two positive numbers has digits enough, and none of them is
lost. Equal numbers have the quotient one without a remainder. -/
theorem div_eq (hu : Holds u a) (hv : Holds v b) (ha : 0 < a) (hb : 0 < b) :
    ∃ (q : ℕ) (place : ℤ) (acc : Accuracy), 0 < q ∧ -149 ≤ place ∧
      UnpackedFloat.div Format.binary32 u v =
        roundWithAccuracy Format.binary32 .positive q place acc ∧
      (a = b → q = 1 * 2 ^ 24 ∧ place = -((24 : ℕ) : ℤ) ∧ acc = .exact) := by
  obtain ⟨m, hpos, hm, hmlt, rfl, rfl, hlow, hhigh⟩ := hu.eq_of_pos ha
  obtain ⟨n, hpos', hn, hnlt, rfl, rfl, hlow', hhigh'⟩ := hv.eq_of_pos hb
  have hlog : m.log2 < 24 := (Nat.log2_lt hm.ne').mpr hmlt
  have hlog' : n.log2 < 24 := (Nat.log2_lt hn.ne').mpr hnlt
  have hplace : min (-(wholePlace m : ℤ) - -(wholePlace n : ℤ))
      (Format.binary32.targetExponent (totalExponent (m * 2 ^ wholePlace m) (-(wholePlace m : ℤ)) -
        totalExponent (n * 2 ^ wholePlace n) (-(wholePlace n : ℤ)))) =
      (m.log2 : ℤ) - n.log2 - 24 := by
    rw [totalExponent_whole hm, totalExponent_whole hn]
    simp only [Format.targetExponent, Format.mantissaBits, Format.minExponent, wholePlace]
    norm_num
    omega
  -- the dividend is moved up by 24 places before the digits are divided
  have hamount : (-(wholePlace m : ℤ) - -(wholePlace n : ℤ) -
      ((m.log2 : ℤ) - n.log2 - 24)).toNat = 24 := by
    simp only [wholePlace]
    omega
  refine ⟨m * 2 ^ wholePlace m * 2 ^ 24 / (n * 2 ^ wholePlace n), (m.log2 : ℤ) - n.log2 - 24,
    accuracyOfFraction (m * 2 ^ wholePlace m * 2 ^ 24 % (n * 2 ^ wholePlace n))
      (n * 2 ^ wholePlace n), ?_, by omega, ?_, ?_⟩
  · exact Nat.div_pos (by omega) hpos'
  · show roundWithAccuracy _ _ _ _ _ = _
    simp only [hplace, hamount, Nat.shiftLeft_eq]
    rfl
  · intro hab
    obtain rfl : m = n := Int.natCast_inj.mp hab
    refine ⟨?_, by omega, ?_⟩
    · rw [Nat.mul_div_cancel_left _ hpos', one_mul]
    · rw [Nat.mul_mod_right]
      rfl

end Holds

/-! ## Numbers -/

/-- The number is the whole number `n`. -/
def IsWhole (x : Float32) (n : ℤ) : Prop := Holds x.toModel.unpack n

theorem isWhole_pack {u : UnpackedFloat} {n : ℤ} (h : Holds u n) :
    IsWhole (.ofModel (Float32.Model.pack u)) n := by
  show Holds (unpack Format.binary32 (pack Format.binary32 u)) n
  rwa [unpack_pack (stored_of_holds h)]

theorem isWhole_zero : IsWhole 0 0 := .zero .positive

/-- Bytes are converted without rounding. -/
theorem isWhole_toFloat32 (n : UInt8) : IsWhole n.toFloat32 n.toNat := by
  have hlt := n.toNat_lt
  have hholds := holds_normalize (z := n.toNat) (by omega) 0 .positive
  rw [pow_zero, mul_one] at hholds
  exact isWhole_pack hholds

namespace IsWhole

variable {x y : Float32} {a b : ℤ}

theorem neg (hx : IsWhole x a) : IsWhole (-x) (-a) := isWhole_pack (Holds.neg hx)

theorem abs (hx : IsWhole x a) : IsWhole x.abs |a| := isWhole_pack (Holds.abs hx)

theorem add (hx : IsWhole x a) (hy : IsWhole y b) (h : |a + b| < 2 ^ 24) :
    IsWhole (x + y) (a + b) := isWhole_pack (Holds.add hx hy h)

/-! ### Comparisons -/

/-- Whole numbers compare as integers do. -/
theorem lt_iff (hx : IsWhole x a) (hy : IsWhole y b) : x < y ↔ a < b := by
  rw [Single.lt_iff, Double.compare_value (stored_toModel x).digitsOf (stored_toModel y).digitsOf
    (Holds.value_eq hx) (Holds.value_eq hy), Option.some.injEq, compare_lt_iff_lt, Int.cast_lt]

/-- A whole number is above negative infinity, so the first candidate of a
search is taken. -/
theorem negInfinity_lt (hx : IsWhole x a) : negInfinity < x := by
  have hlow : negInfinity.toModel.unpack = .infinity .negative := rfl
  unfold IsWhole at hx
  rw [Single.lt_iff, hlow]
  cases hu : x.toModel.unpack with
  | notANumber =>
    rw [hu] at hx
    cases hx
  | infinity s =>
    rw [hu] at hx
    cases hx
  | zero s => rfl
  | finite s m e hm => rfl

/-! ### Quotients -/

/-- A positive number divided by itself is one. -/
theorem div_self (hx : IsWhole x a) (hy : IsWhole y a) (ha : 0 < a) : IsWhole (x / y) 1 := by
  obtain ⟨q, place, acc, -, -, hdiv, hsame⟩ := Holds.div_eq hx hy ha ha
  obtain ⟨rfl, rfl, rfl⟩ := hsame rfl
  refine isWhole_pack (u := UnpackedFloat.div Format.binary32 x.toModel.unpack y.toModel.unpack) ?_
  rw [hdiv]
  exact holds_roundWithAccuracy (n := 1) (by norm_num) (by norm_num) (by decide) .positive

/-- The quotient of positive numbers is positive; it is far from what would be
rounded to zero. -/
theorem zero_lt_div (hx : IsWhole x a) (hy : IsWhole y b) (ha : 0 < a) (hb : 0 < b) :
    0 < x / y := by
  obtain ⟨q, place, acc, hq, hplace, hdiv, -⟩ := Holds.div_eq hx hy ha hb
  have hside : side (x / y) =
      unpackedSide (UnpackedFloat.div Format.binary32 x.toModel.unpack y.toModel.unpack) := by
    refine side_ofModel_pack ?_
    rw [hdiv]
    exact fits_roundWithAccuracy _ _ _ _
  rw [zero_side_lt_iff side_zero, hside, hdiv]
  exact unpackedSide_roundWithAccuracy
    (lt_of_lt_of_le (shift_pos acc hq hplace) (le_roundedMantissa _))

/-- What lies below one positive number lies below every number with its value.
-/
theorem lt_congr {t : Float32} (hx : IsWhole x a) (hy : IsWhole y a) (ha : 0 < a) :
    t < x ↔ t < y := by
  rw [Single.lt_iff, Single.lt_iff, Holds.unique hx hy ha]

end IsWhole

/-- Soft bits are converted without rounding, with their signs. -/
theorem isWhole_ofInt8 (v : Int8) : IsWhole (ofInt8 v) v.toInt := by
  have hall : ∀ n : Fin 256,
      (Int8.ofNat n < 0 → -(((-Int8.ofNat n).toUInt8.toNat : ℕ) : ℤ) = (Int8.ofNat n).toInt) ∧
      (¬ Int8.ofNat n < 0 → (((Int8.ofNat n).toUInt8.toNat : ℕ) : ℤ) = (Int8.ofNat n).toInt) := by
    decide +kernel
  obtain ⟨hneg, hpos⟩ := hall ⟨v.toUInt8.toNat, v.toUInt8.toNat_lt⟩
  have hv : Int8.ofNat v.toUInt8.toNat = v := by
    rw [← UInt8.toInt8_ofNat']
    simp
  rw [hv] at hneg hpos
  rw [ofInt8]
  split
  · rename_i h
    rw [← hneg h]
    exact (isWhole_toFloat32 _).neg
  · rename_i h
    rw [← hpos h]
    exact isWhole_toFloat32 _

/-- The sum of numbers whose magnitudes add up to little is exact. The bound
covers every partial sum on the way. -/
theorem isWhole_sum {terms : Array Float32} {value : ℕ → ℤ}
    (h : ∀ i (hi : i < terms.size), IsWhole terms[i] (value i))
    (hsum : ∑ i ∈ Finset.range terms.size, |value i| < 2 ^ 24) :
    IsWhole (Single.sum terms) (∑ i ∈ Finset.range terms.size, value i) := by
  -- the partial sums stay below the sum of all magnitudes
  have hpartial : ∀ k ≤ terms.size,
      IsWhole ((terms.toList.take k).foldl (· + ·) 0) (∑ i ∈ Finset.range k, value i) := by
    intro k hk
    induction k with
    | zero => exact isWhole_zero
    | succ k ih =>
      have hlt : k < terms.size := hk
      have hbound : |∑ i ∈ Finset.range (k + 1), value i| < 2 ^ 24 :=
        calc |∑ i ∈ Finset.range (k + 1), value i|
            ≤ ∑ i ∈ Finset.range (k + 1), |value i| := Finset.abs_sum_le_sum_abs _ _
          _ ≤ ∑ i ∈ Finset.range terms.size, |value i| :=
              Finset.sum_le_sum_of_subset_of_nonneg (Finset.range_subset_range.mpr hk)
                fun i _ _ => abs_nonneg _
          _ < 2 ^ 24 := hsum
      rw [Finset.sum_range_succ] at hbound ⊢
      rw [List.take_succ_eq_append_getElem (by simpa using hlt), List.foldl_append]
      exact (ih hlt.le).add (by simpa using h k hlt) hbound
  have hall := hpartial terms.size le_rfl
  rwa [← Array.length_toList, List.take_length, Array.length_toList, Array.foldl_toList] at hall

end Single

end Uplink
