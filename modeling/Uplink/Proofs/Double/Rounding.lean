import Mathlib

/-!
# Rounding to double precision

The exact result of an operation is a rational number. This module says which number rounding makes
of it, apart from how the digits are stored, and that the rounding of the digits does just that.

- `Double.nearest`: the nearest whole number, the even one of two; `nearest_mono`.
- `Double.place`, `Double.rounded`: where the last digit of a rounded number stands, and the number;
  `rounded_mono`, `rounded_neg`, `rounded_of_digits`.
- `Double.Describes`: what a mantissa with its residual bits says of the exact number;
  `Describes.shiftRight`, `Describes.roundedMantissa`.
- `Double.value?`: the number that an unpacked float stands for.
- `Double.roundWithAccuracy_spec`, `round_spec`, `normalize_spec`: rounded digits are in canonical
  form and stand for the rounded number.
-/

namespace Uplink

namespace Double

open Float.Model (Format UnpackedFloat totalExponent)
open Float.Model.UnpackedFloat

/-! ## Whole numbers -/

/-- The whole number nearest to a number that is not negative, the even one of
two. -/
def nearest (x : ℚ) : ℕ :=
  let below := ⌊x⌋₊
  if x < below + 1 / 2 then below
  else if x = below + 1 / 2 then below + below % 2
  else below + 1

/-- A whole number is the nearest one to itself. -/
theorem nearest_natCast (n : ℕ) : nearest n = n := by
  rw [nearest]
  simp only [Nat.floor_natCast]
  rw [if_pos (by linarith)]

theorem nearest_zero : nearest 0 = 0 := by exact_mod_cast nearest_natCast 0

theorem floor_le_nearest (x : ℚ) : ⌊x⌋₊ ≤ nearest x := by
  rw [nearest]
  split
  · exact Nat.le_refl _
  · split <;> exact Nat.le_add_right _ _

theorem nearest_le (x : ℚ) : nearest x ≤ ⌊x⌋₊ + 1 := by
  rw [nearest]
  split
  · exact Nat.le_succ _
  · split
    · omega
    · exact Nat.le_refl _

/-- The nearest whole number does not decrease. Ties go to the even number on
both sides, so two ties of one interval do not cross. -/
theorem nearest_mono {x y : ℚ} (h : x ≤ y) : nearest x ≤ nearest y := by
  have hfloor : ⌊x⌋₊ ≤ ⌊y⌋₊ := Nat.floor_mono h
  rcases Nat.lt_or_eq_of_le hfloor with hlt | heq
  · calc nearest x ≤ ⌊x⌋₊ + 1 := nearest_le x
      _ ≤ ⌊y⌋₊ := hlt
      _ ≤ nearest y := floor_le_nearest y
  · -- both lie between the same whole numbers
    rcases lt_trichotomy y (⌊y⌋₊ + 1 / 2) with hy | hy | hy
    · rw [nearest, nearest, heq, if_pos hy, if_pos (lt_of_le_of_lt h hy)]
    · rw [nearest, nearest, heq, if_neg hy.not_lt, if_pos hy]
      rcases (hy ▸ h).lt_or_eq with hx | hx
      · rw [if_pos hx]
        exact Nat.le_add_right _ _
      · rw [if_neg hx.not_lt, if_pos hx]
    · calc nearest x ≤ ⌊x⌋₊ + 1 := nearest_le x
        _ = nearest y := by rw [heq, nearest, if_neg hy.not_gt, if_neg hy.ne']

/-! ## Rounded numbers -/

/-- Where the last digit of the double nearest to a positive number stands. -/
def place (x : ℚ) : ℤ := max (Int.log 2 x - 52) (-1074)

/-- The double nearest to a number, without a limit to the exponent. -/
def rounded (x : ℚ) : ℚ :=
  if 0 ≤ x then nearest (x / 2 ^ place x) * 2 ^ place x
  else -(nearest (-x / 2 ^ place (-x)) * 2 ^ place (-x))

theorem two_zpow_pos (e : ℤ) : (0 : ℚ) < 2 ^ e := zpow_pos (by norm_num) e

theorem rounded_of_nonneg {x : ℚ} (h : 0 ≤ x) :
    rounded x = nearest (x / 2 ^ place x) * 2 ^ place x := if_pos h

/-- Rounding does not cross zero. -/
theorem rounded_nonneg {x : ℚ} (h : 0 ≤ x) : 0 ≤ rounded x := by
  rw [rounded_of_nonneg h]
  exact mul_nonneg (Nat.cast_nonneg _) (two_zpow_pos _).le

@[simp] theorem rounded_zero : rounded 0 = 0 := by
  rw [rounded_of_nonneg le_rfl, zero_div, nearest_zero]
  simp

/-- Rounding is the same on both sides of zero. -/
theorem rounded_neg (x : ℚ) : rounded (-x) = -rounded x := by
  rcases lt_trichotomy x 0 with hneg | rfl | hpos
  · rw [rounded, rounded, if_pos (by linarith), if_neg (by linarith), neg_neg]
  · rw [neg_zero, rounded_zero, neg_zero]
  · rw [rounded, rounded, if_neg (by linarith), if_pos hpos.le, neg_neg]

/-- A number has at most 53 digits up to its last place. -/
theorem lt_of_place (x : ℚ) : x < 2 ^ (place x + 53) := by
  have hlog := Int.lt_zpow_succ_log_self (b := 2) (by norm_num) x
  push_cast at hlog
  refine lt_of_lt_of_le hlog (zpow_le_zpow_right₀ (by norm_num) ?_)
  have : Int.log 2 x - 52 ≤ place x := le_max_left _ _
  omega

/-- It has all of them unless the last place is the smallest of all. -/
theorem le_of_place {x : ℚ} (h : 0 < x) (hplace : place x ≠ -1074) : 2 ^ (place x + 52) ≤ x := by
  have hlog := Int.zpow_log_le_self (b := 2) (by norm_num) h
  push_cast at hlog
  have heq : place x = Int.log 2 x - 52 := by
    rw [place] at hplace ⊢
    omega
  rwa [heq, sub_add_cancel]

theorem le_place (x : ℚ) : -1074 ≤ place x := le_max_right _ _

/-- A larger number has its last digit at no lower a place. -/
theorem place_mono {x y : ℚ} (hx : 0 < x) (h : x ≤ y) : place x ≤ place y := by
  have hlog : Int.log 2 x ≤ Int.log 2 y := Int.log_mono_right hx h
  rw [place, place]
  omega

/-- Rounding does not decrease. Within one place it is the nearest multiple;
where the place changes, the power of two between the two numbers separates
them. -/
theorem rounded_mono {x y : ℚ} (h : x ≤ y) : rounded x ≤ rounded y := by
  -- it is enough to compare positive numbers
  suffices hpos : ∀ {x y : ℚ}, 0 < x → x ≤ y → rounded x ≤ rounded y by
    rcases lt_or_ge 0 x with hx | hx
    · exact hpos hx h
    · rcases le_or_gt 0 y with hy | hy
      · have hneg := rounded_nonneg (neg_nonneg.mpr hx)
        rw [rounded_neg] at hneg
        exact le_trans (by linarith) (rounded_nonneg hy)
      · have hflip := hpos (neg_pos.mpr hy) (neg_le_neg h)
        rw [rounded_neg, rounded_neg] at hflip
        linarith
  clear h
  intro x y hx h
  have hy : 0 < y := lt_of_lt_of_le hx h
  rw [rounded_of_nonneg hx.le, rounded_of_nonneg hy.le]
  rcases (place_mono hx h).eq_or_lt with heq | hlt
  · rw [heq]
    have hscaled : x / 2 ^ place y ≤ y / 2 ^ place y :=
      div_le_div_of_nonneg_right h (two_zpow_pos _).le
    exact mul_le_mul_of_nonneg_right (Nat.cast_le.mpr (nearest_mono hscaled)) (two_zpow_pos _).le
  · -- a power of two lies between the rounded numbers
    have hbelow : nearest (x / 2 ^ place x) ≤ 2 ^ 53 := by
      rw [← nearest_natCast (2 ^ 53)]
      refine nearest_mono ?_
      rw [div_le_iff₀ (two_zpow_pos _)]
      have := lt_of_place x
      rw [zpow_add₀ (by norm_num), mul_comm] at this
      exact_mod_cast this.le
    have habove : 2 ^ 52 ≤ nearest (y / 2 ^ place y) := by
      rw [← nearest_natCast (2 ^ 52)]
      refine nearest_mono ?_
      rw [le_div_iff₀ (two_zpow_pos _)]
      have hne : place y ≠ -1074 := by
        have := le_place x
        omega
      have := le_of_place hy hne
      rw [zpow_add₀ (by norm_num), mul_comm] at this
      exact_mod_cast this
    calc (nearest (x / 2 ^ place x) : ℚ) * 2 ^ place x
        ≤ 2 ^ 53 * 2 ^ place x := by
          refine mul_le_mul_of_nonneg_right ?_ (two_zpow_pos _).le
          exact_mod_cast hbelow
      _ = 2 ^ 52 * 2 ^ (place x + 1) := by rw [zpow_add₀ (by norm_num)]; ring
      _ ≤ 2 ^ 52 * 2 ^ place y := by
          refine mul_le_mul_of_nonneg_left ?_ (by positivity)
          exact zpow_le_zpow_right₀ (by norm_num) hlt
      _ ≤ nearest (y / 2 ^ place y) * 2 ^ place y := by
          refine mul_le_mul_of_nonneg_right ?_ (two_zpow_pos _).le
          exact_mod_cast habove

/-- A number of at most 53 digits, none below the smallest place, is not changed
by rounding. -/
theorem rounded_of_digits {m : ℕ} {e : ℤ} (hm : m < 2 ^ 53) (he : -1074 ≤ e) :
    rounded (m * 2 ^ e) = m * 2 ^ e := by
  rcases Nat.eq_zero_or_pos m with rfl | hpos
  · simp
  have hx : (0 : ℚ) < m * 2 ^ e := mul_pos (Nat.cast_pos.mpr hpos) (two_zpow_pos e)
  have hplace : place (m * 2 ^ e) ≤ e := by
    by_contra hgt
    have hle := le_of_place hx (by omega)
    have hlt : (m : ℚ) * 2 ^ e < 2 ^ (53 + e) := by
      rw [zpow_add₀ (by norm_num)]
      refine mul_lt_mul_of_pos_right ?_ (two_zpow_pos e)
      exact_mod_cast hm
    have hpow := lt_of_le_of_lt hle hlt
    rw [zpow_lt_zpow_iff_right₀ (by norm_num)] at hpow
    omega
  have hscaled : (m : ℚ) * 2 ^ e / 2 ^ place (m * 2 ^ e) =
      ((m * 2 ^ (e - place (m * 2 ^ e)).toNat : ℕ) : ℚ) := by
    push_cast
    rw [mul_div_assoc, ← zpow_sub₀ (by norm_num), ← zpow_natCast, Int.toNat_of_nonneg (by omega)]
  rw [rounded_of_nonneg hx.le, hscaled, nearest_natCast, ← hscaled,
    div_mul_cancel₀ _ (two_zpow_pos _).ne']

/-- Whole numbers up to the 53rd power of two are not changed by rounding, which
is where exact counting ends. -/
theorem rounded_natCast {n : ℕ} (h : n ≤ 2 ^ 53) : rounded n = n := by
  rcases Nat.lt_or_eq_of_le h with hlt | rfl
  · have := rounded_of_digits hlt (e := 0) (by norm_num)
    simpa using this
  · have := rounded_of_digits (m := 1) (e := 53) (by norm_num) (by norm_num)
    norm_num at this ⊢
    exact this

/-! ## Residual bits -/

/-- What a mantissa with its residual bits says of the exact number: whether it
is a whole number, or on which side of the middle between two it lies. -/
def Describes : ExtendedMantissa → ℚ → Prop
  | ⟨m, false, false⟩, x => x = m
  | ⟨m, false, true⟩, x => m < x ∧ x < m + 1 / 2
  | ⟨m, true, false⟩, x => x = m + 1 / 2
  | ⟨m, true, true⟩, x => m + 1 / 2 < x ∧ x < m + 1

namespace Describes

variable {em : ExtendedMantissa} {x : ℚ}

theorem le (h : Describes em x) : em.mantissa ≤ x := by
  obtain ⟨m, r, t⟩ := em
  cases r <;> cases t <;> simp only [Describes] at h <;> simp only <;> linarith

theorem lt (h : Describes em x) : x < em.mantissa + 1 := by
  obtain ⟨m, r, t⟩ := em
  cases r <;> cases t <;> simp only [Describes] at h <;> simp only <;> linarith

/-- The mantissa is the part before the point. -/
theorem floor_eq (h : Describes em x) : ⌊x⌋₊ = em.mantissa :=
  (Nat.floor_eq_iff (le_trans (Nat.cast_nonneg _) h.le)).mpr ⟨h.le, h.lt⟩

/-- The residual bits say enough to round to the nearest whole number: whether
anything was dropped, and whether it was more than one half. -/
theorem roundedMantissa (h : Describes em x) : em.roundedMantissa = nearest x := by
  have hfloor := h.floor_eq
  obtain ⟨m, r, t⟩ := em
  simp only at hfloor
  rw [nearest, hfloor, ExtendedMantissa.roundedMantissa]
  cases r <;> cases t <;> simp only [Describes] at h <;>
    simp only [ExtendedMantissa.accuracy, Accuracy.roundToNearestEven]
  · rw [if_pos (by linarith)]
  · rw [if_pos h.2]
  · rw [if_neg (by linarith), if_pos h]
  · rw [if_neg (by linarith), if_neg (by linarith)]

/-- A shift by one place keeps the description: the bit that is dropped and the
ones before it are remembered. -/
theorem shiftRightOne (h : Describes em x) : Describes em.shiftRightOne (x / 2) := by
  obtain ⟨m, r, t⟩ := em
  rw [ExtendedMantissa.shiftRightOne]
  obtain ⟨k, rfl | rfl⟩ : ∃ k, m = 2 * k ∨ m = 2 * k + 1 := ⟨m / 2, by omega⟩
  · have hhalf : 2 * k / 2 = k := by omega
    have hbit : (2 * k % 2 != 0) = false := by simp
    simp only [hhalf, hbit]
    cases r <;> cases t <;>
      simp only [Describes, Bool.or_self, Bool.or_true, Bool.or_false] at h ⊢ <;>
      push_cast at h <;> first | linarith | (constructor <;> linarith)
  · have hhalf : (2 * k + 1) / 2 = k := by omega
    have hbit : ((2 * k + 1) % 2 != 0) = true := by simp
    simp only [hhalf, hbit]
    cases r <;> cases t <;>
      simp only [Describes, Bool.or_self, Bool.or_true, Bool.or_false] at h ⊢ <;>
      push_cast at h <;> first | linarith | (constructor <;> linarith)

/-- A shift divides, and the residual bits remember what is dropped. -/
theorem shiftRight (h : Describes em x) (n : ℕ) : Describes (em >>> n) (x / 2 ^ n) := by
  show Describes (n.repeat ExtendedMantissa.shiftRightOne em) (x / 2 ^ n)
  induction n with
  | zero => simpa [Nat.repeat] using h
  | succ n ih =>
    have := ih.shiftRightOne
    rwa [div_div, ← pow_succ] at this

theorem exact (m : ℕ) : Describes (ExtendedMantissa.ofMantissaAndAccuracy m .exact) m := rfl

end Describes

theorem mantissa_ofMantissaAndAccuracy (m : ℕ) (a : Accuracy) :
    (ExtendedMantissa.ofMantissaAndAccuracy m a).mantissa = m := by
  rcases a with _ | o
  · rfl
  · cases o <;> rfl

/-! ## Rounded digits -/

/-- A number with the sign `s`. -/
def signed (s : Sign) (x : ℚ) : ℚ :=
  match s with
  | .positive => x
  | .negative => -x

/-- The number that an unpacked float stands for; none for infinities and NaN.
-/
def value? : UnpackedFloat → Option ℚ
  | .zero _ => some 0
  | .finite s m e _ => some (signed s (m * 2 ^ e))
  | _ => none

/-- At most 53 digits, all of them unless the last one has the smallest place.
-/
def Canonical : UnpackedFloat → Prop
  | .finite _ m e _ => m < 2 ^ 53 ∧ -1074 ≤ e ∧ (2 ^ 52 ≤ m ∨ e = -1074)
  | _ => True

/-- Rounding keeps the sign. -/
theorem rounded_signed (s : Sign) (x : ℚ) : rounded (signed s x) = signed s (rounded x) := by
  cases s with
  | positive => rfl
  | negative => exact rounded_neg x

/-- There are digits enough for rounding to drop some. -/
def Ample (m : ℕ) (e : ℤ) : Prop := 2 ^ 52 ≤ m ∨ e ≤ -1074

theorem targetExponent_eq (m : ℕ) (e : ℤ) :
    Format.binary64.targetExponent (totalExponent m e) = max (m.log2 + e - 52) (-1074) := by
  simp only [Format.targetExponent, totalExponent, Format.mantissaBits, Format.minExponent]
  norm_num
  omega

/-- The place that the digits are rounded to is that of the exact number, also
where the digits are only a part of it. -/
theorem targetExponent_eq_place {m : ℕ} {e : ℤ} {a : Accuracy} {x : ℚ} (hpos : 0 < m)
    (h : Describes (ExtendedMantissa.ofMantissaAndAccuracy m a) x) :
    Format.binary64.targetExponent (totalExponent m e) = place (x * 2 ^ e) := by
  have hle := h.le
  have hlt := h.lt
  rw [mantissa_ofMantissaAndAccuracy] at hle hlt
  have hx : (0 : ℚ) < x := lt_of_lt_of_le (Nat.cast_pos.mpr hpos) hle
  have hlog : Int.log 2 (x * 2 ^ e) = m.log2 + e := by
    have hprod : 0 < x * 2 ^ e := mul_pos hx (two_zpow_pos e)
    have hdigits : m < 2 ^ (m.log2 + 1) := Nat.lt_log2_self
    refine le_antisymm (Int.lt_add_one_iff.mp ?_) ?_
    · rw [← Int.lt_zpow_iff_log_lt (by norm_num) hprod, add_right_comm, Nat.cast_ofNat,
        zpow_add₀ (by norm_num)]
      refine mul_lt_mul_of_pos_right (lt_of_lt_of_le hlt ?_) (two_zpow_pos e)
      exact_mod_cast hdigits
    · rw [← Int.zpow_le_iff_le_log (by norm_num) hprod, Nat.cast_ofNat, zpow_add₀ (by norm_num)]
      refine mul_le_mul_of_nonneg_right (le_trans ?_ hle) (two_zpow_pos e).le
      exact_mod_cast Nat.log2_self_le hpos.ne'
  rw [targetExponent_eq, place, hlog]

/-- With digits enough, rounding drops some and never has to invent any. -/
theorem le_targetExponent {m : ℕ} {e : ℤ} (h : Ample m e) :
    e ≤ Format.binary64.targetExponent (totalExponent m e) := by
  rw [targetExponent_eq]
  rcases h with hm | he
  · have hlog : 52 ≤ m.log2 := (Nat.le_log2 (by omega)).mpr hm
    omega
  · exact le_trans he (le_max_right _ _)

/-- Digits that fit stay as they are. -/
theorem shift_of_lt {m : ℕ} {e : ℤ} (hm : m < 2 ^ 53) (he : -1074 ≤ e) :
    shiftToTargetExponent Format.binary64 m e .exact = (⟨m, false, false⟩, e) := by
  have hlog : m.log2 ≤ 52 := by
    rcases Nat.eq_zero_or_pos m with rfl | hpos
    · decide
    · exact Nat.le_of_lt_succ ((Nat.log2_lt hpos.ne').mpr hm)
  have hshift : (Format.binary64.targetExponent (totalExponent m e) - e).toNat = 0 := by
    rw [targetExponent_eq]
    omega
  rw [shiftToTargetExponent, shiftToExponent, hshift]
  exact Prod.ext rfl (add_zero e)

/-- A carry into a new digit moves the last place by one. The digit that is
dropped is then a zero. -/
theorem shift_carry {e : ℤ} (he : -1074 ≤ e) :
    shiftToTargetExponent Format.binary64 (2 ^ 53) e .exact =
      (⟨2 ^ 52, false, false⟩, e + 1) := by
  have hshift : (Format.binary64.targetExponent (totalExponent (2 ^ 53) e) - e).toNat = 1 := by
    rw [targetExponent_eq, Nat.log2_two_pow]
    omega
  rw [shiftToTargetExponent, shiftToExponent, hshift]
  rfl

/-- The digits at the place of the exact number, rounded to a whole number. -/
theorem rounded_eq_at_target {m : ℕ} {e : ℤ} {a : Accuracy} {x : ℚ} (hample : Ample m e)
    (h : Describes (ExtendedMantissa.ofMantissaAndAccuracy m a) x) :
    rounded (x * 2 ^ e) =
        nearest (x * 2 ^ e / 2 ^ Format.binary64.targetExponent (totalExponent m e)) *
          2 ^ Format.binary64.targetExponent (totalExponent m e) ∧
      (x = 0 ∨ Format.binary64.targetExponent (totalExponent m e) = place (x * 2 ^ e)) := by
  have hnonneg : 0 ≤ x := le_trans (Nat.cast_nonneg _) h.le
  rcases hnonneg.eq_or_lt with rfl | hx
  · simp [nearest_zero]
  · have hplace : Format.binary64.targetExponent (totalExponent m e) = place (x * 2 ^ e) := by
      rcases Nat.eq_zero_or_pos m with rfl | hpos
      · -- all digits have been dropped: the exact number lies below the smallest place
        have he : e ≤ -1074 := hample.resolve_left (by norm_num)
        have hlt := h.lt
        rw [mantissa_ofMantissaAndAccuracy, Nat.cast_zero, zero_add] at hlt
        have hlog : Int.log 2 (x * 2 ^ e) < e := by
          rw [← Int.lt_zpow_iff_log_lt (by norm_num) (mul_pos hx (two_zpow_pos e)), Nat.cast_ofNat]
          simpa using mul_lt_mul_of_pos_right hlt (two_zpow_pos e)
        rw [targetExponent_eq, place]
        simp only [Nat.log2_zero]
        omega
      · exact targetExponent_eq_place hpos h
    refine ⟨?_, .inr hplace⟩
    rw [hplace, rounded_of_nonneg (mul_pos hx (two_zpow_pos e)).le]

/-- Rounded at its place a number has at most 53 digits, or is the next power of
two. -/
theorem nearest_place_le (y : ℚ) : nearest (y / 2 ^ place y) ≤ 2 ^ 53 := by
  rw [← nearest_natCast (2 ^ 53)]
  refine nearest_mono ?_
  have hlt := lt_of_place y
  rw [zpow_add₀ (by norm_num), mul_comm (2 ^ place y)] at hlt
  rw [div_le_iff₀ (two_zpow_pos _)]
  exact_mod_cast hlt.le

/-- It has all 53 digits, unless its place is the smallest one. -/
theorem le_nearest_place {y : ℚ} (hy : 0 < y) (hplace : place y ≠ -1074) :
    2 ^ 52 ≤ nearest (y / 2 ^ place y) := by
  rw [← nearest_natCast (2 ^ 52)]
  refine nearest_mono ?_
  have hge := le_of_place hy hplace
  rw [zpow_add₀ (by norm_num), mul_comm (2 ^ place y)] at hge
  rw [le_div_iff₀ (two_zpow_pos _)]
  exact_mod_cast hge

/-- Rounding gives digits in canonical form, and they stand for the rounded
number. The second shift, after rounding, is needed only for a carry. -/
theorem roundWithAccuracy_spec (s : Sign) {m : ℕ} {e : ℤ} {a : Accuracy} {x : ℚ}
    (hample : Ample m e) (h : Describes (ExtendedMantissa.ofMantissaAndAccuracy m a) x) :
    Canonical (roundWithAccuracy Format.binary64 s m e a) ∧
      value? (roundWithAccuracy Format.binary64 s m e a) =
        some (signed s (rounded (x * 2 ^ e))) := by
  obtain ⟨hrounded, hplace⟩ := rounded_eq_at_target hample h
  have hmin : -1074 ≤ Format.binary64.targetExponent (totalExponent m e) := by
    rw [targetExponent_eq]
    exact le_max_right _ _
  have hle := le_targetExponent hample
  set t := Format.binary64.targetExponent (totalExponent m e) with ht
  have hscale : x * 2 ^ e / 2 ^ t = x / 2 ^ (t - e).toNat := by
    rw [← zpow_natCast, Int.toNat_of_nonneg (by omega), zpow_sub₀ (by norm_num)]
    field_simp
  rw [hscale] at hrounded
  have hr : (ExtendedMantissa.ofMantissaAndAccuracy m a >>> (t - e).toNat).roundedMantissa =
      nearest (x / 2 ^ (t - e).toNat) := (h.shiftRight _).roundedMantissa
  set r := nearest (x / 2 ^ (t - e).toNat) with hrdef
  have hfirst : shiftToTargetExponent Format.binary64 m e a =
      (ExtendedMantissa.ofMantissaAndAccuracy m a >>> (t - e).toNat, t) := by
    rw [shiftToTargetExponent, shiftToExponent, ← ht]
    exact Prod.ext rfl (by dsimp only; omega)
  -- the rounded digits are few, and all are there unless the place is the smallest
  have hx : 0 ≤ x := le_trans (Nat.cast_nonneg _) h.le
  have hfew : r ≤ 2 ^ 53 := by
    rcases hplace with rfl | hplace
    · rw [hrdef, zero_div, nearest_zero]
      exact Nat.zero_le _
    · rw [hrdef, ← hscale, hplace]
      exact nearest_place_le _
  have hfull : r = 0 ∨ 2 ^ 52 ≤ r ∨ t = -1074 := by
    rcases hx.eq_or_lt with rfl | hpos
    · exact .inl (by rw [hrdef, zero_div, nearest_zero])
    · refine .inr (or_iff_not_imp_right.mpr fun hne => ?_)
      have hplace := hplace.resolve_left hpos.ne'
      rw [hrdef, ← hscale, hplace]
      exact le_nearest_place (mul_pos hpos (two_zpow_pos e)) (by rwa [← hplace])
  rw [roundWithAccuracy, hfirst]
  dsimp only
  rw [hr]
  rcases hfew.lt_or_eq with hlt | hcarry
  · rw [shift_of_lt hlt hmin]
    dsimp only
    split
    · rename_i hzero
      refine ⟨trivial, ?_⟩
      rw [hrounded, hzero]
      cases s <;> simp [value?, signed]
    · rename_i hzero
      exact ⟨⟨hlt, hmin, hfull.resolve_left hzero⟩, by rw [value?, hrounded]⟩
  · rw [hcarry, shift_carry hmin]
    dsimp only
    rw [dif_neg (by norm_num)]
    refine ⟨⟨by norm_num, by omega, .inl le_rfl⟩, ?_⟩
    rw [value?, hrounded, hcarry, zpow_add₀ (by norm_num)]
    push_cast
    congr 2
    ring

/-- An exact positive amount is rounded to the nearest double. -/
theorem round_spec (s : Sign) {m : ℕ} (e : ℤ) (hpos : 0 < m) :
    Canonical (UnpackedFloat.round Format.binary64 s m e) ∧
      value? (UnpackedFloat.round Format.binary64 s m e) =
        some (signed s (rounded (m * 2 ^ e))) := by
  set t := Format.binary64.targetExponent (totalExponent m e) with ht
  have hround : UnpackedFloat.round Format.binary64 s m e =
      roundWithAccuracy Format.binary64 s (m <<< (e - t).toNat) (e - (e - t).toNat) .exact := rfl
  have hample : Ample (m <<< (e - t).toNat) (e - (e - t).toNat) := by
    rw [targetExponent_eq] at ht
    rw [Ample, or_iff_not_imp_right]
    intro hgt
    -- digits are added until there are enough
    have hlog : 52 ≤ m.log2 + (e - t).toNat := by omega
    rw [Nat.shiftLeft_eq]
    calc 2 ^ 52 ≤ 2 ^ (m.log2 + (e - t).toNat) := Nat.pow_le_pow_right (by norm_num) hlog
      _ = 2 ^ m.log2 * 2 ^ (e - t).toNat := Nat.pow_add _ _ _
      _ ≤ m * 2 ^ (e - t).toNat := Nat.mul_le_mul_right _ (Nat.log2_self_le hpos.ne')
  have hscale : ((m <<< (e - t).toNat : ℕ) : ℚ) * 2 ^ (e - (e - t).toNat) = m * 2 ^ e := by
    rw [Nat.shiftLeft_eq, zpow_sub₀ (by norm_num), zpow_natCast]
    push_cast
    field_simp
  rw [hround, ← hscale]
  exact roundWithAccuracy_spec s hample (.exact _)

/-- An exact whole multiple of a power of two is rounded to the nearest double,
whatever its sign. -/
theorem normalize_spec (m : ℤ) (e : ℤ) (z : Sign) :
    Canonical (UnpackedFloat.normalize Format.binary64 m e z) ∧
      value? (UnpackedFloat.normalize Format.binary64 m e z) = some (rounded (m * 2 ^ e)) := by
  rw [UnpackedFloat.normalize]
  rcases lt_trichotomy m 0 with hneg | rfl | hpos
  · rw [Int.compare_eq_lt.mpr hneg]
    obtain ⟨hcanonical, hvalue⟩ := round_spec .negative (m := (-m).toNat) e (by omega)
    refine ⟨hcanonical, ?_⟩
    have hcast : ((-m).toNat : ℚ) = -(m : ℚ) := by
      have : (((-m).toNat : ℤ) : ℚ) = ((-m : ℤ) : ℚ) := by rw [Int.toNat_of_nonneg (by omega)]
      push_cast at this
      exact this
    rw [hvalue, hcast, signed, neg_mul, rounded_neg, neg_neg]
  · simp [value?, Canonical]
  · rw [Int.compare_eq_gt.mpr hpos]
    obtain ⟨hcanonical, hvalue⟩ := round_spec .positive (m := m.toNat) e (by omega)
    refine ⟨hcanonical, ?_⟩
    have hcast : (m.toNat : ℚ) = (m : ℚ) := by
      have : ((m.toNat : ℤ) : ℚ) = ((m : ℤ) : ℚ) := by rw [Int.toNat_of_nonneg (by omega)]
      exact_mod_cast this
    rw [hvalue, hcast, signed]

end Double

end Uplink
