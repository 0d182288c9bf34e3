import Uplink.Budget
import Uplink.Proofs.Checked
import Uplink.Proofs.Double.Conversion

/-!
# Shares of the resource elements

The numbers of elements are found in double precision. Of the roundings on the way only two facts
matter: a part of a whole is not more than the whole, and more bits never need fewer elements.

- `Budget.elementsOf_part_le`: a part `alpha ≤ 1` of `n` elements is at most `n` elements;
  `Budget.IsPart` says the same of any part.
- `Budget.required_mono`: two bits need at least as many elements as one.
-/

namespace Uplink

namespace Budget

open Double
open Float.Model (Format UnpackedFloat)
open Float.Model.UnpackedFloat

variable {x y d : Float} {a b : ℚ}

/-! ## The number of elements -/

/-- The noise that is taken off a product. -/
def noise : ℚ := (4835703278458517 : ℕ) * 2 ^ (-82 : ℤ)

theorem number?_noise : number? 1e-9 = some noise := rfl

theorem noise_pos : 0 < noise := mul_pos (by norm_num) (two_zpow_pos _)

theorem noise_le_one : noise ≤ 1 := by norm_num [noise]

/-- A bound on the numbers from which the noise is taken. -/
def moderate : ℚ := 2 ^ (1022 : ℤ)

theorem rounded_moderate : rounded moderate = moderate := by
  have := rounded_of_digits (m := 1) (e := 1022) (by norm_num) (by norm_num)
  rwa [Nat.cast_one, one_mul] at this

theorem pow_le_moderate {n : ℤ} (h : n ≤ 1022) : (2 : ℚ) ^ n ≤ moderate :=
  zpow_le_zpow_right₀ (by norm_num) h

theorem moderate_add_one_le : moderate + 1 ≤ large := by
  have hdouble : large = moderate + moderate := by
    rw [large, moderate, show (1023 : ℤ) = 1022 + 1 from rfl, zpow_add₀ (by norm_num)]
    ring
  have hone : 1 ≤ moderate := one_le_zpow₀ (by norm_num) (by norm_num)
  rw [hdouble]
  exact add_le_add_right hone _

/-- The elements of a number, by exact arithmetic and one rounding. For moderate
numbers nothing overflows. -/
theorem elementsOf_eq (hx : number? x = some a) (ha : |a| ≤ moderate) :
    elementsOf x = min ⌈rounded (a - noise)⌉₊ (2 ^ 64 - 1) := by
  refine ceil_eq (number?_sub hx number?_noise ?_)
  obtain ⟨hlow, hhigh⟩ := abs_le.mp ha
  have := noise_pos
  have := noise_le_one
  have := moderate_add_one_le
  exact abs_le.mpr ⟨by linarith, by linarith⟩

/-- A larger number needs at least as many elements: rounding keeps the order,
and so does rounding up. -/
theorem elementsOf_mono (hx : number? x = some a) (ha : |a| ≤ moderate) (hy : number? y = some b)
    (hb : |b| ≤ moderate) (hab : a ≤ b) : elementsOf x ≤ elementsOf y := by
  rw [elementsOf_eq hx ha, elementsOf_eq hy hb]
  exact min_le_min_right _ (Nat.ceil_mono (rounded_mono (sub_le_sub_right hab _)))

/-- A number that is at most a count needs no more elements than that, because
what is taken off only makes it smaller. -/
theorem elementsOf_le {n : ℕ} (hx : number? x = some a) (ha : |a| ≤ moderate) (h : a ≤ n)
    (hn : n ≤ 2 ^ 53) : elementsOf x ≤ n := by
  rw [elementsOf_eq hx ha]
  refine le_trans (min_le_left _ _) (Nat.ceil_le.mpr ?_)
  rw [← rounded_natCast hn]
  have := noise_pos
  exact rounded_mono (by linarith)

/-- Neither NaN nor minus infinity counts as elements. -/
theorem elementsOf_eq_zero
    (h : x.toModel.unpack = .notANumber ∨ x.toModel.unpack = .infinity .negative) :
    elementsOf x = 0 := by
  rw [elementsOf, Double.sub_eq]
  rcases h with h | h <;> rw [h] <;> rfl

/-- Rounding does not take a number past a power of two. -/
theorem abs_rounded_le_zpow {e : ℤ} (he : -1074 ≤ e) (h : |a| ≤ 2 ^ e) : |rounded a| ≤ 2 ^ e := by
  refine abs_rounded_le ?_ h
  have := rounded_of_digits (m := 1) (e := e) (by norm_num) he
  rwa [Nat.cast_one, one_mul] at this

/-- Nor does it take a number below one. -/
theorem le_abs_rounded {e : ℤ} (he : -1074 ≤ e) (h : 2 ^ e ≤ |a|) : 2 ^ e ≤ |rounded a| := by
  have hpow : rounded (2 ^ e) = 2 ^ e := by
    have := rounded_of_digits (m := 1) (e := e) (by norm_num) he
    rwa [Nat.cast_one, one_mul] at this
  rcases le_abs.mp h with h | h
  · exact le_trans (hpow ▸ rounded_mono h) (le_abs_self _)
  · have := rounded_mono h
    rw [hpow, rounded_neg] at this
    exact le_trans this (neg_le_abs _)

/-- Machine sizes stay within their power of two when they are rounded. -/
theorem abs_ofNat_le {n : ℕ} (h : n < 2 ^ 64) : |rounded (n : ℚ)| ≤ 2 ^ (64 : ℤ) := by
  refine abs_rounded_le_zpow (by norm_num) ?_
  rw [abs_of_nonneg (Nat.cast_nonneg n)]
  exact_mod_cast h.le

/-- A product of moderate numbers is moderate, with the exponents added. -/
theorem abs_mul_le {e f : ℤ} (ha : |a| ≤ 2 ^ e) (hb : |b| ≤ 2 ^ f) : |a * b| ≤ 2 ^ (e + f) := by
  rw [abs_mul, zpow_add₀ (by norm_num)]
  exact mul_le_mul ha hb (abs_nonneg b) (two_zpow_pos e).le

/-- A quotient of moderate numbers is moderate, if the divisor keeps away from
zero. -/
theorem abs_div_le {e f : ℤ} (ha : |a| ≤ 2 ^ e) (hb : 2 ^ f ≤ |b|) : |a / b| ≤ 2 ^ (e - f) := by
  rw [abs_div, zpow_sub₀ (by norm_num)]
  exact div_le_div₀ (two_zpow_pos e).le ha (two_zpow_pos f) hb

/-- A product whose exponent is within the range of doubles is a number, rounded
once. -/
theorem number?_mul_of_le {e f : ℤ} (hx : number? x = some a) (hy : number? y = some b)
    (ha : |a| ≤ 2 ^ e) (hb : |b| ≤ 2 ^ f) (hlow : -1074 ≤ e + f) (hhigh : e + f ≤ 1022) :
    number? (x * y) = some (rounded (a * b)) ∧ |rounded (a * b)| ≤ 2 ^ (e + f) := by
  have h := abs_mul_le ha hb
  refine ⟨number?_mul hx hy (h.trans ?_), abs_rounded_le_zpow hlow h⟩
  exact zpow_le_zpow_right₀ (by norm_num) (by omega)

/-- A part of `n` elements is at most `n` elements. The part may be any single
precision number up to one, and minus infinity too. -/
theorem elementsOf_part_le {alpha : Float32} {n : ℕ} (halpha : alpha ≤ 1) (hn : n ≤ 2 ^ 53) :
    elementsOf (ofSingle alpha * ofNat n) ≤ n := by
  have hnumber : number? (ofNat n) = some (n : ℚ) := by
    rw [number?_ofNat (by omega), rounded_natCast hn]
  obtain ⟨v, hv, hle, hrange⟩ | hinf := ofSingle_le_one halpha
  · have hcount : |(n : ℚ)| ≤ 2 ^ (53 : ℤ) := by
      rw [abs_of_nonneg (Nat.cast_nonneg n)]
      exact_mod_cast hn
    obtain ⟨hproduct, habs⟩ :=
      number?_mul_of_le hv hnumber hrange hcount (by norm_num) (by norm_num)
    refine elementsOf_le hproduct (habs.trans (pow_le_moderate (by norm_num))) ?_ hn
    · have := rounded_mono (mul_le_of_le_one_left (Nat.cast_nonneg n) hle)
      rwa [rounded_natCast hn] at this
  · -- minus infinity times a count is minus infinity or NaN
    refine le_of_eq_of_le (elementsOf_eq_zero ?_) (Nat.zero_le n)
    rw [Double.mul_eq, hinf]
    obtain ⟨s, hu, -⟩ | ⟨s, m, e, hm, hu, hvalue, -⟩ := number?_eq_some hnumber
    · rw [hu]
      exact .inl (unpack_pack trivial trivial)
    · rw [hu]
      cases s with
      | positive => exact .inr (unpack_pack trivial trivial)
      | negative =>
        have hpos : (0 : ℚ) < m * 2 ^ e := mul_pos (Nat.cast_pos.mpr hm) (two_zpow_pos e)
        have hneg : (n : ℚ) = -(m * 2 ^ e) := hvalue
        have := Nat.cast_nonneg (α := ℚ) n
        linarith

/-- Parts of the elements that are at most all of them. -/
def IsPart (alpha : Float32) : Prop :=
  ∀ n : ℕ, n ≤ 2 ^ 53 → elementsOf (ofSingle alpha * Double.ofNat n) ≤ n

/-- NaN is a part too: it counts no elements, because a comparison with it never
holds. -/
theorem isPart_of_not_lt {alpha : Float32} (h : ¬ 1 < alpha) : IsPart alpha := by
  intro n hn
  obtain hle | hnan := le_one_or_notANumber h
  · exact elementsOf_part_le hle hn
  · refine le_of_eq_of_le (elementsOf_eq_zero (.inl ?_)) (Nat.zero_le n)
    rw [Double.mul_eq, hnan]
    exact unpack_pack trivial trivial

theorem isPart_of_le {alpha : Float32} (h : alpha ≤ 1) : IsPart alpha :=
  fun _ hn => elementsOf_part_le h hn

/-! ## More bits -/

/-- `b` lies beyond `a`, seen from zero. -/
def Beyond (a b : ℚ) : Prop := (0 ≤ a ∧ a ≤ b) ∨ (b ≤ a ∧ a ≤ 0)

namespace Beyond

/-- What lies beyond stays beyond when both are multiplied. -/
theorem mul (h : Beyond a b) {c : ℚ} (hc : 0 ≤ c) : Beyond (a * c) (b * c) := by
  rcases h with ⟨h0, h⟩ | ⟨h, h0⟩
  · exact .inl ⟨mul_nonneg h0 hc, mul_le_mul_of_nonneg_right h hc⟩
  · exact .inr ⟨mul_le_mul_of_nonneg_right h hc, mul_nonpos_of_nonpos_of_nonneg h0 hc⟩

/-- Rounding keeps what lies beyond, since it keeps the order and does not cross
zero. -/
theorem round (h : Beyond a b) : Beyond (rounded a) (rounded b) := by
  rcases h with ⟨h0, h⟩ | ⟨h, h0⟩
  · exact .inl ⟨rounded_nonneg h0, rounded_mono h⟩
  · refine .inr ⟨rounded_mono h, ?_⟩
    rw [← rounded_zero]
    exact rounded_mono h0

theorem div_le (h : Beyond a b) {c : ℚ} (hc : 0 < a / c) : a / c ≤ b / c := by
  rcases h with ⟨h0, h⟩ | ⟨h, h0⟩ <;> rcases lt_or_ge c 0 with hneg | hpos
  · exact absurd (div_nonpos_of_nonneg_of_nonpos h0 hneg.le) (not_le.mpr hc)
  · exact div_le_div_of_nonneg_right h hpos
  · exact (div_le_div_right_of_neg hneg).mpr h
  · exact absurd (div_nonpos_of_nonpos_of_nonneg h0 hpos) (not_le.mpr hc)

end Beyond

/-- A number over an infinity is zero. -/
theorem number?_div_infinity {t : Sign} (hx : number? x = some a)
    (hd : d.toModel.unpack = .infinity t) : number? (x / d) = some 0 := by
  rw [Double.div_eq, hd, number?]
  obtain ⟨s, hu, -⟩ | ⟨s, m, e, hm, hu, -⟩ := number?_eq_some hx <;> rw [hu] <;>
    exact congrArg value? (unpack_pack (u := .zero (s / t)) trivial trivial)

/-- Over a zero, zero is no number, and anything else becomes an infinity. What
lies beyond a number has its sign, so it becomes the same infinity. -/
theorem div_zero_eq {t : Sign} (hx : number? x = some a) (hy : number? y = some b)
    (h : Beyond a b) (hd : d.toModel.unpack = .zero t) :
    (x / d).toModel.unpack = .notANumber ∨ x / d = y / d := by
  obtain ⟨s, hu, -⟩ | ⟨s, m, e, hm, hu, ha, -⟩ := number?_eq_some hx
  · left
    rw [Double.div_eq, hd, hu]
    exact unpack_pack trivial trivial
  · right
    have hpos : ∀ {m : ℕ} (e : ℤ), 0 < m → (0 : ℚ) < m * 2 ^ e := fun e hm =>
      mul_pos (Nat.cast_pos.mpr hm) (two_zpow_pos e)
    obtain ⟨r, n, f, hn, hv, hb⟩ : ∃ r n f hn, y.toModel.unpack = .finite r n f hn ∧ r = s := by
      obtain ⟨r, hv, rfl⟩ | ⟨r, n, f, hn, hv, rfl, -⟩ := number?_eq_some hy
      · have := hpos e hm
        rcases h with ⟨h0, h⟩ | ⟨h, h0⟩ <;> cases s <;> subst ha <;>
          simp only [signed] at h0 h <;> exfalso <;> linarith
      · refine ⟨r, n, f, hn, hv, ?_⟩
        have := hpos e hm
        have := hpos f hn
        rcases h with ⟨h0, h⟩ | ⟨h, h0⟩ <;> cases s <;> cases r <;> first
          | rfl
          | (subst ha; simp only [signed] at h0 h; exfalso; linarith)
    subst hb
    rw [Double.div_eq, Double.div_eq, hd, hu, hv]
    rfl

/-- What lies beyond needs at least as many elements, whatever it is divided by.
The divisor comes from a configuration and may be any double, so zeros,
infinities and NaN are looked at one by one. -/
theorem elementsOf_div_mono (hx : number? x = some a) (hy : number? y = some b) (h : Beyond a b)
    (hrange : ∀ c, number? d = some c → c ≠ 0 → |a / c| ≤ moderate ∧ |b / c| ≤ moderate) :
    elementsOf (x / d) ≤ elementsOf (y / d) := by
  -- a divisor that is no number leaves no elements on either side, or the same
  cases hd : d.toModel.unpack with
  | notANumber =>
    refine le_of_eq_of_le (elementsOf_eq_zero (.inl ?_)) (Nat.zero_le _)
    rw [Double.div_eq, hd]
    obtain ⟨s, hu, -⟩ | ⟨s, m, e, hm, hu, -⟩ := number?_eq_some hx <;> rw [hu] <;>
      exact unpack_pack trivial trivial
  | infinity t =>
    have := elementsOf_le (n := 0) (number?_div_infinity hx hd)
      (by rw [abs_zero]; exact (two_zpow_pos _).le) (by simp) (by norm_num)
    exact le_trans this (Nat.zero_le _)
  | zero t =>
    rcases div_zero_eq hx hy h hd with hnot | hsame
    · exact le_of_eq_of_le (elementsOf_eq_zero (.inl hnot)) (Nat.zero_le _)
    · rw [hsame]
  | finite t n f hn =>
    have hc : number? d = some (signed t (n * 2 ^ f)) := by rw [number?, hd]; rfl
    have hne : signed t ((n : ℚ) * 2 ^ f) ≠ 0 := by
      have : (n : ℚ) * 2 ^ f ≠ 0 := (mul_pos (Nat.cast_pos.mpr hn) (two_zpow_pos f)).ne'
      cases t
      · exact neg_ne_zero.mpr this
      · exact this
    obtain ⟨ha, hb⟩ := hrange _ hc hne
    have hlarge : moderate ≤ large :=
      le_trans (le_add_of_nonneg_right zero_le_one) moderate_add_one_le
    have hqx := number?_div hx hc hne (ha.trans hlarge)
    have hqy := number?_div hy hc hne (hb.trans hlarge)
    have hqa := abs_rounded_le rounded_moderate ha
    have hqb := abs_rounded_le rounded_moderate hb
    rcases le_or_gt (a / signed t (n * 2 ^ f)) 0 with hle | hgt
    · have hzero : rounded (a / signed t (n * 2 ^ f)) ≤ (0 : ℕ) := by
        rw [Nat.cast_zero, ← rounded_zero]
        exact rounded_mono hle
      exact le_trans (elementsOf_le hqx hqa hzero (by norm_num)) (Nat.zero_le _)
    · exact elementsOf_mono hqx hqa hqy hqb (rounded_mono (h.div_le hgt))

/-- Infinities and NaN do not become numbers again by a product or by a divisor
that is a number. -/
theorem number?_scaled_eq_none (hx : number? x = none) (hd : number? d = some b) (hb : b ≠ 0)
    (y : Float) : number? (x / d * y) = none := by
  obtain ⟨t, -, rfl⟩ | ⟨t, n, f, hn, hd, -⟩ := number?_eq_some hd
  · exact absurd rfl hb
  rw [number?] at hx
  rw [Double.mul_eq, Double.div_eq, number?, hd]
  cases hu : x.toModel.unpack with
  | finite => rw [hu] at hx; cases hx
  | zero => rw [hu] at hx; cases hx
  | notANumber =>
    rw [show (Float.ofModel (Float.Model.pack (UnpackedFloat.div Format.binary64 .notANumber
      (.finite t n f hn)))).toModel.unpack = .notANumber from unpack_pack trivial trivial]
    cases y.toModel.unpack <;>
      exact congrArg value? (unpack_pack (u := .notANumber) trivial trivial)
  | infinity s =>
    rw [show (Float.ofModel (Float.Model.pack (UnpackedFloat.div Format.binary64 (.infinity s)
      (.finite t n f hn)))).toModel.unpack = .infinity (s / t) from unpack_pack trivial trivial]
    cases y.toModel.unpack with
    | notANumber => exact congrArg value? (unpack_pack (u := .notANumber) trivial trivial)
    | zero => exact congrArg value? (unpack_pack (u := .notANumber) trivial trivial)
    | infinity r => exact congrArg value? (unpack_pack (u := .infinity _) trivial trivial)
    | finite r => exact congrArg value? (unpack_pack (u := .infinity _) trivial trivial)

theorem number?_1024 : number? 1024 = some 1024 := by
  show some ((2 ^ 52 : ℕ) * 2 ^ (-42 : ℤ) : ℚ) = _
  norm_num

/-- A single precision number times a count that is not zero keeps away from
zero, so that a division by it does not overflow. -/
theorem le_abs_scaled {rate : Float32} {c : ℚ} {n : ℕ} (hn : n < 2 ^ 64)
    (hc : number? (ofSingle rate / 1024 * ofNat n) = some c) (hne : c ≠ 0) :
    2 ^ (-159 : ℤ) ≤ |c| := by
  obtain ⟨v, -, hv, hhigh, hlow⟩ | hrest := ofSingle_spec rate
  · have h1024 : |(1024 : ℚ)| = 2 ^ (10 : ℤ) := by norm_num
    have hquotient : |v / 1024| ≤ 2 ^ (118 : ℤ) := abs_div_le hhigh h1024.ge
    have hrate := number?_div hv number?_1024 (by norm_num)
      (hquotient.trans (pow_le_large (n := 118) (by norm_num)))
    obtain ⟨hscaled, -⟩ := number?_mul_of_le hrate (number?_ofNat hn)
      (abs_rounded_le_zpow (by norm_num) hquotient) (abs_ofNat_le hn) (by norm_num) (by norm_num)
    obtain rfl := Option.some.inj (hc.symm.trans hscaled)
    rcases hlow with rfl | hlow
    · exact absurd (by rw [zero_div, rounded_zero, zero_mul, rounded_zero]) hne
    rcases Nat.eq_zero_or_pos n with rfl | hpos
    · exact absurd (by rw [Nat.cast_zero, rounded_zero, mul_zero, rounded_zero]) hne
    have hvalue : 2 ^ (-159 : ℤ) ≤ |rounded (v / 1024)| := by
      refine le_abs_rounded (by norm_num) ?_
      rw [abs_div, h1024, le_div_iff₀ (two_zpow_pos _), ← zpow_add₀ (by norm_num)]
      exact hlow
    have hcount : 1 ≤ rounded (n : ℚ) := by
      have hone : rounded ((1 : ℕ) : ℚ) = (1 : ℕ) := rounded_natCast (by norm_num)
      rw [← Nat.cast_one, ← hone]
      exact rounded_mono (by exact_mod_cast hpos)
    refine le_abs_rounded (by norm_num) ?_
    rw [abs_mul, abs_of_nonneg (zero_le_one.trans hcount)]
    exact hvalue.trans (le_mul_of_one_le_right (abs_nonneg _) hcount)
  · have hnone : number? (ofSingle rate) = none := by
      obtain ⟨s, -, hu⟩ | ⟨-, hu⟩ := hrest <;> rw [number?, hu] <;> rfl
    rw [number?_scaled_eq_none hnone number?_1024 (by norm_num)] at hc
    cases hc

/-- Without a weight that is a number, it does not matter how many bits there
are. -/
theorem weighted_eq (h : number? x = none) : Double.ofNat 1 * x = Double.ofNat 2 * x := by
  have hone : (Double.ofNat 1).toModel.unpack = .finite .positive (2 ^ 52) (-52) (by norm_num) :=
    rfl
  have htwo : (Double.ofNat 2).toModel.unpack = .finite .positive (2 ^ 52) (-51) (by norm_num) :=
    rfl
  rw [Double.mul_eq, Double.mul_eq, hone, htwo]
  rw [number?] at h
  cases hu : x.toModel.unpack with
  | finite => rw [hu] at h; cases h
  | zero => rw [hu] at h; cases h
  | notANumber => rfl
  | infinity s => rfl

/-- A single precision number that is finite stays below the overflow of its
format. -/
theorem abs_ofSingle_le {weight : Float32} {v : ℚ} (h : number? (ofSingle weight) = some v) :
    |v| ≤ 2 ^ (128 : ℤ) := by
  obtain ⟨w, -, hw, hhigh, -⟩ | ⟨s, -, hu⟩ | ⟨-, hu⟩ := ofSingle_spec weight
  · rwa [← Option.some.inj (hw.symm.trans h)]
  · rw [number?, hu] at h; cases h
  · rw [number?, hu] at h; cases h

/-- One bit or two, weighted. There is a single rounding, since the count is a
number of the format. -/
theorem number?_weighted {weight : Float32} {v : ℚ} {k : ℕ}
    (h : number? (ofSingle weight) = some v) (hk : k ≤ 2) :
    number? (Double.ofNat k * ofSingle weight) = some (rounded (k * v)) ∧
      |rounded (k * v)| ≤ 2 ^ (1 + 128 : ℤ) := by
  have hcount : |(k : ℚ)| ≤ 2 ^ (1 : ℤ) := by
    rw [abs_of_nonneg (Nat.cast_nonneg k), zpow_one]
    exact_mod_cast hk
  have hnumber : number? (Double.ofNat k) = some (k : ℚ) := by
    rw [number?_ofNat (by omega), rounded_natCast (by omega)]
  exact number?_mul_of_le hnumber h hcount (abs_ofSingle_le h) (by norm_num) (by norm_num)

/-- Twice the weight lies beyond the weight, on whichever side of zero. -/
theorem beyond_weighted (v : ℚ) : Beyond (rounded ((1 : ℕ) * v)) (rounded ((2 : ℕ) * v)) := by
  refine Beyond.round ?_
  push_cast
  rcases le_or_gt 0 v with h | h
  · exact .inl ⟨by linarith, by linarith⟩
  · exact .inr ⟨by linarith, by linarith⟩

/-- A count that is not zero is at least one, so that a division by it does not
overflow either. -/
theorem one_le_abs_ofNat {n : ℕ} {c : ℚ} (hn : n < 2 ^ 64)
    (hc : number? (Double.ofNat n) = some c) (hne : c ≠ 0) : 2 ^ (0 : ℤ) ≤ |c| := by
  rw [number?_ofNat hn] at hc
  rw [← Option.some.inj hc] at hne ⊢
  refine le_abs_rounded (by norm_num) ?_
  rcases Nat.eq_zero_or_pos n with rfl | hpos
  · exact absurd (by rw [Nat.cast_zero, rounded_zero]) hne
  · rw [abs_of_nonneg (Nat.cast_nonneg _), zpow_zero]
    exact_mod_cast hpos

/-- Two bits need at least as many elements as one. The weight is any single
precision number, negative ones, infinities and NaN included, so this is not
just that a product grows. -/
theorem required_mono {q : BudgetRequest} {supply : Supply} {beta : Float32} {m n : ℕ}
    (hplain : supply.plain < 2 ^ 64) (hmessage : supply.messageBits < 2 ^ 64)
    (hone : required q supply 1 beta = .ok m) (htwo : required q supply 2 beta = .ok n) :
    m ≤ n := by
  -- so few bits carry no check
  have hadd : ∀ {k : ℕ}, k ≤ 2 → Size.add k (uciCheckLength k) = .ok k := by
    intro k hk
    rw [uciCheckLength, if_pos (by omega)]
    exact Size.add_of_lt (Nat.lt_of_le_of_lt hk (by decide))
  simp only [required, hadd (by norm_num : 1 ≤ 2), hadd (le_refl 2), ok_bind] at hone htwo
  -- an infinite weight, or NaN, makes the same of both counts
  cases hv : number? (ofSingle beta) with
  | none =>
    rw [weighted_eq hv, htwo] at hone
    exact (Except.ok.inj hone).ge
  | some v =>
    obtain ⟨hx, hxa⟩ := number?_weighted hv (by norm_num : 1 ≤ 2)
    obtain ⟨hy, hyb⟩ := number?_weighted hv (le_refl 2)
    split at hone
    case isTrue hdata =>
      rw [if_pos hdata] at htwo
      rw [← Except.ok.inj hone, ← Except.ok.inj htwo]
      -- the products with the elements, over the message bits
      obtain ⟨hx', hxa'⟩ := number?_mul_of_le hx (number?_ofNat hplain) hxa (abs_ofNat_le hplain)
        (by norm_num) (by norm_num)
      obtain ⟨hy', hyb'⟩ := number?_mul_of_le hy (number?_ofNat hplain) hyb (abs_ofNat_le hplain)
        (by norm_num) (by norm_num)
      have hbeyond := ((beyond_weighted v).mul (rounded_nonneg (Nat.cast_nonneg supply.plain))).round
      refine elementsOf_div_mono hx' hy' hbeyond fun c hc hne => ?_
      have hcount := one_le_abs_ofNat hmessage hc hne
      exact ⟨(abs_div_le hxa' hcount).trans (pow_le_moderate (by norm_num)),
        (abs_div_le hyb' hcount).trans (pow_le_moderate (by norm_num))⟩
    case isFalse hdata =>
      rw [if_neg hdata] at htwo
      rw [← Except.ok.inj hone, ← Except.ok.inj htwo]
      -- without data the code rate takes the place of the message bits
      have horder : q.modulation.order < 2 ^ 64 := by cases q.modulation <;> decide
      refine elementsOf_div_mono hx hy (beyond_weighted v) fun c hc hne => ?_
      have hrate := le_abs_scaled horder hc hne
      exact ⟨(abs_div_le hxa hrate).trans (pow_le_moderate (by norm_num)),
        (abs_div_le hyb hrate).trans (pow_le_moderate (by norm_num))⟩

end Budget

end Uplink
