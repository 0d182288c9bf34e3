import Uplink.Double
import Uplink.Proofs.Double.Rounding

/-!
# Numbers in double precision

A double that is neither infinite nor NaN is a rational number, and the operations round the exact
result.

- `Double.number?`: the number that a double is.
- `Double.unpack_pack`: numbers in canonical form are stored as they are.
- `Double.mul_eq`, `div_eq`, `sub_eq`: the operations by what they do on unpacked numbers.
- `Double.number?_mul`, `number?_div`, `number?_sub`, `number?_ofNat`: operations whose result is
  not too large.
- `Double.lt_iff_number`, `le_iff_number`: comparisons.
-/

namespace Uplink

namespace Double

open Float.Model (Format UnpackedFloat totalExponent)
open Float.Model.UnpackedFloat

/-! ## Storing -/

/-- The place of the last digit of a finite number that is not too large. -/
def Bounded : UnpackedFloat → Prop
  | .finite _ _ e _ => e ≤ 971
  | _ => True

/-- A number that is not too large has its last digit at a place that the format
can store. -/
theorem bounded_of_value {u : UnpackedFloat} {v : ℚ} (h : Canonical u) (hv : value? u = some v)
    (hlt : |v| < 2 ^ (1024 : ℤ)) : Bounded u := by
  -- only a finite number has a place to bound
  cases u with
  | finite s m e hm =>
    obtain ⟨-, -, hfull | hplace⟩ := h
    · have habs : |v| = m * 2 ^ e := by
        rw [← Option.some.inj hv]
        have hnonneg : (0 : ℚ) ≤ m * 2 ^ e := mul_nonneg (Nat.cast_nonneg _) (two_zpow_pos e).le
        cases s with
        | positive => exact abs_of_nonneg hnonneg
        | negative => exact (abs_neg _).trans (abs_of_nonneg hnonneg)
      have hpow : (2 : ℚ) ^ (52 + e) < 2 ^ (1024 : ℤ) := by
        rw [zpow_add₀ (by norm_num)]
        refine lt_of_le_of_lt ?_ (habs ▸ hlt)
        refine mul_le_mul_of_nonneg_right ?_ (two_zpow_pos e).le
        exact_mod_cast hfull
      rw [zpow_lt_zpow_iff_right₀ (by norm_num)] at hpow
      show e ≤ 971
      omega
    · show e ≤ 971
      omega
  | notANumber => trivial
  | infinity s => trivial
  | zero s => trivial

/-- A canonical number that is not too large is read back as it was stored. The
exponent field tells normal numbers, whose first digit is not stored, from
subnormal ones. -/
theorem unpack_pack {u : UnpackedFloat} (h : Canonical u) (hbounded : Bounded u) :
    unpack Format.binary64 (pack Format.binary64 u) = u := by
  cases u with
  | notANumber => exact unpack_packedNaN
  | zero s => exact unpack_packedZero
  | infinity s => simp [pack, packedInfinity, unpack]
  | finite s m e hm =>
    obtain ⟨hlt, hle, hfull⟩ := h
    change e ≤ 971 at hbounded
    have hbias : Format.binary64.exponentBias = 1023 := rfl
    have hdigits : Format.binary64.mantissaBits = 53 := rfl
    rw [pack]
    simp only [hbias, hdigits]
    rw [if_neg (by omega)]
    by_cases hnormal : m.log2 + 1 = 53
    · -- a normal number: its exponent field is neither of the reserved ones
      rw [if_pos hnormal]
      have hm52 : 2 ^ 52 ≤ m := (Nat.le_log2 hm.ne').mp (by omega)
      have hfield : (BitVec.ofNat 11 (e + (1023 : ℕ) + (52 : ℕ)).toNat).toNat =
          (e + 1075).toNat := by
        rw [BitVec.toNat_ofNat]
        omega
      have hne : BitVec.ofNat 11 (e + (1023 : ℕ) + (52 : ℕ)).toNat ≠ -1#11 := by
        intro h
        have := congrArg BitVec.toNat h
        rw [hfield] at this
        simp at this
        omega
      have hne' : BitVec.ofNat 11 (e + (1023 : ℕ) + (52 : ℕ)).toNat ≠ 0#11 := by
        intro h
        have := congrArg BitVec.toNat h
        rw [hfield] at this
        simp at this
        omega
      simp only [unpack, unpackExponent_packComponents, unpackMantissa_packComponents,
        unpackSign_packComponents, Sign.ofBitVec_toBitVec]
      rw [if_neg hne, if_neg hne']
      have hmantissa : (1#1 ++ BitVec.ofNat 52 m).toNat = m := by
        rw [BitVec.toNat_append, ← Nat.shiftLeft_add_eq_or_of_lt (BitVec.isLt _),
          BitVec.toNat_ofNat, BitVec.toNat_ofNat]
        omega
      congr 1
      simp only [hbias]
      omega
    · -- a subnormal number: its digits are the mantissa field
      have hlt' : m < 2 ^ 52 := by
        have : m.log2 < 53 := (Nat.log2_lt hm.ne').mpr hlt
        exact (Nat.log2_lt hm.ne').mp (by omega)
      obtain rfl : e = -1074 := hfull.resolve_left (by omega)
      rw [if_neg hnormal]
      have hmantissa : (BitVec.ofNat 52 m).toNat = m := by
        rw [BitVec.toNat_ofNat, Nat.mod_eq_of_lt hlt']
      have hne : BitVec.ofNat 52 m ≠ 0#52 := by
        intro h
        have := congrArg BitVec.toNat h
        rw [hmantissa] at this
        simp at this
        omega
      simp only [unpack, unpackExponent_packComponents, unpackMantissa_packComponents,
        unpackSign_packComponents, Sign.ofBitVec_toBitVec]
      rw [if_neg (by decide), if_pos trivial, dif_neg hne]
      congr 1

/-- Every number read from its format is canonical, and small enough to be
stored again. -/
theorem canonical_unpack (b : BitVec 64) :
    Canonical (unpack Format.binary64 b) ∧ Bounded (unpack Format.binary64 b) := by
  simp only [unpack]
  split
  · split <;> exact ⟨trivial, trivial⟩
  · rename_i hne
    split
    · split
      · exact ⟨trivial, trivial⟩
      · rename_i hzero _
        have hfield : (@unpackExponent Format.binary64 b).toNat = 0 := by rw [hzero]; rfl
        refine ⟨⟨lt_trans (BitVec.isLt _) (by decide), ?_, .inr ?_⟩, ?_⟩
        · simp only [Format.exponentBias]
          omega
        · simp only [Format.exponentBias, hfield]
          norm_num
        · show _ ≤ _
          simp only [Format.exponentBias, hfield]
          norm_num
    · rename_i hzero
      -- a normal number: its first digit is not stored, so it has all 53
      have hpos : 0 < (@unpackExponent Format.binary64 b).toNat := by
        rw [Nat.pos_iff_ne_zero]
        intro h0
        exact hzero (BitVec.eq_of_toNat_eq (by simpa using h0))
      have hlt : (@unpackExponent Format.binary64 b).toNat < 2047 := by
        have hfield : (@unpackExponent Format.binary64 b).toNat < 2 ^ 11 := BitVec.isLt _
        have hne' : (@unpackExponent Format.binary64 b).toNat ≠ 2047 := fun h =>
          hne (BitVec.eq_of_toNat_eq (by simpa using h))
        omega
      refine ⟨⟨BitVec.isLt (1#1 ++ _), ?_, .inl ?_⟩, ?_⟩
      · simp only [Format.exponentBias]
        omega
      · rw [BitVec.toNat_append, ← Nat.shiftLeft_add_eq_or_of_lt (BitVec.isLt _)]
        exact Nat.le_add_right _ _
      · show _ ≤ _
        simp only [Format.exponentBias]
        omega

/-! ## Numbers -/

/-- The number that a double is; none for infinities and NaN. -/
def number? (x : Float) : Option ℚ := value? x.toModel.unpack

variable {x y : Float} {v w : ℚ}

theorem canonical_toModel (x : Float) : Canonical x.toModel.unpack := (canonical_unpack _).1

/-- A double is a zero or has digits; a case analysis on numbers starts with
this. -/
theorem number?_eq_some (h : number? x = some v) :
    (∃ s, x.toModel.unpack = .zero s ∧ v = 0) ∨
      ∃ s m e hm, x.toModel.unpack = .finite s m e hm ∧ v = signed s (m * 2 ^ e) ∧
        m < 2 ^ 53 ∧ -1074 ≤ e ∧ (2 ^ 52 ≤ m ∨ e = -1074) := by
  have hcanonical := canonical_toModel x
  rw [number?] at h
  cases hu : x.toModel.unpack with
  | notANumber => rw [hu] at h; cases h
  | infinity s => rw [hu] at h; cases h
  | zero s =>
    rw [hu] at h
    exact .inl ⟨s, rfl, (Option.some.inj h).symm⟩
  | finite s m e hm =>
    rw [hu] at h hcanonical
    exact .inr ⟨s, m, e, hm, rfl, (Option.some.inj h).symm, hcanonical⟩

/-- A double is not changed by rounding. -/
theorem rounded_number (h : number? x = some v) : rounded v = v := by
  obtain ⟨s, -, rfl⟩ | ⟨s, m, e, hm, -, rfl, hlt, hle, -⟩ := number?_eq_some h
  · exact rounded_zero
  · rw [rounded_signed, rounded_of_digits hlt hle]

/-- A bound on the numbers that are sure to be stored as numbers. -/
def large : ℚ := 2 ^ (1023 : ℤ)

theorem rounded_large : rounded large = large := by
  have := rounded_of_digits (m := 1) (e := 1023) (by norm_num) (by norm_num)
  rwa [Nat.cast_one, one_mul] at this

/-- Powers of two below the bound. -/
theorem pow_le_large {n : ℕ} (h : n ≤ 1023) : (2 : ℚ) ^ n ≤ large := by
  rw [← zpow_natCast, large]
  exact zpow_le_zpow_right₀ (by norm_num) (by omega)

/-- Rounding does not take a number past a double. -/
theorem abs_rounded_le {b : ℚ} (hb : rounded b = b) (h : |v| ≤ b) : |rounded v| ≤ b := by
  obtain ⟨hlow, hhigh⟩ := abs_le.mp h
  have hbelow := rounded_mono hlow
  have habove := rounded_mono hhigh
  rw [rounded_neg, hb] at hbelow
  rw [hb] at habove
  exact abs_le.mpr ⟨hbelow, habove⟩

/-- A result that is not too large is stored as it was rounded. -/
theorem number?_pack {u : UnpackedFloat} (hu : Canonical u) (hvalue : value? u = some (rounded v))
    (hv : |v| ≤ large) : number? (.ofModel (Float.Model.pack u)) = some (rounded v) := by
  have hlt : |rounded v| < 2 ^ (1024 : ℤ) :=
    lt_of_le_of_lt (abs_rounded_le rounded_large hv)
      (zpow_lt_zpow_right₀ (by norm_num) (by norm_num))
  show value? (unpack Format.binary64 (pack Format.binary64 u)) = _
  rw [unpack_pack hu (bounded_of_value hu hvalue hlt), hvalue]

theorem signed_mul (s t : Sign) (a b : ℚ) : signed s a * signed t b = signed (s * t) (a * b) := by
  cases s <;> cases t
  · exact neg_mul_neg a b
  · exact neg_mul a b
  · exact mul_neg a b
  · rfl

theorem signed_div (s t : Sign) (a b : ℚ) : signed s a / signed t b = signed (s / t) (a / b) := by
  cases s <;> cases t
  · exact neg_div_neg_eq a b
  · exact neg_div b a
  · exact div_neg a
  · rfl

theorem signed_zero (s : Sign) : signed s 0 = 0 := by cases s <;> simp [signed]

/-! ## Operations -/

theorem mul_eq (x y : Float) : x * y = .ofModel (Float.Model.pack
    (UnpackedFloat.mul Format.binary64 x.toModel.unpack y.toModel.unpack)) := rfl

theorem div_eq (x y : Float) : x / y = .ofModel (Float.Model.pack
    (UnpackedFloat.div Format.binary64 x.toModel.unpack y.toModel.unpack)) := rfl

theorem sub_eq (x y : Float) : x - y = .ofModel (Float.Model.pack
    (UnpackedFloat.sub Format.binary64 x.toModel.unpack y.toModel.unpack)) := rfl

/-- A product is the exact product, rounded once. -/
theorem number?_mul (hx : number? x = some v) (hy : number? y = some w) (h : |v * w| ≤ large) :
    number? (x * y) = some (rounded (v * w)) := by
  rw [mul_eq]
  obtain ⟨s, hu, rfl⟩ | ⟨s, m, e, hm, hu, rfl, -, -, hfull⟩ := number?_eq_some hx
  · obtain ⟨t, hv, -⟩ | ⟨t, n, f, hn, hv, -⟩ := number?_eq_some hy
    all_goals
      rw [hu, hv]
      exact number?_pack trivial (by simp [UnpackedFloat.mul, value?]) h
  · obtain ⟨t, hv, rfl⟩ | ⟨t, n, f, hn, hv, rfl, -, -, hfull'⟩ := number?_eq_some hy
    · rw [hu, hv]
      exact number?_pack trivial (by simp [UnpackedFloat.mul, value?]) h
    · have hample : Ample (m * n) (e + f) := by
        rcases hfull with hfull | rfl
        · exact .inl (le_trans hfull (Nat.le_mul_of_pos_right m hn))
        · rcases hfull' with hfull' | rfl
          · exact .inl (le_trans hfull' (Nat.le_mul_of_pos_left n hm))
          · exact .inr (by norm_num)
      obtain ⟨hcanonical, hvalue⟩ := roundWithAccuracy_spec (s * t) hample (.exact _)
      have hprod : signed s (m * 2 ^ e) * signed t (n * 2 ^ f) =
          signed (s * t) ((m * n : ℕ) * 2 ^ (e + f)) := by
        rw [signed_mul, zpow_add₀ (by norm_num)]
        push_cast
        ring_nf
      rw [hu, hv]
      refine number?_pack hcanonical ?_ h
      rw [hprod, rounded_signed]
      exact hvalue

/-- The quotient of whole numbers, as division describes it: the residual bits
are found by comparing twice the remainder with the divisor. -/
theorem describes_div (m : ℕ) {n : ℕ} (hn : 0 < n) :
    Describes (ExtendedMantissa.ofMantissaAndAccuracy (m / n) (accuracyOfFraction (m % n) n))
      (m / n) := by
  have hn' : (0 : ℚ) < n := Nat.cast_pos.mpr hn
  have hsplit : (m : ℚ) / n = (m / n : ℕ) + (m % n : ℕ) / n := by
    rw [div_eq_iff hn'.ne', add_mul, div_mul_cancel₀ _ hn'.ne']
    exact_mod_cast (Nat.div_add_mod' m n).symm
  have hrest : ((m % n : ℕ) : ℚ) < n := Nat.cast_lt.mpr (Nat.mod_lt m hn)
  rw [hsplit]
  generalize m / n = q
  generalize m % n = r at hrest ⊢
  rw [accuracyOfFraction]
  split
  · rename_i hzero
    simp [hzero, ExtendedMantissa.ofMantissaAndAccuracy, Describes]
  · rename_i hzero
    have hpos : (0 : ℚ) < r := Nat.cast_pos.mpr (Nat.pos_of_ne_zero hzero)
    have hfraction : 0 < (r : ℚ) / n := div_pos hpos hn'
    have hone : (r : ℚ) / n < 1 := (div_lt_one hn').mpr hrest
    -- below, at and above one half
    rcases Nat.lt_trichotomy (2 * r) n with hlt | heq | hgt
    · have hhalf : (r : ℚ) / n < 1 / 2 := by
        rw [div_lt_div_iff₀ hn' (by norm_num)]
        exact_mod_cast (by omega : r * 2 < 1 * n)
      rw [Nat.compare_eq_lt.mpr hlt]
      exact ⟨by linarith, by linarith⟩
    · have hhalf : (r : ℚ) / n = 1 / 2 := by
        rw [div_eq_div_iff hn'.ne' (by norm_num)]
        exact_mod_cast (by omega : r * 2 = 1 * n)
      rw [Nat.compare_eq_eq.mpr heq]
      show (q : ℚ) + r / n = q + 1 / 2
      rw [hhalf]
    · have hhalf : 1 / 2 < (r : ℚ) / n := by
        rw [div_lt_div_iff₀ (by norm_num) hn']
        exact_mod_cast (by omega : 1 * n < r * 2)
      rw [Nat.compare_eq_gt.mpr hgt]
      exact ⟨by linarith, by linarith⟩

/-- Division scales the dividend so that the quotient has digits enough. Scaling
is exact, so the quotient of the scaled numbers is the exact one. -/
theorem divCore_spec {m n : ℕ} (e f : ℤ) (hm : 0 < m) (hn : 0 < n) :
    ∃ (scaled : ℕ) (place : ℤ),
      divCore Format.binary64 m e n f =
        (scaled / n, place, accuracyOfFraction (scaled % n) n) ∧
      Ample (scaled / n) place ∧ (scaled / n * 2 ^ place : ℚ) = m * 2 ^ e / (n * 2 ^ f) := by
  obtain ⟨place, hplace⟩ : ∃ place, place =
    min (e - f) (Format.binary64.targetExponent (totalExponent m e - totalExponent n f)) := ⟨_, rfl⟩
  refine ⟨m <<< (e - f - place).toNat, place, by rw [hplace]; rfl, ?_, ?_⟩
  · rw [Ample, or_iff_not_imp_right]
    intro hgt
    have htarget : 53 + n.log2 ≤ m.log2 + (e - f - place).toNat := by
      simp only [Format.targetExponent, totalExponent, Format.mantissaBits,
        Format.minExponent] at hplace
      norm_num at hplace
      omega
    have hsplit : 53 + n.log2 = 52 + (n.log2 + 1) := by omega
    have hdivisor : n < 2 ^ (n.log2 + 1) := Nat.lt_log2_self
    have hdividend : 2 ^ m.log2 ≤ m := Nat.log2_self_le hm.ne'
    rw [Nat.le_div_iff_mul_le hn, Nat.shiftLeft_eq]
    calc 2 ^ 52 * n ≤ 2 ^ 52 * 2 ^ (n.log2 + 1) := Nat.mul_le_mul_left _ hdivisor.le
      _ = 2 ^ (53 + n.log2) := by rw [← Nat.pow_add, hsplit]
      _ ≤ 2 ^ (m.log2 + (e - f - place).toNat) := Nat.pow_le_pow_right (by norm_num) htarget
      _ = 2 ^ m.log2 * 2 ^ (e - f - place).toNat := Nat.pow_add _ _ _
      _ ≤ m * 2 ^ (e - f - place).toNat := Nat.mul_le_mul_right _ hdividend
  · have hle : place ≤ e - f := hplace ▸ min_le_left _ _
    have hpow : (2 : ℚ) ^ (e - f - place).toNat = 2 ^ e / 2 ^ f / 2 ^ place := by
      rw [← zpow_natCast, Int.toNat_of_nonneg (by omega), zpow_sub₀ (by norm_num),
        zpow_sub₀ (by norm_num)]
    have hn' : (n : ℚ) ≠ 0 := (Nat.cast_pos.mpr hn).ne'
    have hf := (two_zpow_pos f).ne'
    have hp := (two_zpow_pos place).ne'
    rw [Nat.shiftLeft_eq]
    push_cast
    rw [hpow]
    field_simp

/-- A quotient is the exact quotient, rounded once. -/
theorem number?_div (hx : number? x = some v) (hy : number? y = some w) (hw : w ≠ 0)
    (h : |v / w| ≤ large) : number? (x / y) = some (rounded (v / w)) := by
  rw [div_eq]
  obtain ⟨t, -, rfl⟩ | ⟨t, n, f, hn, hv, rfl, -⟩ := number?_eq_some hy
  · exact absurd rfl hw
  obtain ⟨s, hu, rfl⟩ | ⟨s, m, e, hm, hu, rfl, -⟩ := number?_eq_some hx
  · rw [hu, hv]
    exact number?_pack trivial (by simp [UnpackedFloat.div, value?]) h
  · obtain ⟨scaled, place, hcore, hample, hquotient⟩ := divCore_spec e f hm hn
    obtain ⟨hcanonical, hvalue⟩ := roundWithAccuracy_spec (s / t) hample (describes_div scaled hn)
    have hdiv : UnpackedFloat.div Format.binary64 (.finite s m e hm) (.finite t n f hn) =
        roundWithAccuracy Format.binary64 (s / t) (scaled / n) place
          (accuracyOfFraction (scaled % n) n) := by
      simp only [UnpackedFloat.div, hcore]
    rw [hu, hv, hdiv]
    refine number?_pack hcanonical ?_ h
    rw [signed_div, ← hquotient, rounded_signed]
    exact hvalue

/-- A machine size is converted to the nearest double. -/
theorem number?_ofNat {n : ℕ} (h : n < 2 ^ 64) : number? (ofNat n) = some (rounded n) := by
  have hop : ofNat n = .ofModel (Float.Model.pack
    (UnpackedFloat.normalize Format.binary64 (n.toUInt64.toNat : ℤ) 0 .positive)) := rfl
  have hn : n.toUInt64.toNat = n := by
    rw [Nat.toUInt64_eq, UInt64.toNat_ofNat', Nat.mod_eq_of_lt h]
  obtain ⟨hcanonical, hvalue⟩ := normalize_spec n 0 .positive
  rw [zpow_zero, mul_one, Int.cast_natCast] at hvalue
  rw [hop, hn]
  refine number?_pack hcanonical hvalue ?_
  rw [abs_of_nonneg (Nat.cast_nonneg n)]
  exact le_trans (by exact_mod_cast h.le) (pow_le_large (n := 64) (by norm_num))

theorem cast_apply (s : Sign) (n : ℕ) : ((s.apply n : ℤ) : ℚ) = signed s n := by
  cases s
  · exact Int.cast_neg (n : ℤ)
  · exact Int.cast_natCast n

/-- Digits that are moved to a lower place stand for the same number. -/
theorem decreaseExponent_spec (m : ℕ) {e place : ℤ} (h : place ≤ e) :
    ((decreaseExponent m e place).1 : ℚ) * 2 ^ place = m * 2 ^ e := by
  show ((m <<< (e - place).toNat : ℕ) : ℚ) * 2 ^ place = m * 2 ^ e
  rw [Nat.shiftLeft_eq]
  push_cast
  rw [← zpow_natCast, Int.toNat_of_nonneg (by omega), mul_assoc, ← zpow_add₀ (by norm_num),
    sub_add_cancel]

/-- A difference is the exact difference, rounded once. Both numbers are first
brought to the lower of their places, where the difference is one of whole
numbers. -/
theorem number?_sub (hx : number? x = some v) (hy : number? y = some w) (h : |v - w| ≤ large) :
    number? (x - y) = some (rounded (v - w)) := by
  have hxr := rounded_number hx
  have hyr := rounded_number hy
  have hcx := canonical_toModel x
  have hcy := canonical_toModel y
  rw [sub_eq]
  obtain ⟨s, hu, rfl⟩ | ⟨s, m, e, hm, hu, rfl, -⟩ := number?_eq_some hx
  · obtain ⟨t, hv, rfl⟩ | ⟨t, n, f, hn, hv, rfl, -⟩ := number?_eq_some hy
    · rw [hu, hv]
      refine number?_pack ?_ ?_ h
      · cases s <;> cases t <;> trivial
      · rw [sub_zero, rounded_zero]
        cases s <;> cases t <;> rfl
    · rw [hv] at hcy
      rw [hu, hv]
      refine number?_pack hcy ?_ h
      rw [zero_sub, rounded_neg, hyr]
      cases t
      · exact congrArg some (neg_neg _).symm
      · rfl
  · obtain ⟨t, hv, rfl⟩ | ⟨t, n, f, hn, hv, rfl, -⟩ := number?_eq_some hy
    · rw [hu] at hcx
      rw [hu, hv]
      refine number?_pack hcx ?_ h
      rw [sub_zero, hxr]
      rfl
    · obtain ⟨hcanonical, hvalue⟩ := normalize_spec
        (s.apply (decreaseExponent m e (min e f)).1 - t.apply (decreaseExponent n f (min e f)).1)
        (min e f) .positive
      rw [hu, hv]
      refine number?_pack hcanonical (hvalue.trans ?_) h
      have hscaled : ∀ (s : Sign) (a b : ℚ), signed s a * b = signed s (a * b) := fun s a b => by
        cases s
        · exact neg_mul a b
        · rfl
      rw [Int.cast_sub, cast_apply, cast_apply, sub_mul, hscaled, hscaled,
        decreaseExponent_spec m (min_le_left e f), decreaseExponent_spec n (min_le_right e f)]

/-! ## Comparisons -/

/-- Canonical digits are compared by their place first. This is right because a
number with all its digits is above every number with a lower place. -/
theorem compare_digits {m n b : ℕ} {e f low : ℤ} (hm : m < 2 ^ (b + 1)) (he : low ≤ e)
    (hfull : 2 ^ b ≤ m ∨ e = low) (hn : n < 2 ^ (b + 1)) (hf : low ≤ f)
    (hfull' : 2 ^ b ≤ n ∨ f = low) :
    (compare e f).then (compare m n) = compare ((m : ℚ) * 2 ^ e) (n * 2 ^ f) := by
  -- a lower last place means a smaller number
  have hplaces : ∀ {m n : ℕ} {e f : ℤ}, m < 2 ^ (b + 1) → low ≤ e → (2 ^ b ≤ n ∨ f = low) → e < f →
      (m : ℚ) * 2 ^ e < n * 2 ^ f := by
    intro m n e f hm he hfull hlt
    have hn : 2 ^ b ≤ n := hfull.resolve_right (by omega)
    calc (m : ℚ) * 2 ^ e < 2 ^ (b + 1) * 2 ^ e := by
          refine mul_lt_mul_of_pos_right ?_ (two_zpow_pos e)
          exact_mod_cast hm
      _ = 2 ^ b * 2 ^ (e + 1) := by rw [zpow_add₀ (by norm_num)]; ring
      _ ≤ 2 ^ b * 2 ^ f :=
          mul_le_mul_of_nonneg_left (zpow_le_zpow_right₀ (by norm_num) hlt) (by positivity)
      _ ≤ n * 2 ^ f := by
          refine mul_le_mul_of_nonneg_right ?_ (two_zpow_pos f).le
          exact_mod_cast hn
  rcases lt_trichotomy e f with hlt | rfl | hgt
  · rw [compare_lt_iff_lt.mpr hlt, compare_lt_iff_lt.mpr (hplaces hm he hfull' hlt)]
    rfl
  · have hcancel : ∀ {m n : ℕ}, (m : ℚ) * 2 ^ e < n * 2 ^ e ↔ m < n := by
      intro m n
      rw [mul_lt_mul_iff_left₀ (two_zpow_pos e), Nat.cast_lt]
    rw [compare_eq_iff_eq.mpr rfl]
    rcases lt_trichotomy m n with hlt | rfl | hgt
    · rw [compare_lt_iff_lt.mpr hlt, compare_lt_iff_lt.mpr (hcancel.mpr hlt)]
      rfl
    · rw [compare_eq_iff_eq.mpr rfl, compare_eq_iff_eq.mpr rfl]
      rfl
    · rw [compare_gt_iff_gt.mpr hgt, compare_gt_iff_gt.mpr (hcancel.mpr hgt)]
      rfl
  · rw [compare_gt_iff_gt.mpr hgt, compare_gt_iff_gt.mpr (hplaces hn hf hfull hgt)]
    rfl

/-- Digits of a format with `b + 1` places, all of them unless the last one has
the smallest place. -/
def DigitsOf (b : ℕ) (low : ℤ) : UnpackedFloat → Prop
  | .finite _ m e _ => m < 2 ^ (b + 1) ∧ low ≤ e ∧ (2 ^ b ≤ m ∨ e = low)
  | _ => True

/-- Numbers of one format are compared as the rational numbers that they stand
for. -/
theorem compare_value {u u' : UnpackedFloat} {b : ℕ} {low : ℤ} (hu : DigitsOf b low u)
    (hu' : DigitsOf b low u') (hv : value? u = some v) (hw : value? u' = some w) :
    u.compare u' = some (compare v w) := by
  have hpos : ∀ {m : ℕ} (e : ℤ), 0 < m → (0 : ℚ) < m * 2 ^ e := fun e hm =>
    mul_pos (Nat.cast_pos.mpr hm) (two_zpow_pos e)
  -- zeros and signs decide first; digits are compared only between numbers of one sign
  cases u with
  | notANumber => cases hv
  | infinity s => cases hv
  | zero s =>
    obtain rfl : 0 = v := Option.some.inj hv
    cases u' with
    | notANumber => cases hw
    | infinity t => cases hw
    | zero t =>
      obtain rfl : 0 = w := Option.some.inj hw
      rw [compare_eq_iff_eq.mpr rfl]
      rfl
    | finite t n f hn =>
      obtain rfl : signed t (n * 2 ^ f) = w := Option.some.inj hw
      cases t
      · exact congrArg some (compare_gt_iff_gt.mpr (neg_lt_zero.mpr (hpos f hn))).symm
      · exact congrArg some (compare_lt_iff_lt.mpr (hpos f hn)).symm
  | finite s m e hm =>
    obtain rfl : signed s (m * 2 ^ e) = v := Option.some.inj hv
    cases u' with
    | notANumber => cases hw
    | infinity t => cases hw
    | zero t =>
      obtain rfl : 0 = w := Option.some.inj hw
      cases s
      · exact congrArg some (compare_lt_iff_lt.mpr (neg_lt_zero.mpr (hpos e hm))).symm
      · exact congrArg some (compare_gt_iff_gt.mpr (hpos e hm)).symm
    | finite t n f hn =>
      obtain rfl : signed t (n * 2 ^ f) = w := Option.some.inj hw
      have hdigits := compare_digits hu.1 hu.2.1 hu.2.2 hu'.1 hu'.2.1 hu'.2.2
      cases s <;> cases t
      · show some ((compare e f).then (compare m n)).swap = _
        rw [hdigits]
        rcases lt_trichotomy ((m : ℚ) * 2 ^ e) (n * 2 ^ f) with h | h | h
        · rw [compare_lt_iff_lt.mpr h]
          exact congrArg some (compare_gt_iff_gt.mpr (neg_lt_neg h)).symm
        · rw [compare_eq_iff_eq.mpr h]
          exact congrArg some (compare_eq_iff_eq.mpr (congrArg Neg.neg h)).symm
        · rw [compare_gt_iff_gt.mpr h]
          exact congrArg some (compare_lt_iff_lt.mpr (neg_lt_neg h)).symm
      · exact congrArg some
          (compare_lt_iff_lt.mpr ((neg_lt_zero.mpr (hpos e hm)).trans (hpos f hn))).symm
      · exact congrArg some
          (compare_gt_iff_gt.mpr ((neg_lt_zero.mpr (hpos f hn)).trans (hpos e hm))).symm
      · exact congrArg some hdigits

theorem digitsOf_of_canonical {u : UnpackedFloat} (h : Canonical u) : DigitsOf 52 (-1074) u := by
  cases u <;> exact h

/-- Comparisons of doubles are those of the numbers, and never undecided. -/
theorem compare_number (hx : number? x = some v) (hy : number? y = some w) :
    x.toModel.unpack.compare y.toModel.unpack = some (compare v w) :=
  compare_value (digitsOf_of_canonical (canonical_toModel x))
    (digitsOf_of_canonical (canonical_toModel y)) hx hy

theorem lt_iff_number (hx : number? x = some v) (hy : number? y = some w) : x < y ↔ v < w := by
  show decide (x.toModel.unpack.lt y.toModel.unpack = true) = true ↔ _
  rw [decide_eq_true_iff, UnpackedFloat.lt, beq_iff_eq, compare_number hx hy, Option.some.injEq,
    compare_lt_iff_lt]

theorem isLE_compare {a b : ℚ} : (compare a b).isLE = true ↔ a ≤ b := by
  rcases lt_trichotomy a b with h | h | h
  · rw [compare_lt_iff_lt.mpr h]
    exact iff_of_true rfl h.le
  · rw [compare_eq_iff_eq.mpr h]
    exact iff_of_true rfl h.le
  · rw [compare_gt_iff_gt.mpr h]
    exact iff_of_false (by decide) (not_le.mpr h)

theorem le_iff_number (hx : number? x = some v) (hy : number? y = some w) : x ≤ y ↔ v ≤ w := by
  show decide (x.toModel.unpack.le y.toModel.unpack = true) = true ↔ _
  rw [decide_eq_true_iff, UnpackedFloat.le, compare_number hx hy, Option.any_some, isLE_compare]

end Double

end Uplink
