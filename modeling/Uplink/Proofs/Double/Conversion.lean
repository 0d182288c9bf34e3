import Uplink.Proofs.Double.Value

/-!
# Conversion to and from double precision

- `Double.toUInt64_toNat`: the part before the point.
- `Double.ceil_eq`: the least whole number that is not below.
- `Double.ofSingle_spec`: conversion from single precision; `ofSingle_le_one`.
-/

namespace Uplink

namespace Double

open Float.Model (Format UnpackedFloat totalExponent)
open Float.Model.UnpackedFloat

variable {x y : Float} {v w : ℚ}

/-! ## Whole numbers -/

/-- Digits behind the point are cut off, towards zero. -/
theorem roundToInt_eq (s : Sign) (m : ℕ) (e : ℤ) :
    roundToInt s m e = s.apply (⌊(m * 2 ^ e : ℚ)⌋₊ : ℕ) := by
  show s.apply (((ExtendedMantissa.ofMantissaAndAccuracy (m <<< (e - 0).toNat) .exact) >>>
    (0 - (e - (e - 0).toNat)).toNat).mantissa : ℕ) = _
  have hsplit : (2 : ℚ) ^ e = 2 ^ (e - 0).toNat / 2 ^ (0 - (e - (e - 0).toNat)).toNat := by
    rw [← zpow_natCast, ← zpow_natCast, ← zpow_sub₀ (by norm_num)]
    congr 1
    omega
  rw [← ((Describes.exact _).shiftRight _).floor_eq, Nat.shiftLeft_eq, hsplit, mul_div_assoc']
  push_cast
  rfl

/-- The part before the point, none of a negative number. Numbers that 64 bits
do not hold are excluded. -/
theorem toUInt64_toNat (h : number? x = some v) (hv : v < 2 ^ 64) : x.toUInt64.toNat = ⌊v⌋₊ := by
  have hop : x.toUInt64 =
      UInt64.ofNatClamp (toInt 0 (UInt64.size - 1) x.toModel.unpack).toNat := rfl
  have hfloor : (toInt 0 (UInt64.size - 1) x.toModel.unpack).toNat = ⌊v⌋₊ := by
    obtain ⟨s, hu, rfl⟩ | ⟨s, m, e, hm, hu, rfl, -⟩ := number?_eq_some h
    · rw [hu, Nat.floor_zero]
      rfl
    · rw [hu]
      show (roundToInt s m e).toNat = _
      rw [roundToInt_eq]
      cases s with
      | positive => exact Int.toNat_natCast _
      | negative =>
        have hnonpos : -((m : ℚ) * 2 ^ e) ≤ 0 :=
          neg_nonpos.mpr (mul_nonneg (Nat.cast_nonneg m) (two_zpow_pos e).le)
        rw [show signed .negative ((m : ℚ) * 2 ^ e) = -(m * 2 ^ e) from rfl,
          Nat.floor_of_nonpos hnonpos]
        show (-((⌊(m * 2 ^ e : ℚ)⌋₊ : ℕ) : ℤ)).toNat = 0
        omega
  have hlt : ⌊v⌋₊ < UInt64.size := by
    show ⌊v⌋₊ < 2 ^ 64
    rw [Nat.floor_lt' (by norm_num)]
    exact_mod_cast hv
  rw [hop, hfloor, UInt64.toNat_ofNatClamp_of_lt hlt]

/-- Numbers with digits behind the point are small: 53 digits reach no further.
-/
theorem whole_or_small (h : number? x = some v) : v = ⌊v⌋₊ ∨ v < 2 ^ 53 := by
  obtain ⟨s, -, rfl⟩ | ⟨s, m, e, hm, -, rfl, hlt, -⟩ := number?_eq_some h
  · exact .inr (by norm_num)
  · cases s with
    | negative =>
      refine .inr (lt_of_le_of_lt ?_ (by norm_num : (0 : ℚ) < 2 ^ 53))
      exact neg_nonpos.mpr (mul_nonneg (Nat.cast_nonneg m) (two_zpow_pos e).le)
    | positive =>
      show (m : ℚ) * 2 ^ e = _ ∨ (m : ℚ) * 2 ^ e < _
      rcases le_or_gt 0 e with hle | hneg
      · obtain ⟨k, rfl⟩ := Int.eq_ofNat_of_zero_le hle
        have hwhole : (m : ℚ) * 2 ^ (k : ℤ) = ((m * 2 ^ k : ℕ) : ℚ) := by push_cast; rfl
        refine .inl ?_
        show (m : ℚ) * 2 ^ (k : ℤ) = (⌊(m : ℚ) * 2 ^ (k : ℤ)⌋₊ : ℕ)
        rw [hwhole, Nat.floor_natCast]
      · refine .inr ?_
        calc (m : ℚ) * 2 ^ e ≤ m * 2 ^ (0 : ℤ) :=
              mul_le_mul_of_nonneg_left (zpow_le_zpow_right₀ (by norm_num) hneg.le)
                (Nat.cast_nonneg m)
          _ = m := by rw [zpow_zero, mul_one]
          _ < 2 ^ 53 := by exact_mod_cast hlt

theorem number?_toFloat (n : UInt64) : number? n.toFloat = some (rounded n.toNat) := by
  have := number?_ofNat (n := n.toNat) n.toNat_lt
  rwa [ofNat, Nat.toUInt64_eq, UInt64.ofNat_toNat] at this

/-- The largest machine size is rounded up when it is converted, to a power of
two. -/
theorem number?_largest : number? 18446744073709551615 = some (2 ^ 64) := by
  show some ((2 ^ 52 : ℕ) * 2 ^ (12 : ℤ) : ℚ) = _
  norm_num

/-- The least whole number that is not below, within the range of the machine.
The comparison with the part before the point is exact, as a number with digits
behind the point is small. -/
theorem ceil_eq (h : number? x = some v) : ceil x = min ⌈v⌉₊ (2 ^ 64 - 1) := by
  rw [ceil]
  by_cases hlarge : (2 : ℚ) ^ 64 ≤ v
  · rw [if_pos ((le_iff_number number?_largest h).mpr hlarge)]
    have : 2 ^ 64 ≤ ⌈v⌉₊ := Nat.cast_le.mp (le_trans (by exact_mod_cast hlarge) (Nat.le_ceil v))
    omega
  · have hv := not_le.mp hlarge
    rw [if_neg fun hle => hlarge ((le_iff_number number?_largest h).mp hle)]
    have hwhole := toUInt64_toNat h hv
    have hlt := lt_iff_number (number?_toFloat x.toUInt64) h
    rw [hwhole] at hlt
    simp only [hwhole, hlt]
    rcases whole_or_small h with heq | hsmall
    · -- a whole number is not rounded
      have hbound : ⌊v⌋₊ < 2 ^ 64 := by
        rw [Nat.floor_lt' (by norm_num)]
        exact_mod_cast hv
      rw [← heq, rounded_number h, if_neg (lt_irrefl v)]
      have hceil : ⌈v⌉₊ = ⌊v⌋₊ := by
        conv_lhs => rw [heq]
        exact Nat.ceil_natCast _
      omega
    · have hfloor : ⌊v⌋₊ < 2 ^ 53 := by
        rw [Nat.floor_lt' (by norm_num)]
        exact_mod_cast hsmall
      rw [rounded_natCast hfloor.le]
      split
      · rename_i hbelow
        have hceil : ⌈v⌉₊ = ⌊v⌋₊ + 1 := by
          rw [Nat.ceil_eq_iff (by omega)]
          refine ⟨by simpa using hbelow, ?_⟩
          push_cast
          exact (Nat.lt_floor_add_one v).le
        omega
      · rename_i hbelow
        have hle : ⌈v⌉₊ ≤ ⌊v⌋₊ := Nat.ceil_le.mpr (not_lt.mp hbelow)
        have hge : ⌊v⌋₊ ≤ ⌈v⌉₊ := Nat.floor_le_ceil v
        omega

/-! ## Single precision -/

/-- The opposite of a double is found without rounding. -/
theorem number?_neg (h : number? x = some v) : number? (-x) = some (-v) := by
  have hop : -x = .ofModel (Float.Model.pack (UnpackedFloat.neg x.toModel.unpack)) := rfl
  have hvalue : value? (UnpackedFloat.neg x.toModel.unpack) = some (-v) := by
    obtain ⟨s, hu, rfl⟩ | ⟨s, m, e, hm, hu, rfl, -⟩ := number?_eq_some h <;> rw [hu]
    · rw [neg_zero]
      rfl
    · cases s
      · exact congrArg some (neg_neg _).symm
      · rfl
  have hcanonical : Canonical (UnpackedFloat.neg x.toModel.unpack) ∧
      Bounded (UnpackedFloat.neg x.toModel.unpack) := by
    have := canonical_unpack x.toModel.toBits.toBitVec
    change Canonical x.toModel.unpack ∧ Bounded x.toModel.unpack at this
    cases hu : x.toModel.unpack <;> rw [hu] at this <;> exact this
  rw [hop]
  show value? (unpack Format.binary64 (pack Format.binary64 _)) = _
  rw [unpack_pack hcanonical.1 hcanonical.2, hvalue]

/-- Three fields in one number. -/
theorem toNat_append_append {a b c : ℕ} (x : BitVec a) (y : BitVec b) (z : BitVec c) :
    (x ++ y ++ z).toNat = (x.toNat * 2 ^ b + y.toNat) * 2 ^ c + z.toNat := by
  rw [BitVec.toNat_append, BitVec.toNat_append, ← Nat.shiftLeft_add_eq_or_of_lt (BitVec.isLt _),
    ← Nat.shiftLeft_add_eq_or_of_lt (BitVec.isLt _), Nat.shiftLeft_eq, Nat.shiftLeft_eq]

/-- A double is read from its bits. -/
theorem unpack_ofBits (b : UInt64) :
    (Float.ofBits b).toModel.unpack = unpack Format.binary64 b.toBitVec :=
  unpack_pack (canonical_unpack _).1 (canonical_unpack _).2

/-- Fields that do not overlap add up, so putting shifted fields together loses
nothing. -/
theorem toNat_fields {sign exponent digits : UInt64} (hs : sign.toNat < 2)
    (he : exponent.toNat < 2 ^ 11) (hd : digits.toNat < 2 ^ 23) :
    (sign <<< 63 ||| exponent <<< 52 ||| digits <<< 29).toNat =
      (sign.toNat * 2 ^ 11 + exponent.toNat) * 2 ^ 52 + digits.toNat * 2 ^ 29 := by
  have hshift : ∀ {a k : ℕ}, a * 2 ^ k < 2 ^ 64 → a <<< k % 2 ^ 64 = a <<< k := by
    intro a k h
    rw [Nat.shiftLeft_eq, Nat.mod_eq_of_lt h]
  rw [UInt64.toNat_or, UInt64.toNat_or, UInt64.toNat_shiftLeft, UInt64.toNat_shiftLeft,
    UInt64.toNat_shiftLeft, Nat.or_assoc]
  show sign.toNat <<< 63 % 2 ^ 64 |||
    (exponent.toNat <<< 52 % 2 ^ 64 ||| digits.toNat <<< 29 % 2 ^ 64) = _
  have hlow : exponent.toNat <<< 52 ||| digits.toNat <<< 29 =
      exponent.toNat * 2 ^ 52 + digits.toNat * 2 ^ 29 := by
    rw [← Nat.shiftLeft_add_eq_or_of_lt (by rw [Nat.shiftLeft_eq]; omega), Nat.shiftLeft_eq,
      Nat.shiftLeft_eq]
  rw [hshift (by omega), hshift (by omega), hshift (by omega), hlow,
    ← Nat.shiftLeft_add_eq_or_of_lt (by omega), Nat.shiftLeft_eq]
  omega

/-- What the fields of a single precision number stand for: infinities and NaN
have the greatest exponent, zero and the subnormal numbers the smallest. -/
theorem unpack_single (s : Sign) (e : BitVec 8) (d : BitVec 23) :
    unpack Format.binary32 (packComponents Format.binary32 s e d) =
      if e.toNat = 255 then (if d.toNat = 0 then .infinity s else .notANumber)
      else if e.toNat = 0 then
        (if h : d.toNat = 0 then .zero s else .finite s d.toNat (-149) (Nat.pos_of_ne_zero h))
      else .finite s (2 ^ 23 + d.toNat) (e.toNat - 150) (Nat.add_pos_left (by norm_num) _) := by
  have he1 : e = -1#8 ↔ e.toNat = 255 := by
    rw [← BitVec.toNat_inj]
    rfl
  have he0 : e = 0#8 ↔ e.toNat = 0 := by
    rw [← BitVec.toNat_inj]
    rfl
  have hd0 : d = 0#23 ↔ d.toNat = 0 := by
    rw [← BitVec.toNat_inj]
    rfl
  simp only [unpack, unpackExponent_packComponents, unpackMantissa_packComponents,
    unpackSign_packComponents, Sign.ofBitVec_toBitVec]
  -- the exponent field tells special numbers, subnormal ones and normal ones apart
  by_cases h1 : e.toNat = 255
  · rw [if_pos h1, if_pos (he1.mpr h1)]
    exact if_congr hd0 rfl rfl
  · rw [if_neg h1, if_neg (mt he1.mp h1)]
    by_cases h0 : e.toNat = 0
    · rw [if_pos h0, if_pos (he0.mpr h0)]
      by_cases hd : d.toNat = 0
      · rw [dif_pos hd, dif_pos (hd0.mpr hd)]
      · rw [dif_neg hd, dif_neg (mt hd0.mp hd)]
        congr 1
        rw [h0]
        rfl
    · rw [if_neg h0, if_neg (mt he0.mp h0)]
      congr 1
      rw [BitVec.toNat_append, ← Nat.shiftLeft_add_eq_or_of_lt (BitVec.isLt _)]
      rfl

/-- What the fields of a double stand for, when they come from a single
precision number. The exponent is then never zero, as the range of doubles is
wider. -/
theorem unpack_double (s : Sign) {e d : ℕ} (he : e < 2 ^ 11) (hd : d < 2 ^ 23) (h0 : 0 < e) :
    unpack Format.binary64
        (packComponents Format.binary64 s (BitVec.ofNat 11 e) (BitVec.ofNat 52 (d * 2 ^ 29))) =
      if e = 2047 then (if d = 0 then .infinity s else .notANumber)
      else .finite s ((2 ^ 23 + d) * 2 ^ 29) (e - 1075) (Nat.mul_pos (by omega) (by norm_num)) := by
  have he1 : BitVec.ofNat 11 e = -1#11 ↔ e = 2047 := by
    rw [← BitVec.toNat_inj, BitVec.toNat_ofNat, Nat.mod_eq_of_lt he]
    rfl
  have he0 : BitVec.ofNat 11 e ≠ 0#11 := by
    rw [Ne, ← BitVec.toNat_inj, BitVec.toNat_ofNat, Nat.mod_eq_of_lt he]
    exact h0.ne'
  have hdigits : (BitVec.ofNat 52 (d * 2 ^ 29)).toNat = d * 2 ^ 29 := by
    rw [BitVec.toNat_ofNat, Nat.mod_eq_of_lt (by omega)]
  have hd0 : BitVec.ofNat 52 (d * 2 ^ 29) = 0#52 ↔ d = 0 := by
    rw [← BitVec.toNat_inj, hdigits]
    show d * 2 ^ 29 = 0 ↔ _
    omega
  simp only [unpack, unpackExponent_packComponents, unpackMantissa_packComponents,
    unpackSign_packComponents, Sign.ofBitVec_toBitVec]
  by_cases h1 : e = 2047
  · rw [if_pos h1, if_pos (he1.mpr h1)]
    exact if_congr hd0 rfl rfl
  · rw [if_neg h1, if_neg (mt he1.mp h1), if_neg he0]
    congr 1
    · rw [BitVec.toNat_append, ← Nat.shiftLeft_add_eq_or_of_lt (BitVec.isLt _), hdigits]
      show 1 <<< 52 + _ = _
      omega
    · rw [BitVec.toNat_ofNat, Nat.mod_eq_of_lt he]
      simp only [Format.exponentBias]
      rfl

/-- A double made of fields that come from a single precision number. -/
theorem unpack_ofBits_fields {s : Sign} {sign exponent digits : UInt64} {e d : ℕ}
    (hsign : sign.toNat = s.toBitVec.toNat) (hexponent : exponent.toNat = e)
    (hdigits : digits.toNat = d) (he : e < 2 ^ 11) (hd : d < 2 ^ 23) (h0 : 0 < e) :
    (Float.ofBits (sign <<< 63 ||| exponent <<< 52 ||| digits <<< 29)).toModel.unpack =
      if e = 2047 then (if d = 0 then .infinity s else .notANumber)
      else .finite s ((2 ^ 23 + d) * 2 ^ 29) (e - 1075) (Nat.mul_pos (by omega) (by norm_num)) := by
  have hs : s.toBitVec.toNat < 2 := s.toBitVec.isLt
  have hvec : (sign <<< 63 ||| exponent <<< 52 ||| digits <<< 29).toBitVec =
      s.toBitVec ++ BitVec.ofNat 11 e ++ BitVec.ofNat 52 (d * 2 ^ 29) := by
    refine BitVec.eq_of_toNat_eq ?_
    rw [toNat_append_append, BitVec.toNat_ofNat, BitVec.toNat_ofNat, Nat.mod_eq_of_lt he,
      Nat.mod_eq_of_lt (by omega), ← hsign, ← hexponent, ← hdigits]
    exact toNat_fields (by omega) (by omega) (by omega)
  rw [unpack_ofBits, hvec]
  exact unpack_double s he hd h0

theorem number?_unit : number? (.ofBits 0x36A0000000000000) = some (2 ^ (-149 : ℤ)) := by
  rw [number?, unpack_ofBits]
  show some ((2 ^ 52 : ℕ) * 2 ^ (-201 : ℤ) : ℚ) = _
  rw [Nat.cast_pow, Nat.cast_ofNat, ← zpow_natCast, ← zpow_add₀ (by norm_num)]
  norm_num

theorem abs_signed (s : Sign) (a : ℚ) : |signed s a| = |a| := by
  cases s
  · exact abs_neg a
  · rfl

/-- Digits of single precision are neither very large nor very small, so a
double is not the narrower format anywhere on the way. -/
theorem single_range (s : Sign) {m : ℕ} {e : ℤ} (hm : 0 < m) (hlt : m < 2 ^ 24) (hlow : -149 ≤ e)
    (hhigh : e ≤ 104) :
    |signed s (m * 2 ^ e)| ≤ 2 ^ (128 : ℤ) ∧ 2 ^ (-149 : ℤ) ≤ |signed s (m * 2 ^ e)| := by
  rw [abs_signed, abs_of_nonneg (mul_nonneg (Nat.cast_nonneg m) (two_zpow_pos e).le)]
  constructor
  · calc (m : ℚ) * 2 ^ e ≤ 2 ^ (24 : ℤ) * 2 ^ (104 : ℤ) := by
          refine mul_le_mul ?_ (zpow_le_zpow_right₀ (by norm_num) hhigh) (two_zpow_pos e).le
            (two_zpow_pos _).le
          exact_mod_cast hlt.le
      _ = 2 ^ (128 : ℤ) := by rw [← zpow_add₀ (by norm_num)]; norm_num
  · calc (2 : ℚ) ^ (-149 : ℤ) ≤ 2 ^ e := zpow_le_zpow_right₀ (by norm_num) hlow
      _ ≤ m * 2 ^ e := le_mul_of_one_le_left (two_zpow_pos e).le (by exact_mod_cast hm)

/-- A multiple of the smallest number of single precision is found exactly by a
product of doubles. -/
theorem number?_subnormal {n : UInt64} (h : n.toNat < 2 ^ 23) :
    number? (n.toFloat * .ofBits 0x36A0000000000000) = some ((n.toNat : ℚ) * 2 ^ (-149 : ℤ)) := by
  have hproduct : rounded ((n.toNat : ℚ) * 2 ^ (-149 : ℤ)) = n.toNat * 2 ^ (-149 : ℤ) :=
    rounded_of_digits (by omega) (by norm_num)
  have hcount : rounded (n.toNat : ℚ) = n.toNat := rounded_natCast (by omega)
  have hbound : |(n.toNat : ℚ) * 2 ^ (-149 : ℤ)| ≤ large := by
    rw [abs_of_nonneg (mul_nonneg (Nat.cast_nonneg _) (two_zpow_pos _).le)]
    calc (n.toNat : ℚ) * 2 ^ (-149 : ℤ) ≤ 2 ^ 23 * 1 := by
          refine mul_le_mul ?_ ?_ (two_zpow_pos _).le (by norm_num)
          · exact_mod_cast h.le
          · exact zpow_le_one_of_nonpos₀ (by norm_num) (by norm_num)
      _ ≤ large := by rw [mul_one]; exact pow_le_large (by norm_num)
  have hmul := number?_mul (number?_toFloat n) number?_unit
  rw [hcount, hproduct] at hmul
  exact hmul hbound

/-- The fields of a single precision number, as they are cut out of its bits. -/
structure Fields (x : Float32) (s : Sign) (e : BitVec 8) (d : BitVec 23) : Prop where
  unpack_eq : x.toModel.unpack = unpack Format.binary32 (packComponents Format.binary32 s e d)
  sign_eq : (x.toBits.toUInt64 >>> 31).toNat = s.toBitVec.toNat
  exponent_eq : ((x.toBits.toUInt64 >>> 23) &&& 0xFF).toNat = e.toNat
  digits_eq : (x.toBits.toUInt64 &&& 0x7FFFFF).toNat = d.toNat

/-- Every single precision number has its fields. -/
theorem exists_fields (x : Float32) : ∃ s e d, Fields x s e d := by
  obtain ⟨s, e, d, hsplit⟩ : ∃ s e d, packComponents Format.binary32 s e d =
      x.toModel.toBits.toBitVec :=
    ⟨_, _, _, packComponents_unpackSign_unpackExponent_unpackMantissa _⟩
  change BitVec 8 at e
  change BitVec 23 at d
  have he := e.isLt
  have hd := d.isLt
  have hbits : x.toBits.toUInt64.toNat =
      (s.toBitVec.toNat * 2 ^ 8 + e.toNat) * 2 ^ 23 + d.toNat := by
    rw [UInt32.toNat_toUInt64, ← toNat_append_append]
    exact congrArg BitVec.toNat hsplit.symm
  refine ⟨s, e, d, congrArg (unpack Format.binary32) hsplit.symm, ?_, ?_, ?_⟩
  · rw [UInt64.toNat_shiftRight, hbits, Nat.shiftRight_eq_div_pow]
    show _ / 2 ^ 31 = _
    omega
  · rw [UInt64.toNat_and, UInt64.toNat_shiftRight, hbits, Nat.shiftRight_eq_div_pow]
    show _ / 2 ^ 23 &&& (2 ^ 8 - 1) = _
    rw [Nat.and_two_pow_sub_one_eq_mod]
    omega
  · rw [UInt64.toNat_and, hbits]
    show _ &&& (2 ^ 23 - 1) = _
    rw [Nat.and_two_pow_sub_one_eq_mod]
    omega

/-- Conversion from single precision keeps the number, which is neither very
large nor very small. -/
structure Kept (x : Float32) (v : ℚ) : Prop where
  value_eq : value? x.toModel.unpack = some v
  number_eq : number? (ofSingle x) = some v
  abs_le : |v| ≤ 2 ^ (128 : ℤ)
  zero_or_le : v = 0 ∨ 2 ^ (-149 : ℤ) ≤ |v|

namespace Fields

variable {x : Float32} {s : Sign} {e : BitVec 8} {d : BitVec 23}

theorem isSpecial_iff (h : Fields x s e d) :
    (((x.toBits.toUInt64 >>> 23) &&& 0xFF) == 0xFF) = true ↔ e.toNat = 255 := by
  rw [beq_iff_eq, ← UInt64.toNat_inj, h.exponent_eq]
  rfl

theorem isSubnormal_iff (h : Fields x s e d) :
    (((x.toBits.toUInt64 >>> 23) &&& 0xFF) == 0) = true ↔ e.toNat = 0 := by
  rw [beq_iff_eq, ← UInt64.toNat_inj, h.exponent_eq]
  rfl

/-- Infinities and NaN stay what they are. -/
theorem ofSingle_special (h : Fields x s e d) (he : e.toNat = 255) :
    (∃ s, x.toModel.unpack = .infinity s ∧ (ofSingle x).toModel.unpack = .infinity s) ∨
    (x.toModel.unpack = .notANumber ∧ (ofSingle x).toModel.unpack = .notANumber) := by
  have hd := d.isLt
  have hunpack := h.unpack_eq
  have hlargest : (2047 : UInt64).toNat = 2047 := rfl
  have hfields :=
    unpack_ofBits_fields h.sign_eq hlargest h.digits_eq (by norm_num) hd (by norm_num)
  rw [unpack_single, if_pos he] at hunpack
  rw [if_pos rfl] at hfields
  change (Float.ofBits (_ ||| (0x7FF0000000000000 : UInt64) ||| _)).toModel.unpack = _ at hfields
  rw [ofSingle]
  simp only [h.isSpecial_iff.mpr he, if_true]
  by_cases hzero : d.toNat = 0
  · rw [if_pos hzero] at hunpack hfields
    exact .inl ⟨s, hunpack, hfields⟩
  · rw [if_neg hzero] at hunpack hfields
    exact .inr ⟨hunpack, hfields⟩

/-- Zero and subnormal numbers become normal ones, with the same value. They
take a path of their own through the conversion. -/
theorem kept_subnormal (h : Fields x s e d) (he : e.toNat = 0) :
    Kept x (signed s (d.toNat * 2 ^ (-149 : ℤ))) := by
  have hd := d.isLt
  have hs : s.toBitVec.toNat < 2 := s.toBitVec.isLt
  have hplus := number?_subnormal (n := x.toBits.toUInt64 &&& 0x7FFFFF) (h.digits_eq ▸ hd)
  rw [h.digits_eq] at hplus
  have hspecial : ¬ (((x.toBits.toUInt64 >>> 23) &&& 0xFF) == 0xFF) = true :=
    mt h.isSpecial_iff.mp (by omega)
  constructor
  case value_eq =>
    rw [h.unpack_eq, unpack_single, if_neg (by omega), if_pos he]
    by_cases hzero : d.toNat = 0
    · rw [dif_pos hzero, hzero, Nat.cast_zero, zero_mul, signed_zero]
      rfl
    · rw [dif_neg hzero]
      rfl
  case number_eq =>
    -- the magnitude is found as a product, and the sign is put on last
    have hfirst : (x.toBits.toUInt64 >>> 31 <<< 63).toNat = s.toBitVec.toNat * 2 ^ 63 := by
      rw [UInt64.toNat_shiftLeft, h.sign_eq, Nat.shiftLeft_eq]
      show s.toBitVec.toNat * 2 ^ 63 % 2 ^ 64 = _
      exact Nat.mod_eq_of_lt (by omega)
    have hpositive : (x.toBits.toUInt64 >>> 31 <<< 63 == 0) = true ↔
        s.toBitVec.toNat * 2 ^ 63 = 0 := by
      rw [beq_iff_eq, ← UInt64.toNat_inj, hfirst]
      rfl
    rw [ofSingle]
    simp only [hspecial, h.isSubnormal_iff.mpr he, Bool.false_eq_true, if_false, if_true]
    cases s with
    | positive =>
      rw [if_pos (hpositive.mpr rfl)]
      exact hplus
    | negative =>
      rw [if_neg (mt hpositive.mp (by decide))]
      exact number?_neg hplus
  case abs_le =>
    rcases Nat.eq_zero_or_pos d.toNat with hzero | hpos
    · rw [hzero, Nat.cast_zero, zero_mul, signed_zero, abs_zero]
      exact (two_zpow_pos _).le
    · exact (single_range s hpos (by omega) (le_refl _) (by norm_num)).1
  case zero_or_le =>
    rcases Nat.eq_zero_or_pos d.toNat with hzero | hpos
    · rw [hzero, Nat.cast_zero, zero_mul, signed_zero]
      exact .inl rfl
    · exact .inr (single_range s hpos (by omega) (le_refl _) (by norm_num)).2

/-- Normal numbers keep their digits; only the exponent is written anew. -/
theorem kept_normal (h : Fields x s e d) (hspecial : e.toNat ≠ 255) (hsubnormal : e.toNat ≠ 0) :
    Kept x (signed s ((2 ^ 23 + d.toNat : ℕ) * 2 ^ ((e.toNat : ℤ) - 150))) := by
  have he := e.isLt
  have hd := d.isLt
  have hunpack := h.unpack_eq
  rw [unpack_single, if_neg hspecial, if_neg hsubnormal] at hunpack
  have hplace : (((x.toBits.toUInt64 >>> 23) &&& 0xFF) + 896).toNat = e.toNat + 896 := by
    rw [UInt64.toNat_add, h.exponent_eq]
    show (e.toNat + 896) % 2 ^ 64 = _
    omega
  have hfields := unpack_ofBits_fields h.sign_eq hplace h.digits_eq (by omega) hd (by omega)
  rw [if_neg (by omega)] at hfields
  have hsame : (((2 ^ 23 + d.toNat) * 2 ^ 29 : ℕ) : ℚ) *
        2 ^ (((e.toNat + 896 : ℕ) : ℤ) - 1075) =
      (2 ^ 23 + d.toNat : ℕ) * 2 ^ ((e.toNat : ℤ) - 150) := by
    have hsum : (e.toNat : ℤ) - 150 = 29 + (((e.toNat + 896 : ℕ) : ℤ) - 1075) := by
      push_cast
      ring
    rw [hsum, zpow_add₀ (by norm_num), Nat.cast_mul, mul_assoc]
    norm_num
  have hrange := single_range s (m := 2 ^ 23 + d.toNat) (e := (e.toNat : ℤ) - 150) (by omega)
    (by omega) (by omega) (by omega)
  refine ⟨congrArg value? hunpack, ?_, hrange.1, .inr hrange.2⟩
  rw [ofSingle]
  simp only [mt h.isSpecial_iff.mp hspecial, mt h.isSubnormal_iff.mp hsubnormal,
    Bool.false_eq_true, if_false]
  rw [number?, hfields]
  exact congrArg (some ∘ signed s) hsame

end Fields

/-- Conversion from single precision keeps numbers, infinities and NaN. -/
theorem ofSingle_spec (x : Float32) :
    (∃ v, Kept x v) ∨
    (∃ s, x.toModel.unpack = .infinity s ∧ (ofSingle x).toModel.unpack = .infinity s) ∨
    (x.toModel.unpack = .notANumber ∧ (ofSingle x).toModel.unpack = .notANumber) := by
  obtain ⟨s, e, d, h⟩ := exists_fields x
  by_cases hspecial : e.toNat = 255
  · exact .inr (h.ofSingle_special hspecial)
  by_cases hsubnormal : e.toNat = 0
  · exact .inl ⟨_, h.kept_subnormal hsubnormal⟩
  · exact .inl ⟨_, h.kept_normal hspecial hsubnormal⟩

theorem unpack_one :
    (1 : Float32).toModel.unpack = .finite .positive (2 ^ 23) (-23) (by norm_num) := rfl

/-- At most 24 digits, all of them unless the last one has the smallest place.
-/
theorem single_digits {x : Float32} {s : Sign} {m : ℕ} {e : ℤ} {hm : 0 < m}
    (h : x.toModel.unpack = .finite s m e hm) :
    m < 2 ^ 24 ∧ -149 ≤ e ∧ (2 ^ 23 ≤ m ∨ e = -149) := by
  obtain ⟨t, e', d, hunpack, -⟩ := exists_fields x
  have hd := d.isLt
  rw [h, unpack_single] at hunpack
  split at hunpack
  · split at hunpack <;> cases hunpack
  · split at hunpack
    · split at hunpack
      · cases hunpack
      · cases hunpack
        exact ⟨by omega, le_refl _, .inr rfl⟩
    · cases hunpack
      exact ⟨by omega, by omega, .inl (Nat.le_add_right _ _)⟩

/-- Numbers up to one stay numbers up to one. -/
theorem ofSingle_le_one {x : Float32} (h : x ≤ 1) :
    (∃ v, number? (ofSingle x) = some v ∧ v ≤ 1 ∧ |v| ≤ 2 ^ (128 : ℤ)) ∨
      (ofSingle x).toModel.unpack = .infinity .negative := by
  have hle : x.toModel.unpack.le (1 : Float32).toModel.unpack = true := by
    have h : decide (x.toModel.unpack.le (1 : Float32).toModel.unpack = true) = true := h
    exact of_decide_eq_true h
  rw [unpack_one] at hle
  obtain ⟨v, hv, hnumber, hrange, -⟩ | ⟨s, hu, hinf⟩ | ⟨hu, -⟩ := ofSingle_spec x
  · refine .inl ⟨v, hnumber, ?_, hrange⟩
    cases hu : x.toModel.unpack with
    | finite s m e hm =>
      rw [hu] at hv hle
      rw [← Option.some.inj hv]
      cases s with
      | negative =>
        have : (0 : ℚ) ≤ m * 2 ^ e := mul_nonneg (Nat.cast_nonneg m) (two_zpow_pos e).le
        exact le_trans (neg_nonpos.mpr this) zero_le_one
      | positive =>
        obtain ⟨hlt, hlow, hfull⟩ := single_digits hu
        have hcompare : ((compare e (-23)).then (compare m (2 ^ 23))).isLE = true := hle
        rw [compare_digits (b := 23) hlt hlow hfull (by norm_num) (by norm_num)
          (.inl (le_refl _))] at hcompare
        have hone : ((2 ^ 23 : ℕ) : ℚ) * 2 ^ (-23 : ℤ) = 1 := by norm_num
        rw [hone] at hcompare
        exact isLE_compare.mp hcompare
    | zero s =>
      rw [hu] at hv
      rw [← Option.some.inj hv]
      exact zero_le_one
    | infinity s => rw [hu] at hv; cases hv
    | notANumber => rw [hu] at hv; cases hv
  · rw [hu] at hle
    cases s with
    | negative => exact .inr hinf
    | positive => cases hle
  · rw [hu] at hle
    cases hle

/-- What is not above one is at most one, or NaN. -/
theorem le_one_or_notANumber {x : Float32} (h : ¬ 1 < x) :
    x ≤ 1 ∨ (ofSingle x).toModel.unpack = .notANumber := by
  have hlt : (1 : Float32).toModel.unpack.compare x.toModel.unpack ≠ some .lt := by
    intro hcompare
    refine h (decide_eq_true (?_ : (1 : Float32).toModel.unpack.lt x.toModel.unpack = true))
    rw [UnpackedFloat.lt, hcompare]
    rfl
  obtain hnan | hle : x.toModel.unpack = .notANumber ∨
      x.toModel.unpack.le (1 : Float32).toModel.unpack = true := by
    rw [unpack_one] at hlt ⊢
    cases hu : x.toModel.unpack with
    | notANumber => exact .inl rfl
    | infinity s =>
      rw [hu] at hlt
      cases s with
      | positive => exact absurd rfl hlt
      | negative => exact .inr rfl
    | zero s => exact .inr rfl
    | finite s m e hm =>
      rw [hu] at hlt
      cases s with
      | negative => exact .inr rfl
      | positive =>
        refine .inr ?_
        replace hlt : (compare (-23) e).then (compare (2 ^ 23) m) ≠ .lt := fun hthen =>
          hlt (congrArg some hthen)
        show ((compare e (-23)).then (compare m (2 ^ 23))).isLE = true
        rw [Std.OrientedOrd.eq_swap (a := e), Std.OrientedOrd.eq_swap (a := m),
          ← Ordering.swap_then, Ordering.isLE_swap]
        rwa [Ordering.isGE_iff_ne_lt]
  · obtain ⟨v, hv, -⟩ | ⟨s, hu, -⟩ | ⟨-, hnumber⟩ := ofSingle_spec x
    · rw [hnan] at hv
      cases hv
    · rw [hnan] at hu
      cases hu
    · exact .inr hnumber
  · exact .inl (decide_eq_true hle)

end Double

end Uplink
