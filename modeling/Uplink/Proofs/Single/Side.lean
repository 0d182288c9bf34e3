import Uplink.Single
import Mathlib

/-!
# The side of zero on which a number lies

Soft decoding reads three things off a number: whether it is positive, negative or zero. This
module proves how the single precision operations act on that reading, for all numbers, infinities
included.

- `Single.side`: the side of a number; none for NaN.
- `Single.side_add_of_eq`, `side_add_zero`, `side_zero_add`, `side_sub_zero`: sums that cannot
  cancel.
- `Single.side_neg`, `side_abs`: sign operations.
- `Single.KeepsSide`, `keepsSide_messageFactor`: multiplication by a factor such as 0.8 never
  loses a side, however small the other operand is.
- `Single.lt_zero_iff`, `Single.zero_side_lt_iff`: what comparisons tell.
-/

namespace Uplink

namespace Single

open Float.Model (Format UnpackedFloat totalExponent)
open Float.Model.UnpackedFloat

/-! ## Sides of unpacked numbers -/

/-- The side of a sign. -/
def signSide : Sign → SignType
  | .positive => 1
  | .negative => -1

/-- The side of an unpacked number. -/
def unpackedSide : UnpackedFloat → Option SignType
  | .notANumber => none
  | .zero _ => some 0
  | .infinity s => some (signSide s)
  | .finite s _ _ _ => some (signSide s)

/-- The side of zero on which a number lies, zero for both zeros. -/
def side (x : Float32) : Option SignType := unpackedSide x.toModel.unpack

@[simp] theorem signSide_neg (s : Sign) : signSide (-s) = -signSide s := by
  cases s <;> rfl

@[simp] theorem signSide_mul (s t : Sign) : signSide (s * t) = signSide s * signSide t := by
  cases s <;> cases t <;> rfl

/-- A sign is a side, never the middle. -/
theorem signSide_ne_zero (s : Sign) : signSide s ≠ 0 := by
  cases s <;> decide

theorem signSide_inj {s t : Sign} (h : signSide s = signSide t) : s = t := by
  cases s <;> cases t <;> first | rfl | exact absurd h (by decide)

/-! ## Numbers that fit their format -/

/-- A finite number has at most 24 digits, the last of them not below the
smallest place. Packing such a number cannot change its side. -/
def Fits : UnpackedFloat → Prop
  | .finite _ m e _ => m < 2 ^ 24 ∧ -149 ≤ e
  | _ => True

@[simp] theorem ofBitVec_toBitVec (s : Sign) : Sign.ofBitVec s.toBitVec = s := by
  cases s <;> rfl

/-- The sign is read back from packed parts, whatever the other parts are. -/
theorem sign_packComponents (s : Sign) (e : BitVec 8) (m : BitVec 23) :
    Sign.ofBitVec (unpackSign (packComponents Format.binary32 s e m)) = s := by
  have top : ∀ w : BitVec 1, (w ++ e ++ m).getLsbD 31 = w[0] := by
    intro w
    rw [BitVec.getLsbD_append, BitVec.getLsbD_append]
    rfl
  have h : unpackSign (packComponents Format.binary32 s e m) = s.toBitVec := by
    ext i hi
    obtain rfl : i = 0 := by omega
    simp only [unpackSign, packComponents, Nat.reduceAdd, Nat.reduceSub, BitVec.cast_eq,
      BitVec.getElem_extract, Nat.add_zero]
    exact top s.toBitVec
  rw [h, ofBitVec_toBitVec]

/-- The side that packed parts stand for: none for a number that is none, the
middle if all digits are zero, else the side of the sign. -/
theorem unpackedSide_packComponents (s : Sign) (e : BitVec 8) (m : BitVec 23) :
    unpackedSide (unpack Format.binary32 (packComponents Format.binary32 s e m)) =
      if e = -1#8 then (if m = 0#23 then some (signSide s) else none)
      else if e = 0#8 ∧ m = 0#23 then some 0 else some (signSide s) := by
  simp only [unpack, unpackExponent_packComponents, unpackMantissa_packComponents,
    sign_packComponents]
  by_cases he : e = -1#8
  · rw [if_pos he, if_pos he]
    by_cases hm : m = 0#23
    · rw [if_pos hm, if_pos hm]
      rfl
    · rw [if_neg hm, if_neg hm]
      rfl
  · rw [if_neg he, if_neg he]
    by_cases he0 : e = 0#8
    · rw [if_pos he0]
      by_cases hm : m = 0#23
      · rw [dif_pos hm, if_pos ⟨he0, hm⟩]
        rfl
      · rw [dif_neg hm, if_neg fun h => hm h.2]
        rfl
    · rw [if_neg he0, if_neg fun h => he0 h.1]
      rfl

theorem unpackedSide_packedInfinity (s : Sign) :
    unpackedSide (unpack Format.binary32 (packedInfinity Format.binary32 s)) =
      some (signSide s) := by
  rw [packedInfinity, unpackedSide_packComponents, if_pos rfl]
  exact if_pos rfl

/-- Packing a number that fits keeps its side. Its digits fit the format, so
none of them is cut off. -/
theorem unpackedSide_pack {u : UnpackedFloat} (h : Fits u) :
    unpackedSide (unpack Format.binary32 (pack Format.binary32 u)) = unpackedSide u := by
  cases u with
  | notANumber =>
    rw [pack, packedNaN, unpackedSide_packComponents]
    rfl
  | infinity s => exact unpackedSide_packedInfinity s
  | zero s =>
    rw [pack, packedZero, unpackedSide_packComponents]
    rfl
  | finite s m e hm =>
    obtain ⟨hlt, hle⟩ := h
    have hbias : Format.binary32.exponentBias = 127 := rfl
    have hdigits : Format.binary32.mantissaBits = 24 := rfl
    have hlog : m.log2 < 24 := (Nat.log2_lt hm.ne').mpr hlt
    rw [pack]
    simp only [hbias, hdigits]
    by_cases hbig : 2 ^ 8 ≤ (e + (127 : Nat) + (23 : Nat)).toNat + 1
    · rw [if_pos hbig]
      exact unpackedSide_packedInfinity s
    rw [if_neg hbig]
    by_cases hnormal : m.log2 + 1 = 24
    · -- a normal number: its exponent field is neither of the reserved ones
      rw [if_pos hnormal, unpackedSide_packComponents]
      have hne : BitVec.ofNat 8 (e + (127 : Nat) + (23 : Nat)).toNat ≠ -1#8 := by
        intro h
        have := congrArg BitVec.toNat h
        simp at this
        omega
      have hne' : BitVec.ofNat 8 (e + (127 : Nat) + (23 : Nat)).toNat ≠ 0#8 := by
        intro h
        have := congrArg BitVec.toNat h
        simp at this
        omega
      rw [if_neg hne, if_neg fun h => hne' h.1]
      rfl
    · -- a subnormal number: its digits are not all zero
      rw [if_neg hnormal, unpackedSide_packComponents]
      have hlt' : m < 2 ^ 23 := (Nat.log2_lt hm.ne').mp (by omega)
      have hne : BitVec.ofNat 23 m ≠ 0#23 := by
        intro h
        have := congrArg BitVec.toNat h
        simp at this
        omega
      rw [if_neg (by decide), if_neg fun h => hne h.2]
      rfl

/-- Every number read from its format fits, as the format has no more digits
than that. -/
theorem fits_unpack (b : BitVec 32) : Fits (unpack Format.binary32 b) := by
  simp only [unpack]
  split
  · split <;> trivial
  · split
    · split
      · trivial
      · -- a subnormal number: its digits are the mantissa field
        refine ⟨lt_trans (BitVec.isLt _) (by decide), ?_⟩
        simp only [Format.exponentBias]
        omega
    · rename_i h
      -- a normal number: one more digit in front of the field
      refine ⟨BitVec.isLt (1#1 ++ _), ?_⟩
      have hpos : 0 < (@unpackExponent Format.binary32 b).toNat := by
        rw [Nat.pos_iff_ne_zero]
        intro h0
        exact h (BitVec.eq_of_toNat_eq (by simpa using h0))
      simp only [Format.exponentBias]
      omega

/-! ## Rounding -/

/-- Shifting drops digits at the end. -/
theorem mantissa_shiftRight (em : ExtendedMantissa) (n : Nat) :
    (em >>> n).mantissa = em.mantissa / 2 ^ n := by
  show (n.repeat ExtendedMantissa.shiftRightOne em).mantissa = em.mantissa / 2 ^ n
  induction n with
  | zero => simp [Nat.repeat]
  | succ n ih =>
    show (n.repeat ExtendedMantissa.shiftRightOne em).mantissa / 2 = _
    rw [ih, Nat.div_div_eq_div_mul, Nat.pow_succ]

/-- How many digits the first shift of a number drops, and where its last digit
then stands. -/
theorem shiftToTargetExponent_eq (m : Nat) (e : Int) (a : Accuracy) :
    ∃ n : Nat, (shiftToTargetExponent Format.binary32 m e a).1 =
        ExtendedMantissa.ofMantissaAndAccuracy m a >>> n ∧
      (shiftToTargetExponent Format.binary32 m e a).2 = e + n ∧
      m.log2 + 1 ≤ 24 + n ∧ -149 ≤ e + n ∧ (n ≤ m.log2 - 23 ∨ e + n = -149) := by
  refine ⟨_, rfl, rfl, ?_⟩
  simp only [Format.targetExponent, totalExponent, Format.mantissaBits, Format.minExponent]
  norm_num
  omega

theorem mantissa_ofMantissaAndAccuracy (m : Nat) (a : Accuracy) :
    (ExtendedMantissa.ofMantissaAndAccuracy m a).mantissa = m := by
  rcases a with _ | o
  · rfl
  · cases o <;> rfl

/-- Rounding never goes below the digits that are kept. -/
theorem le_roundedMantissa (em : ExtendedMantissa) : em.mantissa ≤ em.roundedMantissa := by
  obtain ⟨m, r, t⟩ := em
  cases r <;> cases t <;>
    simp [ExtendedMantissa.roundedMantissa, ExtendedMantissa.accuracy,
      Accuracy.roundToNearestEven]

/-- A shift to the places of the format leaves at most 24 digits. -/
theorem fits_shift (m : Nat) (e : Int) (a : Accuracy) :
    (shiftToTargetExponent Format.binary32 m e a).1.mantissa < 2 ^ 24 ∧
      -149 ≤ (shiftToTargetExponent Format.binary32 m e a).2 := by
  obtain ⟨n, h₁, h₂, hdigits, hplace, -⟩ := shiftToTargetExponent_eq m e a
  rw [h₁, h₂, mantissa_shiftRight, mantissa_ofMantissaAndAccuracy]
  refine ⟨?_, hplace⟩
  rw [Nat.div_lt_iff_lt_mul (Nat.two_pow_pos n), ← Nat.pow_add]
  exact lt_of_lt_of_le Nat.lt_log2_self (Nat.pow_le_pow_right (by decide) hdigits)

/-- A number whose last digit has a place in the format keeps its highest digit.
-/
theorem shift_pos {m : Nat} {e : Int} (a : Accuracy) (hm : 0 < m) (he : -149 ≤ e) :
    0 < (shiftToTargetExponent Format.binary32 m e a).1.mantissa := by
  obtain ⟨n, h₁, -, -, -, hn⟩ := shiftToTargetExponent_eq m e a
  rw [h₁, mantissa_shiftRight, mantissa_ofMantissaAndAccuracy]
  have hle : n ≤ m.log2 := by omega
  exact Nat.div_pos (le_trans (Nat.pow_le_pow_right (by decide) hle)
    (Nat.log2_self_le hm.ne')) (Nat.two_pow_pos n)

/-- Whatever is rounded to the format fits it. -/
theorem fits_roundWithAccuracy (s : Sign) (m : Nat) (e : Int) (a : Accuracy) :
    Fits (roundWithAccuracy Format.binary32 s m e a) := by
  rw [roundWithAccuracy]
  dsimp only
  split
  · trivial
  · exact fits_shift _ _ _

/-- A number that is not rounded to zero keeps its sign. -/
theorem unpackedSide_roundWithAccuracy {s : Sign} {m : Nat} {e : Int} {a : Accuracy}
    (h : 0 < (shiftToTargetExponent Format.binary32 m e a).1.roundedMantissa) :
    unpackedSide (roundWithAccuracy Format.binary32 s m e a) = some (signSide s) := by
  -- the second shift drops nothing but what rounding has carried over
  have hpos := shift_pos .exact h (fits_shift m e a).2
  rw [roundWithAccuracy]
  dsimp only
  rw [dif_neg hpos.ne']
  rfl

/-- The exact number is scaled to the places of the format, then rounded.
Scaling does not push its last digit below the smallest place. -/
theorem round_eq (s : Sign) (m : Nat) (e : Int) :
    ∃ n : Nat, UnpackedFloat.round Format.binary32 s m e =
        roundWithAccuracy Format.binary32 s (m <<< n) (e - n) .exact ∧
      (-149 ≤ e → -149 ≤ e - n) := by
  refine ⟨_, rfl, ?_⟩
  intro he
  simp only [Format.targetExponent, totalExponent, Format.mantissaBits, Format.minExponent]
  norm_num
  omega

theorem fits_round (s : Sign) (m : Nat) (e : Int) :
    Fits (UnpackedFloat.round Format.binary32 s m e) := by
  obtain ⟨n, h, -⟩ := round_eq s m e
  rw [h]
  exact fits_roundWithAccuracy _ _ _ _

/-- A positive amount that is not below the smallest place keeps the side of its
sign. -/
theorem unpackedSide_round {s : Sign} {m : Nat} {e : Int} (hm : 0 < m) (he : -149 ≤ e) :
    unpackedSide (UnpackedFloat.round Format.binary32 s m e) = some (signSide s) := by
  obtain ⟨n, h, hn⟩ := round_eq s m e
  rw [h]
  have hm' : 0 < m <<< n := by
    rw [Nat.shiftLeft_eq]
    exact Nat.mul_pos hm (Nat.two_pow_pos n)
  exact unpackedSide_roundWithAccuracy
    (lt_of_lt_of_le (shift_pos .exact hm' (hn he)) (le_roundedMantissa _))

theorem fits_normalize (m e : Int) (z : Sign) :
    Fits (UnpackedFloat.normalize Format.binary32 m e z) := by
  rw [UnpackedFloat.normalize]
  split
  · exact fits_round _ _ _
  · trivial
  · exact fits_round _ _ _

/-- A whole multiple of the smallest place lies on the side of its sign. Sums of
numbers of the format are such multiples. -/
theorem unpackedSide_normalize (s : Sign) {k : Nat} {e : Int} (z : Sign) (hk : 0 < k)
    (he : -149 ≤ e) :
    unpackedSide (UnpackedFloat.normalize Format.binary32 (s.apply k) e z) = some (signSide s) := by
  rw [UnpackedFloat.normalize]
  cases s with
  | positive =>
    have hpos : (0 : Int) < Sign.positive.apply k := Int.natCast_pos.mpr hk
    rw [Int.compare_eq_gt.mpr hpos]
    exact unpackedSide_round (by omega) he
  | negative =>
    have hneg : Sign.negative.apply k < 0 := Int.neg_neg_of_pos (Int.natCast_pos.mpr hk)
    rw [Int.compare_eq_lt.mpr hneg]
    exact unpackedSide_round (by omega) he

/-- Numbers of one sign add up to a number of that sign. -/
theorem apply_add (s : Sign) (j k : Nat) :
    s.apply (j : Int) + s.apply (k : Int) = s.apply ((j + k : Nat) : Int) := by
  rw [Int.natCast_add]
  cases s with
  | positive => rfl
  | negative => exact (Int.neg_add).symm

/-! ## Sides of single precision numbers -/

/-- The side of a packed result. -/
theorem side_ofModel_pack {u : UnpackedFloat} (h : Fits u) :
    side (.ofModel (Float32.Model.pack u)) = unpackedSide u :=
  unpackedSide_pack h

theorem fits_toModel (x : Float32) : Fits x.toModel.unpack := fits_unpack _

@[simp] theorem side_zero : side 0 = some 0 := rfl

@[simp] theorem side_infinity : side infinity = some 1 := rfl

@[simp] theorem side_neg (x : Float32) : side (-x) = (side x).map (- ·) := by
  show side (.ofModel (Float32.Model.pack x.toModel.unpack.neg)) =
    (unpackedSide x.toModel.unpack).map (- ·)
  have h := fits_toModel x
  rw [side_ofModel_pack]
  · cases x.toModel.unpack <;> simp [UnpackedFloat.neg, unpackedSide]
  · revert h
    cases x.toModel.unpack <;> exact fun h => h

/-- A magnitude is zero or positive. -/
theorem side_abs (x : Float32) :
    side x.abs = (side x).map fun s => s * s := by
  show side (.ofModel (Float32.Model.pack x.toModel.unpack.abs)) =
    (unpackedSide x.toModel.unpack).map fun s => s * s
  have h := fits_toModel x
  rw [side_ofModel_pack]
  · cases x.toModel.unpack with
    | notANumber => rfl
    | zero s => rfl
    | infinity s => cases s <;> rfl
    | finite s m e hm => cases s <;> rfl
  · revert h
    cases x.toModel.unpack <;> exact fun h => h

/-! ## Sums that cannot cancel -/

theorem fits_add {u v : UnpackedFloat} (hu : Fits u) (hv : Fits v) :
    Fits (UnpackedFloat.add Format.binary32 u v) := by
  cases u <;> cases v <;> simp only [UnpackedFloat.add] <;>
    first
    | exact fits_normalize _ _ _
    | assumption
    | (split <;> trivial)

theorem fits_sub {u v : UnpackedFloat} (hu : Fits u) (hv : Fits v) :
    Fits (UnpackedFloat.sub Format.binary32 u v) := by
  cases u <;> cases v <;> simp only [UnpackedFloat.sub] <;>
    first
    | exact fits_normalize _ _ _
    | assumption
    | (split <;> trivial)

theorem fits_mul (u v : UnpackedFloat) : Fits (UnpackedFloat.mul Format.binary32 u v) := by
  cases u <;> cases v <;> simp only [UnpackedFloat.mul] <;>
    first
    | exact fits_roundWithAccuracy _ _ _ _
    | trivial

theorem side_add (x y : Float32) :
    side (x + y) =
      unpackedSide (UnpackedFloat.add Format.binary32 x.toModel.unpack y.toModel.unpack) :=
  side_ofModel_pack (fits_add (fits_toModel x) (fits_toModel y))

theorem side_sub (x y : Float32) :
    side (x - y) =
      unpackedSide (UnpackedFloat.sub Format.binary32 x.toModel.unpack y.toModel.unpack) :=
  side_ofModel_pack (fits_sub (fits_toModel x) (fits_toModel y))

theorem side_mul (x y : Float32) :
    side (x * y) =
      unpackedSide (UnpackedFloat.mul Format.binary32 x.toModel.unpack y.toModel.unpack) :=
  side_ofModel_pack (fits_mul _ _)

/-- The two zeros are all that lies on no side. -/
theorem eq_zero_of_side {x : Float32} (h : side x = some 0) : ∃ s, x.toModel.unpack = .zero s := by
  unfold side at h
  cases hu : x.toModel.unpack with
  | zero s => exact ⟨s, rfl⟩
  | notANumber =>
    rw [hu] at h
    cases h
  | infinity s =>
    rw [hu] at h
    exact absurd (Option.some.inj h) (signSide_ne_zero s)
  | finite s m e hm =>
    rw [hu] at h
    exact absurd (Option.some.inj h) (signSide_ne_zero s)

/-- Adding zero changes no side. -/
theorem side_add_zero {x y : Float32} (hy : side y = some 0) : side (x + y) = side x := by
  obtain ⟨b, hb⟩ := eq_zero_of_side hy
  rw [side_add, hb, side]
  cases x.toModel.unpack with
  | zero a => cases a <;> cases b <;> rfl
  | notANumber => rfl
  | infinity a => rfl
  | finite a m e hm => rfl

/-- Adding to zero gives the side of what is added. -/
theorem side_zero_add {x y : Float32} (hx : side x = some 0) : side (x + y) = side y := by
  obtain ⟨a, ha⟩ := eq_zero_of_side hx
  rw [side_add, ha, side]
  cases y.toModel.unpack with
  | zero b => cases a <;> cases b <;> rfl
  | notANumber => rfl
  | infinity b => rfl
  | finite b m e hm => rfl

/-- Taking zero away changes no side. -/
theorem side_sub_zero {x y : Float32} (hy : side y = some 0) : side (x - y) = side x := by
  obtain ⟨b, hb⟩ := eq_zero_of_side hy
  rw [side_sub, hb, side]
  cases x.toModel.unpack with
  | zero a => cases a <;> cases b <;> rfl
  | notANumber => rfl
  | infinity a => rfl
  | finite a m e hm => rfl

/-- Numbers on one side have their sum there. It is not zero: digits of one sign
do not cancel, and the sum of two multiples of the smallest place is one. -/
theorem side_add_of_eq {x y : Float32} {s : SignType} (hx : side x = some s)
    (hy : side y = some s) : side (x + y) = some s := by
  rcases eq_or_ne s 0 with rfl | hs
  · rw [side_add_zero hy, hx]
  rw [side_add]
  have hfx := fits_toModel x
  have hfy := fits_toModel y
  unfold side at hx hy
  revert hx hy hfx hfy
  generalize x.toModel.unpack = u
  generalize y.toModel.unpack = v
  intro hu hv hfu hfv
  cases u with
  | notANumber => cases hu
  | zero a => exact absurd (Option.some.inj hu).symm hs
  | infinity a =>
    cases v with
    | notANumber => cases hv
    | zero b => exact absurd (Option.some.inj hv).symm hs
    | infinity b =>
      obtain rfl : a = b := signSide_inj (Option.some.inj (hu.trans hv.symm))
      simpa [UnpackedFloat.add] using hu
    | finite b m e hm => exact hu
  | finite a m e hm =>
    cases v with
    | notANumber => cases hv
    | zero b => exact absurd (Option.some.inj hv).symm hs
    | infinity b => exact hv
    | finite b m' e' hm' =>
      obtain rfl : a = b := signSide_inj (Option.some.inj (hu.trans hv.symm))
      -- both are aligned to the lower place, and add up as whole numbers
      have hplace : (-149 : Int) ≤ min e e' := le_min hfu.2 hfv.2
      simp only [UnpackedFloat.add, decreaseExponent]
      rw [apply_add, ← hu]
      refine unpackedSide_normalize a _ (Nat.add_pos_left ?_ _) hplace
      rw [Nat.shiftLeft_eq]
      exact Nat.mul_pos hm (Nat.two_pow_pos _)

/-! ## Factors -/

/-- Multiplication by the factor changes no side. -/
def KeepsSide (factor : Float32) : Prop := ∀ x, side (factor * x) = side x

/-- A factor between one half and one keeps the side of the smallest number as
well: its product is more than half of the smallest place, and is rounded up to
it. -/
theorem keepsSide_of_unpack {factor : Float32} {c : Nat} {hc : 0 < c}
    (hfactor : factor.toModel.unpack = .finite .positive c (-24) hc) (hhalf : 2 ^ 23 < c)
    (htiny : 0 < (ExtendedMantissa.ofMantissaAndAccuracy c .exact >>> 24).roundedMantissa) :
    KeepsSide factor := by
  intro x
  rw [side_mul, hfactor, side]
  have hfx := fits_toModel x
  revert hfx
  generalize x.toModel.unpack = u
  intro hfu
  cases u with
  | notANumber => rfl
  | zero a => rfl
  | infinity a => cases a <;> rfl
  | finite a m e hm =>
    have hsign : Sign.positive * a = a := by cases a <;> rfl
    simp only [UnpackedFloat.mul, hsign]
    refine unpackedSide_roundWithAccuracy ?_
    obtain ⟨n, h₁, -, -, -, hn⟩ := shiftToTargetExponent_eq (c * m) (-24 + e) .exact
    rw [h₁]
    have hplace : -149 ≤ e := hfu.2
    -- a digit that is kept already decides
    by_cases hbig : 2 ^ n ≤ c * m
    · refine lt_of_lt_of_le ?_ (le_roundedMantissa _)
      rw [mantissa_shiftRight, mantissa_ofMantissaAndAccuracy]
      exact Nat.div_pos hbig (Nat.two_pow_pos n)
    · -- all digits are dropped: this is the smallest number
      have hprod : c * m ≠ 0 := (Nat.mul_pos hc hm).ne'
      have hlog : (c * m).log2 < n := (Nat.log2_lt hprod).mpr (by omega)
      have hle : n ≤ 24 := by omega
      have hlt : c * m < 2 ^ 24 :=
        lt_of_lt_of_le (by omega) (Nat.pow_le_pow_right (by decide) hle)
      obtain rfl : m = 1 := by
        by_contra hne
        have := Nat.mul_le_mul_left c (show 2 ≤ m by omega)
        omega
      obtain rfl : n = 24 := by
        by_contra hne
        have : 2 ^ n ≤ 2 ^ 23 := Nat.pow_le_pow_right (by decide) (by omega)
        omega
      rwa [Nat.mul_one]

/-- The factor of the decoder's messages, which damps them without turning any.
-/
theorem keepsSide_messageFactor : KeepsSide 0.8 :=
  @keepsSide_of_unpack _ 13421773 (by decide) rfl (by decide) (by decide)

/-! ## Comparisons -/

theorem lt_iff (x y : Float32) :
    x < y ↔ x.toModel.unpack.compare y.toModel.unpack = some .lt := by
  show decide (x.toModel.unpack.lt y.toModel.unpack = true) = true ↔ _
  rw [decide_eq_true_iff, UnpackedFloat.lt, beq_iff_eq]

theorem beq_iff (x y : Float32) :
    (x == y) = true ↔ x.toModel.unpack.compare y.toModel.unpack = some .eq := by
  show x.toModel.unpack.beq y.toModel.unpack = true ↔ _
  rw [UnpackedFloat.beq, beq_iff_eq]

/-- Zero is below exactly the positive numbers, and which zero it is does not
matter. -/
theorem zero_side_lt_iff {x y : Float32} (hx : side x = some 0) : x < y ↔ side y = some 1 := by
  obtain ⟨a, ha⟩ := eq_zero_of_side hx
  rw [lt_iff, ha, side]
  cases y.toModel.unpack with
  | notANumber => simp [UnpackedFloat.compare, unpackedSide]
  | zero b => simp [UnpackedFloat.compare, unpackedSide]
  | infinity b => cases b <;> simp [UnpackedFloat.compare, unpackedSide, signSide]
  | finite b m e hm => cases b <;> simp [UnpackedFloat.compare, unpackedSide, signSide]

/-- Below zero are exactly the negative numbers. -/
theorem lt_zero_side_iff {x y : Float32} (hy : side y = some 0) : x < y ↔ side x = some (-1) := by
  obtain ⟨a, ha⟩ := eq_zero_of_side hy
  rw [lt_iff, ha, side]
  cases x.toModel.unpack with
  | notANumber => simp [UnpackedFloat.compare, unpackedSide]
  | zero b => simp [UnpackedFloat.compare, unpackedSide]
  | infinity b => cases b <;> simp [UnpackedFloat.compare, unpackedSide, signSide]
  | finite b m e hm => cases b <;> simp [UnpackedFloat.compare, unpackedSide, signSide]

theorem lt_zero_iff (x : Float32) : x < 0 ↔ side x = some (-1) := lt_zero_side_iff side_zero

/-- The numbers that equal zero are the zeros. -/
theorem bne_zero_iff (x : Float32) : (x != 0) = true ↔ side x ≠ some 0 := by
  rw [bne, Bool.not_eq_true', ← Bool.not_eq_true, beq_iff, not_iff_not]
  show x.toModel.unpack.compare (.zero .positive) = some .eq ↔
    unpackedSide x.toModel.unpack = some 0
  cases x.toModel.unpack with
  | notANumber => simp [UnpackedFloat.compare, unpackedSide]
  | zero b => simp [UnpackedFloat.compare, unpackedSide]
  | infinity b => cases b <;> simp [UnpackedFloat.compare, unpackedSide, signSide]
  | finite b m e hm => cases b <;> simp [UnpackedFloat.compare, unpackedSide, signSide]

end Single

end Uplink
