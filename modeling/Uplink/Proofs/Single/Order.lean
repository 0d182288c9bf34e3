import Uplink.Proofs.Single.Side
import Uplink.Proofs.Double.Conversion

/-!
# The order of magnitudes

Finite numbers in single precision are rational numbers, and their magnitudes are compared as such.
Of every magnitude there is only one number.

- `Single.Stored`, `unpack_pack`: digits that are read back as they were stored.
- `Single.magnitude`: the magnitude of a finite number, as a rational number.
- `Single.abs_lt_iff`, `abs_le_iff`: comparisons of magnitudes; `abs_lt_infinity`.
- `Single.abs_eq_of_magnitude_eq`: equal magnitudes are the same number.
-/

namespace Uplink

namespace Single

open Float.Model (Format UnpackedFloat)
open Float.Model.UnpackedFloat

/-! ## Storing -/

/-- Digits that fit their format: at most 24, all of them unless the last one
has the smallest place, and that place not too high. -/
def Stored : UnpackedFloat → Prop
  | .finite _ m e _ => m < 2 ^ 24 ∧ -149 ≤ e ∧ e ≤ 104 ∧ (2 ^ 23 ≤ m ∨ e = -149)
  | _ => True

/-- Such digits are read back as they were stored. Storing rounds nothing then,
and the two ways of storing a finite number are told apart by its exponent. -/
theorem unpack_pack {u : UnpackedFloat} (h : Stored u) :
    unpack Format.binary32 (pack Format.binary32 u) = u := by
  cases u with
  | notANumber =>
    rw [pack, packedNaN, Double.unpack_single]
    rfl
  | infinity s =>
    rw [pack, packedInfinity, Double.unpack_single]
    rfl
  | zero s =>
    rw [pack, packedZero, Double.unpack_single]
    rfl
  | finite s m e hm =>
    obtain ⟨hhigh, hlow, hplace, hfull⟩ := h
    have hbias : Format.binary32.exponentBias = 127 := rfl
    have hdigits : Format.binary32.mantissaBits = 24 := rfl
    rw [pack]
    simp only [hbias, hdigits]
    rw [if_neg (by omega)]
    by_cases hnormal : m.log2 + 1 = 24
    · -- a normal number: its first digit is not stored
      rw [if_pos hnormal]
      have hm23 : 2 ^ 23 ≤ m := (Nat.le_log2 hm.ne').mp (by omega)
      have hexponent : (BitVec.ofNat 8 (e + (127 : ℕ) + (23 : ℕ)).toNat).toNat =
          (e + 150).toNat := by
        rw [BitVec.toNat_ofNat]
        omega
      have hmantissa : (BitVec.ofNat 23 m).toNat = m - 2 ^ 23 := by
        rw [BitVec.toNat_ofNat]
        omega
      rw [Double.unpack_single, hexponent, hmantissa, if_neg (by omega), if_neg (by omega)]
      rw [UnpackedFloat.finite.injEq]
      exact ⟨rfl, by omega, by omega⟩
    · -- a subnormal number: all its digits are stored
      rw [if_neg hnormal]
      have hm23 : m < 2 ^ 23 := by
        have : m.log2 < 24 := (Nat.log2_lt hm.ne').mpr hhigh
        exact (Nat.log2_lt hm.ne').mp (by omega)
      obtain rfl : e = -149 := hfull.resolve_left (by omega)
      have hmantissa : (BitVec.ofNat 23 m).toNat = m := by
        rw [BitVec.toNat_ofNat, Nat.mod_eq_of_lt hm23]
      rw [Double.unpack_single, if_neg (by decide), if_pos (by decide), dif_neg (by omega)]
      simp only [hmantissa]

/-- The digits of every single precision number fit their format. -/
theorem stored_toModel (x : Float32) : Stored x.toModel.unpack := by
  obtain ⟨s, e, d, hunpack, -⟩ := Double.exists_fields x
  have he := e.isLt
  have hd := d.isLt
  rw [hunpack, Double.unpack_single]
  by_cases hspecial : e.toNat = 255
  · rw [if_pos hspecial]
    split <;> trivial
  · rw [if_neg hspecial]
    by_cases hsubnormal : e.toNat = 0
    · rw [if_pos hsubnormal]
      split
      · trivial
      · exact ⟨by omega, by omega, by omega, .inr rfl⟩
    · rw [if_neg hsubnormal]
      exact ⟨by omega, by omega, by omega, .inl (Nat.le_add_right _ _)⟩

theorem Stored.abs {u : UnpackedFloat} (h : Stored u) : Stored u.abs := by
  cases u <;> exact h

theorem unpack_abs (x : Float32) : x.abs.toModel.unpack = x.toModel.unpack.abs :=
  unpack_pack (stored_toModel x).abs

theorem Stored.digitsOf {u : UnpackedFloat} (h : Stored u) : Double.DigitsOf 23 (-149) u := by
  cases u with
  | finite s m e hm => exact ⟨h.1, h.2.1, h.2.2.2⟩
  | notANumber => trivial
  | infinity s => trivial
  | zero s => trivial

/-! ## Magnitudes -/

/-- The magnitude of a finite number; zero for infinities and NaN. -/
def magnitude (x : Float32) : ℚ := (Double.value? x.toModel.unpack.abs).getD 0

variable {x y : Float32}

theorem isFinite_def : x.isFinite = x.toModel.unpack.isFinite := rfl

/-- The magnitude is the value of the absolute value. -/
theorem value?_abs (h : x.isFinite = true) :
    Double.value? x.abs.toModel.unpack = some (magnitude x) := by
  rw [unpack_abs, magnitude]
  rw [isFinite_def] at h
  cases hu : x.toModel.unpack with
  | notANumber => rw [hu] at h; cases h
  | infinity s => rw [hu] at h; cases h
  | zero s => rfl
  | finite s m e hm => rfl

/-- Absolute values of finite numbers are compared as their magnitudes are,
without rounding. -/
theorem compare_abs (hx : x.isFinite = true) (hy : y.isFinite = true) :
    x.abs.toModel.unpack.compare y.abs.toModel.unpack =
      some (compare (magnitude x) (magnitude y)) :=
  Double.compare_value (stored_toModel _).digitsOf (stored_toModel _).digitsOf (value?_abs hx)
    (value?_abs hy)

theorem abs_lt_iff (hx : x.isFinite = true) (hy : y.isFinite = true) :
    x.abs < y.abs ↔ magnitude x < magnitude y := by
  rw [lt_iff, compare_abs hx hy, Option.some.injEq, compare_lt_iff_lt]

theorem abs_le_iff (hx : x.isFinite = true) (hy : y.isFinite = true) :
    x.abs ≤ y.abs ↔ magnitude x ≤ magnitude y := by
  show decide (x.abs.toModel.unpack.le y.abs.toModel.unpack = true) = true ↔ _
  rw [decide_eq_true_iff, UnpackedFloat.le, compare_abs hx hy, Option.any_some,
    Double.isLE_compare]

/-- Every finite number is below infinity, so it replaces the start value of a
search for a minimum. -/
theorem abs_lt_infinity (hx : x.isFinite = true) : x.abs < infinity := by
  have hinfinity : infinity.toModel.unpack = .infinity .positive := rfl
  rw [lt_iff, unpack_abs, hinfinity]
  rw [isFinite_def] at hx
  cases hu : x.toModel.unpack with
  | notANumber => rw [hu] at hx; cases hx
  | infinity s => rw [hu] at hx; cases hx
  | zero s => rfl
  | finite s m e hm => rfl

/-- There is only one number of each magnitude. Two stored numbers of equal
value have equal digits. -/
theorem abs_eq_of_magnitude_eq (hx : x.isFinite = true) (hy : y.isFinite = true)
    (h : magnitude x = magnitude y) : x.abs = y.abs := by
  have hcompare := compare_abs hx hy
  rw [h, compare_eq_iff_eq.mpr rfl, unpack_abs, unpack_abs] at hcompare
  rw [isFinite_def] at hx hy
  suffices habs : x.toModel.unpack.abs = y.toModel.unpack.abs from
    congrArg (fun u => Float32.ofModel (Float32.Model.pack u)) habs
  -- a zero compares equal to a zero only, and finite digits to the same digits
  cases hu : x.toModel.unpack with
  | notANumber => rw [hu] at hx; cases hx
  | infinity s => rw [hu] at hx; cases hx
  | zero s =>
    rw [hu] at hcompare
    cases hv : y.toModel.unpack with
    | notANumber => rw [hv] at hy; cases hy
    | infinity t => rw [hv] at hy; cases hy
    | zero t => rfl
    | finite t n f hn => rw [hv] at hcompare; cases hcompare
  | finite s m e hm =>
    rw [hu] at hcompare
    cases hv : y.toModel.unpack with
    | notANumber => rw [hv] at hy; cases hy
    | infinity t => rw [hv] at hy; cases hy
    | zero t => rw [hv] at hcompare; cases hcompare
    | finite t n f hn =>
      rw [hv] at hcompare
      have hthen : (compare e f).then (compare m n) = .eq := Option.some.inj hcompare
      rw [Ordering.then_eq_eq, compare_eq_iff_eq, compare_eq_iff_eq] at hthen
      obtain ⟨rfl, rfl⟩ := hthen
      rfl

end Single

end Uplink
