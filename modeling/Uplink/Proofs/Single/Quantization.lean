import Uplink.Proofs.Double.Conversion
import Uplink.Proofs.SoftBit

/-!
# Quantization

Soft values of any size, infinite ones and NaN included, become soft bits in the reach of
arithmetic.

- `SoftBit.toUInt8_lt`: the part before the point of a number that is not limited.
- `SoftBit.inReach_ofSingle`: so they are in reach, whatever the soft value was.
-/

namespace Uplink

namespace SoftBit

open Float.Model (UnpackedFloat)
open Float.Model.UnpackedFloat

theorem unpack_limit :
    (120 : Float32).toModel.unpack = .finite .positive (120 * 2 ^ 17) (-17) (by norm_num) :=
  rfl

/-- The part before the point, for numbers below the reach of soft bits. Numbers
that are none, and negative ones, are converted to zero. -/
theorem toUInt8_lt {x : Float32} (h : ¬ (120 : Float32) ≤ x) : x.toUInt8.toNat < 120 := by
  have hop : x.toUInt8 =
      UInt8.ofNatClamp (toInt 0 (UInt8.size - 1) x.toModel.unpack).toNat := rfl
  have hle : ¬ (120 : Float32).toModel.unpack.le x.toModel.unpack = true := fun hle =>
    h (show decide ((120 : Float32).toModel.unpack.le x.toModel.unpack = true) = true from
      decide_eq_true hle)
  rw [unpack_limit] at hle
  suffices hlt : (toInt 0 (UInt8.size - 1) x.toModel.unpack).toNat < 120 by
    rwa [hop, UInt8.toNat_ofNatClamp_of_lt (hlt.trans (by decide))]
  -- by what the number unpacks to; only positive digits need the comparison
  cases hu : x.toModel.unpack with
  | notANumber => decide
  | zero s => exact (show 0 < 120 by decide)
  | infinity s =>
    cases s with
    | negative => decide
    | positive =>
      rw [hu] at hle
      exact absurd rfl hle
  | finite s m e hm =>
    show (roundToInt s m e).toNat < 120
    rw [Double.roundToInt_eq]
    cases s with
    | negative =>
      show (-((⌊(m * 2 ^ e : ℚ)⌋₊ : ℕ) : ℤ)).toNat < 120
      omega
    | positive =>
      obtain ⟨hlt, hlow, hfull⟩ := Double.single_digits hu
      rw [hu] at hle
      have hcompare : ¬ ((compare (-17) e).then (compare (120 * 2 ^ 17) m)).isLE = true := hle
      rw [Double.compare_digits (by norm_num : 120 * 2 ^ 17 < 2 ^ (23 + 1))
        (by norm_num : (-149 : ℤ) ≤ -17) (.inl (by norm_num)) hlt hlow hfull,
        Double.isLE_compare, not_le] at hcompare
      have hvalue : ((120 * 2 ^ 17 : ℕ) : ℚ) * 2 ^ (-17 : ℤ) = (120 : ℕ) := by norm_num
      rw [hvalue] at hcompare
      show (((⌊(m * 2 ^ e : ℚ)⌋₊ : ℕ) : ℤ)).toNat < 120
      rw [Int.toNat_natCast]
      exact (Nat.floor_lt' (by norm_num)).mpr hcompare

/-- The magnitude of a quantized value is within the reach of soft bits. -/
theorem quantizedMagnitude_le (x : Float32) : (quantizedMagnitude x).toNat ≤ 120 := by
  unfold quantizedMagnitude
  by_cases h : (120 : Float32) ≤ x
  · rw [if_pos h]
    decide
  · have hlt := toUInt8_lt h
    rw [if_neg h]
    dsimp only
    split
    · rw [UInt8.toNat_add]
      show (_ + 1) % 256 ≤ 120
      omega
    · exact hlt.le

/-- Every real value becomes a soft bit in the reach of arithmetic, so
demodulation never claims certainty. -/
theorem inReach_ofSingle (x : Float32) : (ofSingle x).InReach := by
  have hmagnitude : ∀ x, (quantizedMagnitude x).toInt8.toInt = (quantizedMagnitude x).toNat := by
    intro x
    have := quantizedMagnitude_le x
    rw [← UInt8.toNat_toBitVec] at this
    rw [← Int8.toInt_toBitVec, UInt8.toBitVec_toInt8, BitVec.toInt_eq_toNat_of_lt (by omega),
      UInt8.toNat_toBitVec]
  unfold ofSingle InReach max
  split
  · decide
  · split
    · have := quantizedMagnitude_le (-x)
      rw [Int8.toInt_neg, hmagnitude, Int.bmod_eq_of_le (by omega) (by omega)]
      omega
    · have := quantizedMagnitude_le x
      rw [hmagnitude]
      omega

end SoftBit

end Uplink
