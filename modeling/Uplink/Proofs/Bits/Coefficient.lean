import Mathlib.Algebra.Field.ZMod
import Uplink.Bits

/-!
# Elements as binary digits

An element of a bit sequence counts by its lowest binary digit, a number of the field of two
elements. Bitwise operations on elements are the operations of that field.

- `Bits.coefficient`: the digit of an element.
- `Bits.coefficient_xor`, `Bits.coefficient_and`: sums and products.
- `Bits.eq_of_coefficient`: zeros and ones are told apart by their digits.
-/

namespace Uplink

namespace Bits

/-- An element of a bit sequence counts by its lowest binary digit. -/
def coefficient (b : UInt8) : ZMod 2 := (b.toNat : ZMod 2)

@[simp] theorem coefficient_zero : coefficient 0 = 0 := rfl

@[simp] theorem coefficient_one : coefficient 1 = 1 := rfl

/-- The digit of an element is what is left when the others are masked away. -/
theorem coefficient_eq (b : UInt8) : coefficient b = ((b &&& 1 != 0).toNat : ZMod 2) := by
  have hlow : (b &&& 1).toNat = b.toNat % 2 := by
    rw [UInt8.toNat_and]
    exact Nat.and_one_is_mod _
  have hbit : (b &&& 1 != 0).toNat = b.toNat % 2 := by
    rcases Nat.mod_two_eq_zero_or_one b.toNat with h | h
    · rw [UInt8.toNat_inj.mp (hlow.trans h : _ = (0 : UInt8).toNat), h]
      rfl
    · rw [UInt8.toNat_inj.mp (hlow.trans h : _ = (1 : UInt8).toNat), h]
      rfl
  rw [hbit, coefficient, ZMod.natCast_mod]

/-- The same by the lowest place of the element, where bitwise operations are
known place by place. -/
theorem coefficient_eq_getLsbD (b : UInt8) :
    coefficient b = ((b.toBitVec.getLsbD 0).toNat : ZMod 2) := by
  have hbit : (b.toBitVec.getLsbD 0).toNat = b.toNat % 2 := by
    rw [BitVec.getLsbD, Nat.testBit_zero, UInt8.toNat_toBitVec]
    rcases Nat.mod_two_eq_zero_or_one b.toNat with h | h <;> rw [h] <;> rfl
  rw [hbit, coefficient, ZMod.natCast_mod]

/-- Exclusive or is the sum of digits. -/
theorem coefficient_xor (a b : UInt8) : coefficient (a ^^^ b) = coefficient a + coefficient b := by
  simp only [coefficient_eq_getLsbD, UInt8.toBitVec_xor, BitVec.getLsbD_xor]
  cases a.toBitVec.getLsbD 0 <;> cases b.toBitVec.getLsbD 0 <;> decide

theorem coefficient_and (a b : UInt8) : coefficient (a &&& b) = coefficient a * coefficient b := by
  simp only [coefficient_eq_getLsbD, UInt8.toBitVec_and, BitVec.getLsbD_and]
  cases a.toBitVec.getLsbD 0 <;> cases b.toBitVec.getLsbD 0 <;> decide

/-- Zeros and ones are told apart by their digits. For other elements the digit
says less. -/
theorem eq_of_coefficient {a b : UInt8} (ha : a = 0 ∨ a = 1) (hb : b = 0 ∨ b = 1)
    (h : coefficient a = coefficient b) : a = b := by
  rcases ha with rfl | rfl <;> rcases hb with rfl | rfl
  · rfl
  · exact absurd h (by decide)
  · exact absurd h (by decide)
  · rfl

end Bits

end Uplink
