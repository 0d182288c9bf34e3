import Uplink.Crc
import Uplink.Proofs.Bits

/-!
# The division register

A register is read place by place. As many bits as it has places bring it to zero in one way only:
they are the places themselves, the highest first, because the generator has the constant term one.

- `Crc.place`, `Crc.Fits`: the places of a word, and words that fit the register.
- `Crc.place_step`: one bit enters the register.
- `Crc.foldl_step_eq_zero_iff`: the bits that bring a register to zero.
- `Crc.getD_registerBits`: the register as a bit sequence.
-/

namespace Uplink

namespace Crc

variable (crc : Crc)

/-! ## Places of a register -/

/-- The bit at place `i` of a register. -/
def place (register : UInt32) (i : Nat) : Bool := register.toBitVec.getLsbD i

/-- Registers are equal if all their places are. -/
theorem eq_of_place {r s : UInt32} (h : ∀ i < 32, place r i = place s i) : r = s :=
  UInt32.toBitVec_inj.mp (BitVec.eq_of_getLsbD_eq h)

@[simp] theorem place_zero (i : Nat) : place 0 i = false := by
  simp [place]

theorem place_xor (r s : UInt32) (i : Nat) : place (r ^^^ s) i = (place r i != place s i) := by
  simp [place]

theorem place_and (r s : UInt32) (i : Nat) : place (r &&& s) i = (place r i && place s i) := by
  simp [place]

theorem place_of_le (r : UInt32) {i : Nat} (hi : 32 ≤ i) : place r i = false :=
  BitVec.getLsbD_of_ge _ _ hi

/-- Moving up by `k` places leaves the lowest `k` empty, and what moves beyond
the word is lost. -/
theorem place_shiftLeft (r : UInt32) {k : Nat} (hk : k < 32) (i : Nat) :
    place (r <<< k.toUInt32) i = (decide (k ≤ i) && decide (i < 32) && place r (i - k)) := by
  have hamount : (k.toUInt32.toBitVec % 32).toNat = k := by
    simp
    omega
  rw [place, UInt32.toBitVec_shiftLeft]
  show (r.toBitVec <<< (k.toUInt32.toBitVec % 32).toNat).getLsbD i = _
  rw [hamount, BitVec.getLsbD_shiftLeft, place]
  grind

theorem place_shiftRight (r : UInt32) {k : Nat} (hk : k < 32) (i : Nat) :
    place (r >>> k.toUInt32) i = place r (k + i) := by
  have hamount : (k.toUInt32.toBitVec % 32).toNat = k := by
    simp
    omega
  rw [place, UInt32.toBitVec_shiftRight]
  show (r.toBitVec >>> (k.toUInt32.toBitVec % 32).toNat).getLsbD i = _
  rw [hamount, BitVec.getLsbD_ushiftRight, place]

theorem place_double (r : UInt32) (i : Nat) :
    place (r <<< 1) i = (decide (0 < i) && decide (i < 32) && place r (i - 1)) :=
  place_shiftLeft r (k := 1) (by decide) i

theorem order_le : crc.order ≤ 24 := by cases crc <;> decide

theorem order_pos : 0 < crc.order := by cases crc <;> decide

/-- The mask keeps the places below the order. -/
theorem place_mask {i : Nat} (hi : i < 32) : place crc.mask i = decide (i < crc.order) := by
  have h : ∀ i : Fin 32, place crc.mask i = decide (i.val < crc.order) := by
    cases crc <;> decide
  exact h ⟨i, hi⟩

theorem place_top {i : Nat} (hi : i < 32) : place crc.top i = decide (i = crc.order - 1) := by
  have h : ∀ i : Fin 32, place crc.top i = decide (i.val = crc.order - 1) := by
    cases crc <;> decide
  exact h ⟨i, hi⟩

/-- The generator has the constant term one, which is why the lowest place tells
what a step has done. -/
theorem place_generator_zero : place crc.generator 0 = true := by cases crc <;> rfl

theorem place_generator {i : Nat} (hle : crc.order ≤ i) (hi : i < 32) :
    place crc.generator i = false := by
  have h : ∀ i : Fin 32, crc.order ≤ i.val → place crc.generator i = false := by
    cases crc <;> decide
  exact h ⟨i, hi⟩ hle

/-- The bit at the highest place, which decides whether the generator is
subtracted. -/
theorem and_top (r : UInt32) : (r &&& crc.top != 0) = place r (crc.order - 1) := by
  have horder := crc.order_le
  have hpos := crc.order_pos
  rw [Bool.eq_iff_iff, bne_iff_ne]
  constructor
  · intro h
    -- a word with nothing at the top place has no place left under the mask `top`
    by_contra hplace
    refine h (eq_of_place fun i hi => ?_)
    rw [place_and, place_top crc hi, place_zero]
    by_cases htop : i = crc.order - 1
    · rw [htop, Bool.eq_false_iff.mpr hplace, Bool.false_and]
    · rw [decide_eq_false htop, Bool.and_false]
  · intro hplace h
    have := congrArg (place · (crc.order - 1)) h
    simp only [place_and, place_zero] at this
    rw [place_top crc (by omega), hplace, decide_eq_true rfl] at this
    cases this

/-- All places from the order on are empty. -/
def Fits (register : UInt32) : Prop :=
  ∀ i, crc.order ≤ i → i < 32 → place register i = false

theorem fits_zero : crc.Fits 0 := fun i _ _ => place_zero i

/-! ## One bit enters -/

/-- What leaves at the top, added to the bit. -/
def feedback (register : UInt32) (bit : UInt8) : Bool :=
  place register (crc.order - 1) != (bit &&& 1 != 0)

/-- One step, place by place: everything moves up, and what leaves at the top is
fed back through the generator. -/
theorem place_step (r : UInt32) (bit : UInt8) {i : Nat} (hi : i < 32) :
    place (crc.step r bit) i =
      ((decide (0 < i) && decide (i < crc.order) && place r (i - 1)) !=
        (crc.feedback r bit && place crc.generator i)) := by
  have hshift : place ((r <<< 1) &&& crc.mask) i =
      (decide (0 < i) && decide (i < crc.order) && place r (i - 1)) := by
    rw [place_and, place_double, place_mask crc hi, decide_eq_true hi, Bool.and_true,
      Bool.and_right_comm]
  rw [step, and_top, ← feedback]
  split
  · rename_i hfeed
    rw [place_xor, hshift, hfeed, Bool.true_and]
  · rename_i hfeed
    rw [hshift, Bool.eq_false_iff.mpr hfeed, Bool.false_and, Bool.bne_false]

/-- The lowest place shows whether the generator was subtracted. -/
theorem place_step_zero (r : UInt32) (bit : UInt8) :
    place (crc.step r bit) 0 = crc.feedback r bit := by
  rw [place_step crc r bit (by decide), place_generator_zero]
  simp

/-- If it was not, the register has moved up by one place, and nothing is lost
at the top. -/
theorem place_step_succ {r : UInt32} {bit : UInt8} (h : crc.feedback r bit = false) {i : Nat}
    (hi : i + 1 < crc.order) : place (crc.step r bit) (i + 1) = place r i := by
  have horder := crc.order_le
  rw [place_step crc r bit (by omega), h]
  simp [hi]

/-- A step masks its result, so the register fits whatever it held before. -/
theorem fits_step (r : UInt32) (bit : UInt8) : crc.Fits (crc.step r bit) := by
  intro i hle hi
  have hlt : ¬ i < crc.order := by omega
  rw [place_step crc r bit hi, place_generator crc hle hi]
  simp [hlt]

theorem fits_foldl {r : UInt32} (h : crc.Fits r) (bits : List UInt8) :
    crc.Fits (bits.foldl crc.step r) := by
  induction bits generalizing r with
  | nil => exact h
  | cons bit bits ih => exact ih (crc.fits_step r bit)

/-! ## Bits that bring a register to zero -/

/-- The bits bring the register to zero exactly if they are its places, the
highest first, and the other places are empty. The induction is on the bits: the
first one must cancel the highest place. -/
theorem foldl_step_eq_zero_iff {bits : List UInt8} (hlength : bits.length ≤ crc.order) {r : UInt32}
    (hr : crc.Fits r) :
    bits.foldl crc.step r = 0 ↔
      ∀ i < crc.order, place r (crc.order - 1 - i) = (bits.getD i 0 &&& 1 != 0) := by
  have horder := crc.order_le
  induction bits generalizing r with
  | nil =>
    rw [List.foldl_nil]
    constructor
    · rintro rfl i -
      simp
    · intro h
      refine eq_of_place fun i hi => ?_
      rw [place_zero]
      -- nothing is left to enter: the places are the missing bits, all zero
      by_cases hlt : i < crc.order
      · have := h (crc.order - 1 - i) (by omega)
        rw [show crc.order - 1 - (crc.order - 1 - i) = i by omega] at this
        simpa using this
      · exact hr i (by omega) hi
  | cons bit bits ih =>
    rw [List.length_cons] at hlength
    refine (ih (Nat.le_of_succ_le hlength) (crc.fits_step r bit)).trans ?_
    -- the bits leave the lowest place of the next register empty, so nothing is fed back
    have hempty : (bits.getD (crc.order - 1) 0 &&& 1 != 0) = false := by
      rw [List.getD_eq_getElem?_getD, List.getElem?_eq_none (by omega)]
      rfl
    have hfirst : crc.feedback r bit = false ↔
        place r (crc.order - 1) = (bit &&& 1 != 0) := by simp [feedback]
    constructor
    · intro h
      -- the lowest place after the step shows that nothing was fed back
      have hlast := h (crc.order - 1) (by omega)
      rw [Nat.sub_self, place_step_zero, hempty] at hlast
      intro i hi
      cases i with
      | zero => exact hfirst.mp hlast
      | succ i =>
        rw [List.getD_cons_succ, ← h i (by omega),
          show crc.order - 1 - i = crc.order - 1 - (i + 1) + 1 by omega,
          place_step_succ crc hlast (by omega)]
    · intro h
      have hfeed := hfirst.mpr (h 0 (by omega))
      intro i hi
      rcases Nat.lt_or_ge i (crc.order - 1) with hlt | hge
      · rw [show crc.order - 1 - i = crc.order - 1 - (i + 1) + 1 by omega,
          place_step_succ crc hfeed (by omega), h (i + 1) (by omega), List.getD_cons_succ]
      · rw [show i = crc.order - 1 by omega, Nat.sub_self, place_step_zero, hfeed, hempty]

/-! ## The register as bits -/

/-- The bit at place `i` of the register, counted from the highest. -/
theorem getD_registerBits {r : UInt32} {i : Nat} (hi : i < crc.order) :
    (crc.registerBits r).getD i 0 = if place r (crc.order - 1 - i) then 1 else 0 := by
  have horder := crc.order_le
  have hget : (crc.registerBits r).getD i 0 =
      ((r >>> (crc.order - 1 - i).toUInt32) &&& 1).toUInt8 := by
    rw [Buffer.getD_of_lt (by simpa using hi)]
    simp [registerBits]
  have hplace : ((r >>> (crc.order - 1 - i).toUInt32) &&& 1).toNat =
      r.toNat >>> (crc.order - 1 - i) % 2 := by
    have hsmall : (crc.order - 1 - i) % 4294967296 % 32 = crc.order - 1 - i := by omega
    simp [hsmall]
  have hbit : place r (crc.order - 1 - i) = (r.toNat >>> (crc.order - 1 - i) % 2 == 1) := by
    simp [place, BitVec.getLsbD, Nat.testBit]
  rw [hget, hbit]
  apply UInt8.toNat_inj.mp
  rw [UInt32.toNat_toUInt8, hplace]
  rcases Nat.mod_two_eq_zero_or_one (r.toNat >>> (crc.order - 1 - i)) with h | h <;> rw [h] <;> rfl

theorem registerBits_only01 (r : UInt32) : (crc.registerBits r).HasOnly01 := by
  refine Bits.HasOnly01.of_getD fun i hi => ?_
  rw [getD_registerBits crc (by simpa using hi)]
  split
  · exact .inr rfl
  · exact .inl rfl

end Crc

end Uplink
