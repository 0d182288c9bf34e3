import Uplink.SoftBit
import Mathlib.Data.Sign.Defs

/-!
# Soft bits in the reach of arithmetic

- `SoftBit.InReach`: values that demodulation and addition produce; none of them is certain.
- `SoftBit.toInt_add`: on them addition is addition, limited to the reach.
- `SoftBit.favour`: the side that a soft bit takes.
- `Faithful`: soft bits that favour the bits of a word; `of_zero` and `of_one` give their sides.
-/

namespace Uplink

namespace SoftBit

/-- The value can be the result of arithmetic. -/
def InReach (a : SoftBit) : Prop := -max ≤ a.value.toInt ∧ a.value.toInt ≤ max

/-- A number limited to the reach of arithmetic. -/
def limited (v : Int) : Int := if v < -max then -max else if max < v then max else v

theorem limited_mem (v : Int) : -max ≤ limited v ∧ limited v ≤ max := by
  unfold limited max
  split
  · omega
  · split <;> omega

/-- Numbers within the reach are not changed by limiting them. -/
theorem limited_of_mem {v : Int} (h : -max ≤ v ∧ v ≤ max) : limited v = v := by
  unfold limited
  rw [if_neg (by omega), if_neg (by omega)]

/-- A limited number fits the eight bits of a soft bit, so that it is stored as
it is. -/
theorem toInt_saturate (v : Int) : (saturate v).value.toInt = limited v := by
  have hmem : -120 ≤ limited v ∧ limited v ≤ 120 := limited_mem v
  show (Int8.ofInt (limited v)).toInt = limited v
  exact Int8.toInt_ofInt_of_le (by omega) (by omega)

theorem inReach_saturate (v : Int) : (saturate v).InReach := by
  rw [InReach, toInt_saturate]
  exact limited_mem v

theorem inReach_erased : erased.InReach := by
  unfold InReach
  decide

/-- A value in reach is not certain: the two certain values lie beyond
everything that arithmetic produces. -/
theorem InReach.not_certain {a : SoftBit} (h : a.InReach) : a.isCertain = false := by
  rw [isCertain, Bool.or_eq_false_iff, beq_eq_false_iff_ne, beq_eq_false_iff_ne]
  unfold InReach max at h
  constructor
  · intro heq
    rw [heq] at h
    exact absurd h (by decide)
  · intro heq
    rw [heq] at h
    exact absurd h (by decide)

/-- Neither summand in reach absorbs the other, so only the last branch of the
addition is taken. -/
theorem add_eq {a b : SoftBit} (ha : a.InReach) (hb : b.InReach) :
    a + b = saturate (a.value.toInt + b.value.toInt) := by
  show add a b = _
  rw [add, ha.not_certain, hb.not_certain]
  rfl

/-- In reach, addition is addition of the values, limited. Sums stay in reach,
so a whole sequence of additions can be followed with it. -/
theorem toInt_add {a b : SoftBit} (ha : a.InReach) (hb : b.InReach) :
    (a + b).value.toInt = limited (a.value.toInt + b.value.toInt) := by
  rw [add_eq ha hb, toInt_saturate]

theorem InReach.add {a b : SoftBit} (ha : a.InReach) (hb : b.InReach) : (a + b).InReach := by
  rw [add_eq ha hb]
  exact inReach_saturate _

theorem ext_toInt {a b : SoftBit} (h : a.value.toInt = b.value.toInt) : a = b := by
  cases a
  cases b
  exact congrArg SoftBit.mk (Int8.toInt_inj.mp h)

/-- The first soft bit added to no knowledge is kept as it is. -/
theorem erased_add {b : SoftBit} (hb : b.InReach) : erased + b = b := by
  apply ext_toInt
  rw [toInt_add inReach_erased hb]
  show limited (0 + b.value.toInt) = b.value.toInt
  rw [Int.zero_add, limited_of_mem hb]

/-- The side that a soft bit takes: positive for a zero bit. -/
def favour (a : SoftBit) : SignType :=
  if a.value.toInt < 0 then -1 else if 0 < a.value.toInt then 1 else 0

@[simp] theorem favour_erased : erased.favour = 0 := rfl

@[simp] theorem favour_certainZero : certainZero.favour = 1 := rfl

theorem favour_eq_neg_one_iff {a : SoftBit} : a.favour = -1 ↔ a.value.toInt < 0 := by
  unfold favour
  split
  · simp [*]
  · split <;> simp [*]

theorem favour_eq_one_iff {a : SoftBit} : a.favour = 1 ↔ 0 < a.value.toInt := by
  unfold favour
  split
  · have : ¬ 0 < a.value.toInt := by omega
    simp [*]
  · split <;> simp [*]

/-- Only a soft bit without knowledge takes no side. -/
theorem favour_eq_zero_iff {a : SoftBit} : a.favour = 0 ↔ a.value.toInt = 0 := by
  unfold favour
  split
  · have : a.value.toInt ≠ 0 := by omega
    simp [*]
  · split
    · have : a.value.toInt ≠ 0 := by omega
      simp [*]
    · have : a.value.toInt = 0 := by omega
      simp [*]

/-- Two soft bits of one side add up to a soft bit of that side. Limiting the
sum cannot change its side, since the reach is the same on both. -/
theorem favour_add {a b : SoftBit} {t : SignType} (ha : a.InReach) (hb : b.InReach)
    (hat : a.favour = t) (hbt : b.favour = t) : (a + b).favour = t := by
  have hsum := toInt_add ha hb
  rw [limited, max] at hsum
  cases t with
  | zero =>
    have hza := favour_eq_zero_iff.mp hat
    have hzb := favour_eq_zero_iff.mp hbt
    refine favour_eq_zero_iff.mpr ?_
    rw [hsum, hza, hzb]
    rfl
  | neg =>
    have hna := favour_eq_neg_one_iff.mp hat
    have hnb := favour_eq_neg_one_iff.mp hbt
    refine favour_eq_neg_one_iff.mpr ?_
    rw [hsum]
    split
    · decide
    · split <;> omega
  | pos =>
    have hpa := favour_eq_one_iff.mp hat
    have hpb := favour_eq_one_iff.mp hbt
    refine favour_eq_one_iff.mpr ?_
    rw [hsum]
    split
    · omega
    · split <;> omega

/-- Soft bits of one side, added to no knowledge, give a soft bit of that side.
There must be one of them, as the sum of none is no knowledge. -/
theorem favour_foldl {l : List SoftBit} {t : SignType}
    (h : ∀ a ∈ l, a.InReach ∧ a.favour = t) (hne : l ≠ []) :
    (l.foldl (· + ·) erased).favour = t := by
  -- the first soft bit gives the sum a side, and the others keep it
  suffices ∀ (l : List SoftBit) (a : SoftBit), (∀ b ∈ l, b.InReach ∧ b.favour = t) →
      a.InReach ∧ a.favour = t → (l.foldl (· + ·) a).favour = t by
    cases l with
    | nil => exact absurd rfl hne
    | cons a l =>
      have ha := h a List.mem_cons_self
      rw [List.foldl_cons, erased_add ha.1]
      exact this l a (fun b hb => h b (List.mem_cons_of_mem a hb)) ha
  intro l
  induction l with
  | nil => exact fun a _ ha => ha.2
  | cons b l ih =>
    intro a hl ha
    have hb := hl b List.mem_cons_self
    exact ih (a + b) (fun c hc => hl c (List.mem_cons_of_mem b hc))
      ⟨ha.1.add hb.1, favour_add ha.1 hb.1 ha.2 hb.2⟩

end SoftBit

/-! ## Soft bits of a word -/

/-- Every soft bit favours its bit of the word, with a magnitude from 1 to 120.
-/
structure Faithful (w : Bits) (softBits : Array SoftBit) : Prop where
  size : softBits.size = w.size
  zero : ∀ i < w.size, w.getD i 0 = 0 →
    1 ≤ (softBits.getD i SoftBit.erased).value.toInt ∧
      (softBits.getD i SoftBit.erased).value.toInt ≤ 120
  one : ∀ i < w.size, w.getD i 0 ≠ 0 →
    -120 ≤ (softBits.getD i SoftBit.erased).value.toInt ∧
      (softBits.getD i SoftBit.erased).value.toInt ≤ -1

namespace Faithful

variable {w : Bits} {softBits : Array SoftBit} {i : Nat}

/-- A faithful soft bit of a zero is positive and never a certain bit. -/
theorem of_zero (h : Faithful w softBits) (hi : i < w.size) (hbit : w.getD i 0 = 0) :
    (softBits.getD i SoftBit.erased).InReach ∧ (softBits.getD i SoftBit.erased).favour = 1 := by
  have hvalue := h.zero i hi hbit
  rw [SoftBit.InReach, SoftBit.max]
  exact ⟨by omega, SoftBit.favour_eq_one_iff.mpr (by omega)⟩

/-- A faithful soft bit of a one is negative and never a certain bit. -/
theorem of_one (h : Faithful w softBits) (hi : i < w.size) (hbit : w.getD i 0 ≠ 0) :
    (softBits.getD i SoftBit.erased).InReach ∧ (softBits.getD i SoftBit.erased).favour = -1 := by
  have hvalue := h.one i hi hbit
  rw [SoftBit.InReach, SoftBit.max]
  exact ⟨by omega, SoftBit.favour_eq_neg_one_iff.mpr (by omega)⟩

end Faithful

end Uplink
