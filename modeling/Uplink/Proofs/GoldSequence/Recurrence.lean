import Uplink.Proofs.Crc.Register
import Uplink.Proofs.GoldSequence

/-!
# The recurrences of a Gold sequence

A sequence is the sum of two sequences, each of which finds its next bit from the last 31 ones. The
registers hold these 31 bits, the oldest at the lowest place, and the first 1600 bits are dropped.

- `GoldSequence.firstBit`, `secondBit`: the two sequences; `GoldSequence.components`: their start
  and their recurrences.
- `GoldSequence.At`: the registers after some bits; `At.advance`, `At.skip`: one bit and many later.
- `GoldSequence.run_ofSeed`: what the sequence of a seed gives to its uses.
-/

namespace Uplink

namespace GoldSequence

open Crc (place place_and place_xor place_shiftRight place_shiftLeft)

/-! ## Two sequences -/

/-- The start and the recurrences of the two sequences of a seed. -/
structure Components (seed : UInt32) (x y : Nat → Bool) : Prop where
  first_one : x 0 = true
  first_zero : ∀ n, 0 < n → n < 31 → x n = false
  first_step : ∀ n, x (n + 31) = (x (n + 3) ^^ x n)
  second_seed : ∀ n < 31, y n = seed.toNat.testBit n
  second_step : ∀ n, y (n + 31) = (y (n + 3) ^^ y (n + 2) ^^ y (n + 1) ^^ y n)

/-- The bits of the first sequence. -/
def firstBit (n : Nat) : Bool :=
  if n < 31 then n == 0 else firstBit (n - 28) ^^ firstBit (n - 31)

/-- The bits of the second sequence of a seed. -/
def secondBit (seed : UInt32) (n : Nat) : Bool :=
  if n < 31 then seed.toNat.testBit n
  else secondBit seed (n - 28) ^^ secondBit seed (n - 29) ^^ secondBit seed (n - 30) ^^
    secondBit seed (n - 31)

/-- The bits that are defined by the recurrences have their starts and meet
them. -/
theorem components (seed : UInt32) : Components seed firstBit (secondBit seed) where
  first_one := by rw [firstBit]; rfl
  first_zero n hpos hn := by
    rw [firstBit, if_pos hn, beq_eq_false_iff_ne]
    exact hpos.ne'
  first_step n := by
    rw [firstBit, if_neg (by omega)]
    rfl
  second_seed n hn := by rw [secondBit, if_pos hn]
  second_step n := by
    rw [secondBit, if_neg (by omega)]
    rfl

/-! ## Registers -/

theorem place_or (r s : UInt32) (i : Nat) : place (r ||| s) i = (place r i || place s i) := by
  simp [place]

theorem place_places {i : Nat} (hi : i < 32) : place places i = decide (i < 31) := by
  have h : ∀ i : Fin 32, place places i = decide (i.val < 31) := by decide
  exact h ⟨i, hi⟩

theorem place_one {i : Nat} (hi : i < 32) : place 1 i = decide (i = 0) := by
  have h : ∀ i : Fin 32, place 1 i = decide (i.val = 0) := by decide
  exact h ⟨i, hi⟩

/-- All bits move down by one place, and the new bit is the highest of 31. The
highest place of the word stays empty. -/
theorem place_shiftIn (r bit : UInt32) {i : Nat} (hi : i < 32) :
    place (shiftIn r bit) i =
      (decide (i < 31) && (place r (i + 1) || (decide (i = 30) && place bit 0))) := by
  have hdown : place (r >>> 1) i = place r (i + 1) := by
    rw [Nat.add_comm]
    exact place_shiftRight r (k := 1) (by decide) i
  have hup : place (bit <<< 30) i =
      (decide (30 ≤ i) && decide (i < 32) && place bit (i - 30)) :=
    place_shiftLeft bit (k := 30) (by decide) i
  rw [shiftIn, place_and, place_or, place_places hi, hdown, hup, decide_eq_true hi, Bool.and_true,
    Bool.and_comm]
  rcases Nat.lt_trichotomy i 30 with hlt | rfl | hgt
  · simp [show ¬ 30 ≤ i by omega, show i ≠ 30 by omega]
  · rfl
  · simp [show ¬ i < 31 by omega]

/-- The first register feeds back the sum of two of its places, as its
recurrence says. -/
theorem place_firstFeedback (r : UInt32) :
    place (firstFeedback r) 0 = (place r 3 ^^ place r 0) := by
  have h : place (r >>> 3) 0 = place r 3 := place_shiftRight r (k := 3) (by decide) 0
  rw [firstFeedback, place_and, place_xor, h, place_one (by decide), decide_eq_true rfl,
    Bool.and_true]

/-- The second register feeds back the sum of its four lowest places. -/
theorem place_secondFeedback (r : UInt32) :
    place (secondFeedback r) 0 = (place r 3 ^^ place r 2 ^^ place r 1 ^^ place r 0) := by
  have h₃ : place (r >>> 3) 0 = place r 3 := place_shiftRight r (k := 3) (by decide) 0
  have h₂ : place (r >>> 2) 0 = place r 2 := place_shiftRight r (k := 2) (by decide) 0
  have h₁ : place (r >>> 1) 0 = place r 1 := place_shiftRight r (k := 1) (by decide) 0
  rw [secondFeedback, place_and, place_xor, place_xor, place_xor, h₃, h₂, h₁,
    place_one (by decide), decide_eq_true rfl, Bool.and_true]

/-- A word whose other places are masked away is its lowest place. -/
theorem and_one_eq (r : UInt32) : r &&& 1 = if place r 0 then 1 else 0 := by
  refine Crc.eq_of_place fun i hi => ?_
  rw [place_and, place_one hi]
  rcases Nat.eq_zero_or_pos i with rfl | hpos
  · cases place r 0 <;> rfl
  · rw [decide_eq_false hpos.ne', Bool.and_false]
    split
    · rw [place_one hi, decide_eq_false hpos.ne']
    · rw [Crc.place_zero]

/-! ## Registers along the sequences -/

/-- A register holds 31 bits of a sequence, the first of them at the lowest
place. -/
def Holds (r : UInt32) (x : Nat → Bool) : Prop :=
  ∀ i < 32, place r i = (decide (i < 31) && x i)

theorem Holds.place_eq {r : UInt32} {x : Nat → Bool} (h : Holds r x) {i : Nat} (hi : i < 31) :
    place r i = x i := by
  rw [h i (Nat.lt_succ_of_lt hi), decide_eq_true hi, Bool.true_and]

/-- With the next bit at its top, a register holds the bits from the next one
on. -/
theorem Holds.shiftIn {r bit : UInt32} {x : Nat → Bool} (h : Holds r x)
    (hbit : place bit 0 = x 31) : Holds (shiftIn r bit) fun i => x (i + 1) := by
  intro i hi
  rw [place_shiftIn r bit hi, hbit]
  rcases Nat.lt_trichotomy i 30 with hlt | rfl | hgt
  · rw [h.place_eq (by omega), decide_eq_false (by omega : i ≠ 30), Bool.false_and, Bool.or_false]
  · rw [h 31 (by decide)]
    simp
  · rw [decide_eq_false (by omega : ¬ i < 31), Bool.false_and, Bool.false_and]

/-- The registers after `n` bits of two sequences. -/
structure At (x y : Nat → Bool) (n : Nat) (g : GoldSequence) : Prop where
  first : Holds g.first fun i => x (n + i)
  second : Holds g.second fun i => y (n + i)

variable {seed : UInt32} {x y : Nat → Bool} {n : Nat} {g : GoldSequence}

/-- The first register starts with a one, the second with the seed. -/
theorem at_start (h : Components seed x y) : At x y 0 ⟨1, seed &&& places⟩ where
  first i hi := by
    show place 1 i = (decide (i < 31) && x (0 + i))
    rw [place_one hi, Nat.zero_add]
    rcases Nat.eq_zero_or_pos i with rfl | hpos
    · rw [h.first_one]
      rfl
    · rw [decide_eq_false hpos.ne']
      by_cases hlt : i < 31
      · rw [h.first_zero i hpos hlt, Bool.and_false]
      · rw [decide_eq_false hlt, Bool.false_and]
  second i hi := by
    show place (seed &&& places) i = (decide (i < 31) && y (0 + i))
    rw [place_and, place_places hi, Nat.zero_add, Bool.and_comm]
    by_cases hlt : i < 31
    · rw [h.second_seed i hlt]
      rfl
    · rw [decide_eq_false hlt, Bool.false_and, Bool.false_and]

/-- One bit later: both registers hold the bits from the next one on, because
each feeds back the bit that its recurrence asks for. -/
theorem At.advance (h : Components seed x y) (hg : At x y n g) : At x y (n + 1) g.advance where
  first := by
    have hbit : place (firstFeedback g.first) 0 = x (n + 31) := by
      rw [place_firstFeedback, hg.first.place_eq (by decide), hg.first.place_eq (by decide),
        h.first_step]
      rfl
    simp only [Nat.add_right_comm n 1]
    exact hg.first.shiftIn hbit
  second := by
    have hbit : place (secondFeedback g.second) 0 = y (n + 31) := by
      rw [place_secondFeedback, hg.second.place_eq (by decide), hg.second.place_eq (by decide),
        hg.second.place_eq (by decide), hg.second.place_eq (by decide), h.second_step]
      rfl
    simp only [Nat.add_right_comm n 1]
    exact hg.second.shiftIn hbit

/-- Any number of bits later, one after the other. -/
theorem At.skip (h : Components seed x y) (hg : At x y n g) (m : Nat) :
    At x y (n + m) (g.skip m) := by
  induction m with
  | zero => exact hg
  | succ m ih => exact ih.advance h

/-- The bit at a position is the sum of both sequences there. -/
theorem At.bit_eq (hg : At x y n g) : g.bit = (x n ^^ y n).toUInt8 := by
  have hplace : place (g.first ^^^ g.second) 0 = (x n ^^ y n) := by
    rw [place_xor, hg.first.place_eq (by decide), hg.second.place_eq (by decide)]
    rfl
  rw [bit, and_one_eq, hplace]
  cases (x n ^^ y n) <;> rfl

/-- Every position has bits to be read, whatever the registers hold. They need
not come from a seed. -/
theorem exists_reads (g : GoldSequence) : ∃ c, g.Reads c := by
  refine ⟨fun n => place ((g.skip n).first ^^^ (g.skip n).second) 0, fun n => ?_⟩
  rw [bit, and_one_eq]
  dsimp only
  cases place ((g.skip n).first ^^^ (g.skip n).second) 0 <;> rfl

/-- The sequence of a seed is read from bit 1600 on; the bits before are skipped
when it is set up. -/
theorem reads_ofSeed (seed : UInt32) :
    (ofSeed seed).Reads fun n => firstBit (n + 1600) ^^ secondBit seed (n + 1600) := by
  intro n
  have hcomponents := components seed
  have hdropped : At firstBit (secondBit seed) (0 + 1600) (ofSeed seed) :=
    (at_start hcomponents).skip hcomponents 1600
  rw [(hdropped.skip hcomponents n).bit_eq, Nat.zero_add, Nat.add_comm]

/-- Uses of the sequence of a seed, in any order: each gives what the bits say
that it takes, and the bits are the sums of the two sequences from bit 1600 on,
none of them left out or taken twice. -/
theorem run_ofSeed (seed : UInt32) :
    Components seed firstBit (secondBit seed) ∧
      ∀ uses, run uses (ofSeed seed) = do
        return (← answers (fun n => firstBit (n + 1600) ^^ secondBit seed (n + 1600)) 0 uses,
          (ofSeed seed).skip (taken uses)) := by
  refine ⟨components seed, fun uses => run_of_reads uses ?_⟩
  simpa only [Nat.zero_add] using reads_ofSeed seed

end GoldSequence

end Uplink
