import Mathlib.Algebra.BigOperators.Ring.Finset
import Mathlib.Tactic.Ring
import Uplink.Proofs.Bits
import Uplink.Proofs.Bits.Coefficient
import Uplink.Uci.ShortBlock

/-!
# Codewords of control messages

The encoder lays a codeword out element by element, and the decoder asks which code bit an element
carries. Both agree at every element of every repetition. The code bits determine the message: one
and two bits are sent as they are, and each bit of a longer message is the sum of a few code bits,
because the basis sequences are independent.

- `ShortBlock.exists_encode`, `ShortBlock.element_encode`: the codeword and what it carries.
- `ShortBlock.codeBit_only01`, `ShortBlock.coefficient_combination`: the code bits.
- `ShortBlock.recovery`, `ShortBlock.eq_of_codeBit`: the message from its code bits.
-/

namespace Uplink

namespace ShortBlock

open Bits (coefficient coefficient_xor coefficient_and)
open Finset (range)

variable {message other w : Bits} {m : Modulation}

/-! ## Layout -/

theorem require_length {n : ℕ} (hpos : 1 ≤ n) (hle : n ≤ maxLength) :
    require (1 ≤ n && n ≤ maxLength) (lengthText n) = .ok () :=
  require_of (Bool.and_eq_true_iff.mpr ⟨decide_eq_true hpos, decide_eq_true hle⟩) _

/-- Messages of one to eleven bits have a codeword; the encoder refuses no other
property of a message. -/
theorem exists_encode (m : Modulation) (hpos : 0 < message.size)
    (hle : message.size ≤ maxLength) : ∃ w, encode message m = .ok w := by
  rw [encode, require_length hpos hle, ok_bind]
  split
  · exact ⟨_, rfl⟩
  · exact ⟨_, rfl⟩
  · exact ⟨_, rfl⟩

/-- A place that carries a code bit carries one of the codeword. -/
theorem codePosition_lt {n k p : ℕ} (h : codePosition n m k = some p) : p < codeLength n := by
  match n with
  | 1 =>
    simp only [codePosition, Option.ite_none_right_eq_some, Option.some.injEq] at h
    rw [← h.2]
    exact Nat.one_pos
  | 2 =>
    simp only [codePosition, Option.ite_none_right_eq_some, Option.some.injEq] at h
    rw [← h.2]
    exact Nat.mod_lt _ (by decide)
  | 0 | n + 3 =>
    obtain rfl : k % basisLength = p := Option.some.inj h
    exact Nat.mod_lt _ (by decide)

/-- A long message has no placeholders: its code bits repeat from the start. -/
theorem codePosition_of_long {n : ℕ} (hone : n ≠ 1) (htwo : n ≠ 2) (m : Modulation) (k : ℕ) :
    codePosition n m k = some (k % basisLength) := by
  rw [codePosition]
  · exact hone
  · exact htwo

/-- The code bits of a long message are combinations of the basis sequences. -/
theorem codeBit_of_long (hone : message.size ≠ 1) (htwo : message.size ≠ 2) (p : ℕ) :
    codeBit message p = combination message p := by
  rw [codeBit]
  split
  · exact absurd ‹_› hone
  · exact absurd ‹_› htwo
  · rfl

/-- An element of the repeated codeword carries a code bit, or it is a
placeholder. The decoder asks for `codePosition`, the encoder writes the
elements, and here the two are seen to agree. -/
theorem element_encode (h : encode message m = .ok w) (k : ℕ) :
    (∃ p, codePosition message.size m k = some p ∧ w.getD (k % w.size) 0 = codeBit message p) ∨
    (codePosition message.size m k = none ∧
      (w.getD (k % w.size) 0 = Scrambling.one ∨ w.getD (k % w.size) 0 = Scrambling.previous)) := by
  have horder := m.order_pos
  obtain ⟨-, -, h⟩ := bind_eq_ok.mp h
  split at h
  · rename_i hsize
    obtain rfl := Except.ok.inj h
    -- one bit: a placeholder stands at every place of a symbol but the first
    have hk : k % m.order < m.order := Nat.mod_lt _ horder
    simp only [hsize, codePosition, Array.size_ofFn]
    rw [Buffer.getD_of_lt (by rwa [Array.size_ofFn]), Array.getElem_ofFn]
    by_cases hfirst : k % m.order = 0
    · exact .inl ⟨0, if_pos hfirst, if_pos hfirst⟩
    · refine .inr ⟨if_neg hfirst, ?_⟩
      simp only [if_neg hfirst]
      split
      · exact .inr rfl
      · exact .inl rfl
  · rename_i hsize
    obtain rfl := Except.ok.inj h
    -- two bits: three code bits in turn, at the first two places of each symbol
    have hk : k % (3 * m.order) < 3 * m.order := Nat.mod_lt _ (by omega)
    have hplace : k % (3 * m.order) % m.order = k % m.order := Nat.mod_mul_left_mod _ _ _
    have hsymbol : k % (3 * m.order) / m.order = k / m.order % 3 := by
      rw [Nat.mul_comm, Nat.mod_mul_right_div_self]
    simp only [hsize, codePosition, Array.size_ofFn]
    rw [Buffer.getD_of_lt (by rwa [Array.size_ofFn]), Array.getElem_ofFn]
    simp only [hplace, hsymbol]
    by_cases hbit : k % m.order < 2
    · have hcode : (2 * (k / m.order % 3) + k % m.order) % 3 =
          (2 * (k / m.order) + k % m.order) % 3 := by omega
      exact .inl ⟨_, if_pos hbit, by rw [if_pos hbit, hcode]⟩
    · exact .inr ⟨if_neg hbit, .inl (if_neg hbit)⟩
  · -- more than two bits: the codeword repeats without placeholders
    rename_i hone htwo
    obtain rfl := Except.ok.inj h
    have hk : k % basisLength < basisLength := Nat.mod_lt _ (by decide)
    refine .inl ⟨_, codePosition_of_long hone htwo m k, ?_⟩
    rw [codeBit_of_long hone htwo, Array.size_map, Array.size_range,
      Buffer.getD_of_lt (by rwa [Array.size_map, Array.size_range]), Array.getElem_map,
      Array.getElem_range]

/-! ## Code bits -/

theorem and_only01 {a : UInt8} (ha : a = 0 ∨ a = 1) (b : UInt8) : a &&& b = 0 ∨ a &&& b = 1 := by
  have hle : (a &&& b).toNat ≤ 1 := by
    rw [UInt8.toNat_and]
    exact Nat.and_le_left.trans (by rcases ha with rfl | rfl <;> decide)
  rcases Nat.le_one_iff_eq_zero_or_eq_one.mp hle with h | h
  · exact .inl (UInt8.toNat_inj.mp h)
  · exact .inr (UInt8.toNat_inj.mp h)

theorem combination_only01 (h : message.HasOnly01) (i : ℕ) :
    combination message i = 0 ∨ combination message i = 1 := by
  rw [combination, ← Array.foldl_toList]
  refine List.foldlRecOn _ _ (motive := fun sum : UInt8 => sum = 0 ∨ sum = 1) (.inl rfl) ?_
  rintro sum hsum ⟨bit, b⟩ hmem
  rw [Array.toList_zip] at hmem
  exact Bits.xor_only01 hsum (and_only01 (h bit (Array.mem_toList_iff.mp (List.of_mem_zip hmem).1)) b)

/-- Code bits of a message of bits are bits, whatever the length of the message.
-/
theorem codeBit_only01 (h : message.HasOnly01) (p : ℕ) :
    codeBit message p = 0 ∨ codeBit message p = 1 := by
  rw [codeBit]
  split
  · exact h.getD 0
  · split
    · exact Bits.xor_only01 (h.getD 0) (h.getD 1)
    · exact h.getD p
  · exact combination_only01 h p

/-- A combination is linear in the message, over the field of two elements. -/
theorem coefficient_combination (message : Bits) (i : ℕ) :
    coefficient (combination message i) = ∑ j ∈ range message.size,
      coefficient (message.getD j 0) * coefficient ((basis.getD i #[]).getD j 0) := by
  -- the fold over the pairs, for any rest of the two rows and any sum so far
  have hfold : ∀ (bits row : List UInt8) (sum : UInt8),
      coefficient ((bits.zip row).foldl (fun sum pair => sum ^^^ (pair.1 &&& pair.2)) sum) =
        coefficient sum + ∑ j ∈ range bits.length,
          coefficient (bits.getD j 0) * coefficient (row.getD j 0) := by
    intro bits
    induction bits with
    | nil => simp
    | cons bit bits ih =>
      intro row sum
      cases row with
      | nil => simp
      | cons b row =>
        rw [List.zip_cons_cons, List.foldl_cons, ih, coefficient_xor, coefficient_and,
          List.length_cons, Finset.sum_range_succ']
        simp only [List.getD_cons_succ, List.getD_cons_zero]
        ring
  rw [combination, ← Array.foldl_toList, Array.toList_zip]
  refine (hfold message.toList (basis.getD i #[]).toList 0).trans ?_
  simp

/-! ## The message of a codeword -/

/-- The code bits whose sum is bit `j` of the message. -/
def recovery : ℕ → Finset ℕ
  | 0 => {31}
  | 1 => {0, 1, 10, 25}
  | 2 => {0, 2, 14, 30}
  | 3 => {7, 22}
  | 4 => {0, 1, 4, 8}
  | 5 => {0, 1, 4, 13}
  | 6 => {0, 1, 2, 3}
  | 7 => {0, 1, 4, 21}
  | 8 => {0, 4, 8, 23}
  | 9 => {0, 2, 9, 23}
  | 10 => {0, 6, 13, 29}
  | _ => ∅

/-- The basis sequences are independent: for every bit of a message some code
bits add up to it alone. -/
theorem sum_recovery : ∀ j < maxLength, (∀ p ∈ recovery j, p < basisLength) ∧
    ∀ i < maxLength, ∑ p ∈ recovery j, coefficient ((basis.getD p #[]).getD i 0) =
      if i = j then 1 else 0 := by
  decide +kernel

/-- The code bits of a recovery set add up to the bit that they recover. -/
theorem sum_combination (hle : message.size ≤ maxLength) {j : ℕ} (hj : j < message.size) :
    ∑ p ∈ recovery j, coefficient (combination message p) = coefficient (message.getD j 0) := by
  have hindependent := (sum_recovery j (by omega)).2
  simp only [coefficient_combination]
  rw [Finset.sum_comm]
  calc ∑ i ∈ range message.size, ∑ p ∈ recovery j,
        coefficient (message.getD i 0) * coefficient ((basis.getD p #[]).getD i 0)
      = ∑ i ∈ range message.size, coefficient (message.getD i 0) * if i = j then 1 else 0 := by
        refine Finset.sum_congr rfl fun i hi => ?_
        rw [← Finset.mul_sum, hindependent i (by have := Finset.mem_range.mp hi; omega)]
    _ = coefficient (message.getD j 0) := by
        simp only [mul_ite, mul_one, mul_zero]
        rw [Finset.sum_ite_eq', if_pos (Finset.mem_range.mpr hj)]

/-- As many elements as are needed to determine a message of `n` bits. -/
def neededLength : ℕ → ℕ
  | 1 => 1
  | 2 => 2
  | _ => basisLength

theorem neededLength_of_long {n : ℕ} (hone : n ≠ 1) (htwo : n ≠ 2) :
    neededLength n = basisLength := by
  rw [neededLength]
  · exact hone
  · exact htwo

/-- These elements carry the code bits in order, each of them once. -/
theorem codePosition_self {n k : ℕ} (m : Modulation) (h : k < neededLength n) :
    codePosition n m k = some k := by
  by_cases hone : n = 1
  · subst hone
    obtain rfl : k = 0 := Nat.lt_one_iff.mp h
    rw [codePosition, Nat.zero_mod, if_pos rfl]
  by_cases htwo : n = 2
  · subst htwo
    have horder : 2 ≤ m.order := by cases m <;> decide
    have hlt : k < 2 := h
    rw [codePosition, Nat.mod_eq_of_lt (by omega), Nat.div_eq_of_lt (by omega), if_pos hlt,
      Nat.mul_zero, Nat.zero_add, Nat.mod_eq_of_lt (by omega)]
  · rw [neededLength_of_long hone htwo] at h
    rw [codePosition_of_long hone htwo, Nat.mod_eq_of_lt h]

/-- These code bits determine the message. Short messages are among their own
code bits, and longer ones are recovered bit by bit. -/
theorem eq_of_codeBit (hmessage : message.HasOnly01) (hother : other.HasOnly01)
    (hsize : other.size = message.size) (hle : message.size ≤ maxLength)
    (h : ∀ p < neededLength message.size, codeBit other p = codeBit message p) :
    other = message := by
  have hbit : ∀ i < message.size, other.getD i 0 = message.getD i 0 := by
    intro i hi
    by_cases hone : message.size = 1
    · rw [hone] at h hi
      obtain rfl : i = 0 := Nat.lt_one_iff.mp hi
      simpa only [codeBit, hsize, hone] using h 0 Nat.one_pos
    by_cases htwo : message.size = 2
    · rw [htwo] at h hi
      simpa only [codeBit, hsize, htwo, if_neg hi.ne] using h i hi
    -- the bit is the sum of code bits that are the same
    refine Bits.eq_of_coefficient (hother.getD i) (hmessage.getD i) ?_
    rw [← sum_combination hle hi, ← sum_combination (hsize.trans_le hle) (hsize ▸ hi)]
    refine Finset.sum_congr rfl fun p hp => ?_
    have hlt : p < neededLength message.size := by
      rw [neededLength_of_long hone htwo]
      exact (sum_recovery i (by omega)).1 p hp
    rw [← codeBit_of_long hone htwo, ← codeBit_of_long (hsize ▸ hone) (hsize ▸ htwo), h p hlt]
  refine Array.ext hsize fun i hi hi' => ?_
  rw [← Buffer.getD_of_lt hi 0, ← Buffer.getD_of_lt hi' 0]
  exact hbit i hi'

end ShortBlock

end Uplink
