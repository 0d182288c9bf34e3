import Uplink.Proofs.Crc.Division

/-!
# Checks through a table

A whole byte enters the register with one look-up. Modulo the generator the register moves up by
eight places, and what leaves it at the top, added to the byte, is the word whose entry is taken.

- `Crc.tableEntry_eq`: an entry is the register after eight zero bits.
- `Crc.byteStep_byteAt`: a byte enters as its eight bits do.
- `Crc.ofBits_eq_foldl`: the check of a bit sequence is the register after all its bits.
- `Crc.ofBits_unpack`: the check of bytes is the check of their bits.
-/

namespace Uplink

open Polynomial

namespace Crc

open Bits (coefficient)

variable (crc : Crc)

/-! ## Entries -/

/-- The places of a word that are places of the register. -/
def kept (word : UInt32) : UInt32 := word &&& crc.mask

theorem place_kept (w : UInt32) {i : ℕ} (hi : i < 32) :
    place (crc.kept w) i = (place w i && decide (i < crc.order)) := by
  rw [kept, place_and, place_mask crc hi]

theorem fits_kept (w : UInt32) : crc.Fits (crc.kept w) := by
  intro i hle hi
  rw [place_kept crc w hi, decide_eq_false (by omega), Bool.and_false]

/-- A register that fits has nothing to lose. -/
theorem kept_of_fits {r : UInt32} (h : crc.Fits r) : crc.kept r = r := by
  refine eq_of_place fun i hi => ?_
  rw [place_kept crc r hi]
  by_cases hlt : i < crc.order
  · rw [decide_eq_true hlt, Bool.and_true]
  · rw [h i (by omega) hi, Bool.false_and]

/-- A shift without a mask is a step with a zero bit, up to places that nothing
reads. -/
theorem kept_shiftOut (w : UInt32) : crc.kept (crc.shiftOut w) = crc.step (crc.kept w) 0 := by
  have horder := crc.order_le
  have hpos := crc.order_pos
  have hfeedback : crc.feedback (crc.kept w) 0 = place w (crc.order - 1) := by
    rw [feedback, place_kept crc w (by omega), decide_eq_true (by omega)]
    simp
  have hplace : ∀ {i}, i < 32 → place (crc.shiftOut w) i =
      ((decide (0 < i) && place w (i - 1)) !=
        (place w (crc.order - 1) && place crc.generator i)) := by
    intro i hi
    rw [shiftOut, and_top]
    split
    · rename_i htop
      rw [place_xor, place_double, htop, decide_eq_true hi, Bool.and_true, Bool.true_and]
    · rename_i htop
      rw [place_double, Bool.eq_false_iff.mpr htop, decide_eq_true hi, Bool.and_true,
        Bool.false_and, Bool.bne_false]
  refine eq_of_place fun i hi => ?_
  rw [place_kept crc _ hi, place_step crc _ 0 hi, hfeedback, hplace hi]
  -- the places above the order are masked away on both sides
  by_cases hlt : i < crc.order
  · have hbelow : i - 1 < crc.order := by omega
    rw [place_kept crc w (by omega), decide_eq_true hlt, decide_eq_true hbelow]
    simp
  · rw [decide_eq_false hlt, crc.fits_generator i (by omega) hi]
    simp

/-- An entry is the register after eight zero bits, started from the byte at its
highest places. The masks that the table leaves out on the way make no
difference. -/
theorem tableEntry_eq (byte : ℕ) :
    crc.tableEntry byte = (List.replicate 8 (0 : UInt8)).foldl crc.step
      (crc.kept (byte.toUInt32 <<< (crc.order - 8).toUInt32)) := by
  show crc.kept (Nat.repeat crc.shiftOut 8 _) = _
  generalize byte.toUInt32 <<< (crc.order - 8).toUInt32 = w
  generalize 8 = n
  induction n with
  | zero => rfl
  | succ n ih =>
    rw [Nat.repeat, kept_shiftOut, ih, List.replicate_succ', List.foldl_append]
    rfl

/-! ## Words of eight places -/

/-- All places of the word from the eighth on are empty. -/
def IsByte (word : UInt32) : Prop := ∀ i, 8 ≤ i → place word i = false

theorem place_toUInt32 (byte : UInt8) (i : ℕ) :
    place byte.toUInt32 i = byte.toBitVec.getLsbD i := by
  rw [place, UInt8.toBitVec_toUInt32, BitVec.getLsbD_setWidth]
  by_cases hi : i < 32
  · rw [decide_eq_true hi, Bool.true_and]
  · rw [BitVec.getLsbD_of_ge _ _ (by omega), Bool.and_false]

theorem isByte_toUInt32 (byte : UInt8) : IsByte byte.toUInt32 := by
  intro i hi
  rw [place_toUInt32, BitVec.getLsbD_of_ge _ _ hi]

namespace IsByte

variable {w v : UInt32}

theorem xor (hw : IsByte w) (hv : IsByte v) : IsByte (w ^^^ v) := by
  intro i hi
  rw [place_xor, hw i hi, hv i hi]
  rfl

theorem toNat_lt (h : IsByte w) : w.toNat < 256 :=
  Nat.lt_pow_two_of_testBit (n := 8) w.toNat h

/-- Masking a byte changes nothing. -/
theorem and_eq (h : IsByte w) : w &&& 0xFF = w := by
  have hmask : ∀ i : Fin 32, place 0xFF i = decide (i.val < 8) := by decide
  refine eq_of_place fun i hi => ?_
  rw [place_and, hmask ⟨i, hi⟩]
  by_cases hlt : i < 8
  · rw [decide_eq_true hlt, Bool.and_true]
  · rw [h i (by omega), Bool.false_and]

end IsByte

theorem eight_le_order : 8 ≤ crc.order := by cases crc <;> decide

/-- What leaves the register at the top when it moves up by eight places. -/
def leaving (r : UInt32) : UInt32 := r >>> (crc.order - 8).toUInt32

/-- What leaves is read at the top of the register. -/
theorem place_leaving (r : UInt32) (i : ℕ) :
    place (crc.leaving r) i = place r (crc.order - 8 + i) := by
  have horder := crc.order_le
  exact place_shiftRight r (by omega) i

theorem isByte_leaving {r : UInt32} (hr : crc.Fits r) : IsByte (crc.leaving r) := by
  have height := crc.eight_le_order
  intro i hi
  rw [place_leaving]
  by_cases hlt : crc.order - 8 + i < 32
  · exact hr _ (by omega) hlt
  · exact place_of_le r (by omega)

/-! ## Shifted words -/

/-- A byte moved up to the highest places of a register fits, because no order
is below eight. -/
theorem fits_raised {w : UInt32} (h : IsByte w) :
    crc.Fits (w <<< (crc.order - 8).toUInt32) := by
  have horder := crc.order_le
  have height := crc.eight_le_order
  intro i hle _
  rw [place_shiftLeft w (by omega), h (i - (crc.order - 8)) (by omega), Bool.and_false]

/-- Moving a byte up multiplies by a power of `X`, as nothing is lost at the
top. -/
theorem wordPolynomial_raised {w : UInt32} (h : IsByte w) :
    wordPolynomial (w <<< (crc.order - 8).toUInt32) = wordPolynomial w * X ^ (crc.order - 8) := by
  have horder := crc.order_le
  have height := crc.eight_le_order
  ext i
  rw [coeff_mul_X_pow', coeff_wordPolynomial, coeff_wordPolynomial, place_shiftLeft w (by omega)]
  by_cases hle : crc.order - 8 ≤ i
  · rw [if_pos hle, decide_eq_true hle, Bool.true_and]
    by_cases hlt : i < 32
    · rw [decide_eq_true hlt, Bool.true_and]
    · rw [h (i - (crc.order - 8)) (by omega), Bool.and_false]
  · rw [if_neg hle, decide_eq_false hle, Bool.false_and, Bool.false_and]
    rfl

/-- A register moved up by eight places: what stays, and what leaves at the top.
-/
theorem wordPolynomial_mul_X_pow (r : UInt32) :
    wordPolynomial r * X ^ 8 = wordPolynomial (crc.kept (r <<< 8)) +
      wordPolynomial (crc.leaving r) * X ^ crc.order := by
  have horder := crc.order_le
  have height := crc.eight_le_order
  have hshift : ∀ i, place (r <<< 8) i = (decide (8 ≤ i) && decide (i < 32) && place r (i - 8)) :=
    place_shiftLeft r (k := 8) (by decide)
  ext i
  rw [coeff_add, coeff_mul_X_pow', coeff_mul_X_pow', coeff_wordPolynomial, coeff_wordPolynomial,
    coeff_wordPolynomial, place_leaving]
  -- below the order stands what was moved up, from the order on what left
  by_cases hlt : i < crc.order
  · rw [if_neg (by omega : ¬ crc.order ≤ i), add_zero, place_kept crc _ (by omega), hshift,
      decide_eq_true hlt, Bool.and_true, decide_eq_true (by omega : i < 32), Bool.and_true]
    by_cases hle : 8 ≤ i
    · rw [if_pos hle, decide_eq_true hle, Bool.true_and]
    · rw [if_neg hle, decide_eq_false hle, Bool.false_and]
      rfl
  · have hnone : place (crc.kept (r <<< 8)) i = false := by
      by_cases h32 : i < 32
      · exact crc.fits_kept _ i (by omega) h32
      · exact place_of_le _ (by omega)
    have hsame : crc.order - 8 + (i - crc.order) = i - 8 := by omega
    rw [if_pos (by omega), if_pos (by omega), hnone, hsame]
    simp

/-! ## Bytes enter -/

/-- An entry is congruent to its byte, moved up by the order. -/
theorem congruent_tableEntry {w : UInt32} (h : IsByte w) :
    crc.Congruent (wordPolynomial (crc.tableEntry w.toNat))
      (wordPolynomial w * X ^ crc.order) := by
  have height := crc.eight_le_order
  have hfits := crc.fits_raised h
  have hword : w.toNat.toUInt32 = w := UInt32.ofNat_toNat
  have hzeros : (List.replicate 8 (0 : UInt8)).toArray = Array.replicate 8 0 := rfl
  have hbits := crc.congruent_foldl hfits (List.replicate 8 0)
  rw [hzeros, Bits.polynomial_replicate_zero, zero_mul, add_zero, wordPolynomial_raised crc h,
    List.length_replicate, mul_assoc, ← pow_add, Nat.sub_add_cancel height] at hbits
  rwa [tableEntry_eq, hword, crc.kept_of_fits hfits]

theorem fits_byteStep (table : Array UInt32) (r : UInt32) (byte : UInt8) :
    crc.Fits (crc.byteStep table r byte) := crc.fits_kept _

theorem kept_xor (r s : UInt32) : crc.kept (r ^^^ s) = crc.kept r ^^^ crc.kept s := by
  refine eq_of_place fun i hi => ?_
  rw [place_kept crc _ hi, place_xor, place_xor, place_kept crc _ hi, place_kept crc _ hi]
  cases place r i <;> cases place s i <;> cases decide (i < crc.order) <;> rfl

theorem fits_tableEntry (byte : ℕ) : crc.Fits (crc.tableEntry byte) := crc.fits_kept _

/-- The look-up takes the entry of what leaves the register, added to the byte.
Both have eight places, so the sum is an index of the table. -/
theorem byteStep_eq {r : UInt32} (hr : crc.Fits r) (byte : UInt8) :
    crc.byteStep crc.table r byte =
      crc.kept (r <<< 8) ^^^ crc.tableEntry (crc.leaving r ^^^ byte.toUInt32).toNat := by
  have hindex := (crc.isByte_leaving hr).xor (isByte_toUInt32 byte)
  have hlt := hindex.toNat_lt
  have hentry : crc.table.getD (crc.leaving r ^^^ byte.toUInt32).toNat 0 =
      crc.tableEntry (crc.leaving r ^^^ byte.toUInt32).toNat := by
    rw [Buffer.getD_of_lt (by simpa [table] using hlt)]
    simp [table]
  show crc.kept ((r <<< 8) ^^^
    crc.table.getD ((crc.leaving r ^^^ byte.toUInt32) &&& 0xFF).toNat 0) = _
  rw [hindex.and_eq, hentry, kept_xor, crc.kept_of_fits (crc.fits_tableEntry _)]

/-- A byte enters the register: the register moves up by eight places, and the
byte is added at the order. This is what eight single steps do. -/
theorem congruent_byteStep {r : UInt32} (hr : crc.Fits r) (byte : UInt8) :
    crc.Congruent (wordPolynomial (crc.byteStep crc.table r byte))
      (wordPolynomial r * X ^ 8 + wordPolynomial byte.toUInt32 * X ^ crc.order) := by
  have hindex := (crc.isByte_leaving hr).xor (isByte_toUInt32 byte)
  have hsum : wordPolynomial r * X ^ 8 + wordPolynomial byte.toUInt32 * X ^ crc.order =
      wordPolynomial (crc.leaving r ^^^ byte.toUInt32) * X ^ crc.order +
        wordPolynomial (crc.kept (r <<< 8)) := by
    rw [wordPolynomial_mul_X_pow, wordPolynomial_xor]
    ring
  rw [crc.byteStep_eq hr, wordPolynomial_xor, hsum, add_comm]
  exact (crc.congruent_tableEntry hindex).add_right _

/-! ## Whole sequences -/

/-- A byte with its highest place empty takes a further bit at the lowest, and
no bit is lost. -/
theorem wordPolynomial_append_bit {byte : UInt8} (h : byte.toBitVec.getLsbD 7 = false) (b : UInt8) :
    wordPolynomial ((byte <<< 1) ||| (b &&& 1)).toUInt32 =
      wordPolynomial byte.toUInt32 * X + C (coefficient b) := by
  have hshift : (byte <<< 1).toBitVec = byte.toBitVec <<< 1 := rfl
  have hone : (1 : UInt8).toBitVec = 1#8 := rfl
  ext i
  rw [coeff_add, coeff_C, coeff_wordPolynomial, place_toUInt32, UInt8.toBitVec_or,
    UInt8.toBitVec_and, BitVec.getLsbD_or, BitVec.getLsbD_and, hshift, hone,
    BitVec.getLsbD_shiftLeft, BitVec.getLsbD_one]
  cases i with
  | zero => simp [Bits.coefficient_eq_getLsbD]
  | succ i =>
    rw [coeff_mul_X, coeff_wordPolynomial, place_toUInt32]
    by_cases hlt : i + 1 < 8
    · simp [hlt]
    · -- what would leave the byte is empty
      have hnone : byte.toBitVec.getLsbD i = false := by
        rcases Nat.lt_or_eq_of_le (by omega : 7 ≤ i) with h7 | rfl
        · exact BitVec.getLsbD_of_ge _ _ h7
        · exact h
      simp [hlt, hnone]

/-- The byte that is made of the bits from `start` on, when `k` of them have
been taken. -/
def byteUpTo (bits : Bits) (start k : ℕ) : UInt8 :=
  (List.range k).foldl (fun byte j => (byte <<< 1) ||| (bits.getD (start + j) 0 &&& 1)) 0

theorem byteUpTo_succ (bits : Bits) (start k : ℕ) :
    byteUpTo bits start (k + 1) =
      (byteUpTo bits start k <<< 1) ||| (bits.getD (start + k) 0 &&& 1) := by
  simp [byteUpTo, List.range_succ]

/-- Only as many places are taken as there are bits. -/
theorem getLsbD_byteUpTo (bits : Bits) (start k : ℕ) {i : ℕ} (h : k ≤ i) :
    (byteUpTo bits start k).toBitVec.getLsbD i = false := by
  induction k generalizing i with
  | zero => simp [byteUpTo]
  | succ k ih =>
    have hshift : (byteUpTo bits start k <<< 1).toBitVec =
        (byteUpTo bits start k).toBitVec <<< 1 := rfl
    have hone : (1 : UInt8).toBitVec = 1#8 := rfl
    rw [byteUpTo_succ, UInt8.toBitVec_or, UInt8.toBitVec_and, BitVec.getLsbD_or,
      BitVec.getLsbD_and, hshift, hone, BitVec.getLsbD_shiftLeft, BitVec.getLsbD_one,
      ih (by omega), decide_eq_false (by omega : ¬ i = 0)]
    simp

/-- Bits and the byte that they make have the same polynomial. The induction is
on the number of bits that have been taken. -/
theorem wordPolynomial_byteUpTo (bits : Bits) {start k : ℕ} (hk : k ≤ 8)
    (h : start + k ≤ bits.size) :
    wordPolynomial (byteUpTo bits start k).toUInt32 =
      Bits.polynomial (bits.extract start (start + k)) := by
  induction k with
  | zero =>
    rw [Nat.add_zero, Array.extract_empty_of_stop_le_start le_rfl]
    exact wordPolynomial_zero
  | succ k ih =>
    have hlt : start + k < bits.size := by omega
    have hpush : bits.extract start (start + (k + 1)) =
        (bits.extract start (start + k)).push bits[start + k] := by
      rw [Array.push_extract_getElem hlt, Nat.min_eq_left (Nat.le_add_right _ _)]
      rfl
    rw [byteUpTo_succ, wordPolynomial_append_bit (getLsbD_byteUpTo bits start k (by omega)),
      ih (by omega) hlt.le, hpush, Bits.polynomial_push, Buffer.getD_of_lt hlt]

theorem wordPolynomial_byteAt (bits : Bits) (i : ℕ) (h : 8 * i + 8 ≤ bits.size) :
    wordPolynomial (bits.byteAt i).toUInt32 =
      Bits.polynomial (bits.extract (8 * i) (8 * i + 8)) :=
  wordPolynomial_byteUpTo bits le_rfl h

/-- A byte enters as its eight bits do, because both registers fit and are
congruent. -/
theorem byteStep_byteAt {r : UInt32} (hr : crc.Fits r) (bits : Bits) (i : ℕ)
    (h : 8 * i + 8 ≤ bits.size) :
    crc.byteStep crc.table r (bits.byteAt i) =
      (bits.extract (8 * i) (8 * i + 8)).toList.foldl crc.step r := by
  have hsize : (bits.extract (8 * i) (8 * i + 8)).toList.length = 8 := by
    rw [Array.length_toList, Array.size_extract]
    omega
  have hbits := crc.congruent_foldl hr (bits.extract (8 * i) (8 * i + 8)).toList
  rw [hsize, Array.toArray_toList] at hbits
  have hbyte := crc.congruent_byteStep hr (bits.byteAt i)
  rw [wordPolynomial_byteAt bits i h] at hbyte
  exact crc.eq_of_congruent (crc.fits_byteStep _ _ _) (crc.fits_foldl hr _) hbyte hbits

/-- The full bytes that have entered are the bits up to where they end. -/
theorem foldl_byteStep (bits : Bits) {n : ℕ} (h : 8 * n ≤ bits.size) :
    (List.range n).foldl (fun r i => crc.byteStep crc.table r (bits.byteAt i)) 0 =
      (bits.extract 0 (8 * n)).toList.foldl crc.step 0 := by
  induction n with
  | zero => simp
  | succ n ih =>
    have hsplit : bits.extract 0 (8 * (n + 1)) =
        bits.extract 0 (8 * n) ++ bits.extract (8 * n) (8 * n + 8) := by
      rw [Array.extract_append_extract, Nat.min_eq_left (Nat.zero_le _),
        Nat.max_eq_right (by omega), Nat.mul_succ]
    rw [List.range_succ, List.foldl_append, ih (by omega), List.foldl_cons, List.foldl_nil,
      crc.byteStep_byteAt (crc.fits_foldl crc.fits_zero _) bits n (by omega), hsplit,
      Array.toList_append, List.foldl_append]

/-- The check of a bit sequence is the register after all its bits: the full
bytes by the table, and what remains bit by bit. -/
theorem ofBits_eq_foldl (bits : Bits) : crc.ofBits bits = bits.toList.foldl crc.step 0 := by
  have hfull : 8 * (bits.size / 8) ≤ bits.size := Nat.mul_div_le _ _
  have hsplit : bits.extract 0 (8 * (bits.size / 8)) ++
      bits.extract (8 * (bits.size / 8)) bits.size = bits := by
    rw [Array.extract_append_extract, Nat.min_eq_left (Nat.zero_le _), Nat.max_eq_right hfull,
      Array.extract_size]
  show crc.kept ((bits.extract _ _).foldl crc.step _) = _
  rw [crc.foldl_byteStep bits hfull, ← Array.foldl_toList, ← List.foldl_append,
    ← Array.toList_append, hsplit, crc.kept_of_fits (crc.fits_foldl crc.fits_zero _)]

/-- The check of bytes is the check of their bits, which leave no remainder. -/
theorem ofBits_unpack (bytes : Bytes) : crc.ofBits (Bits.unpack bytes) = crc.ofBytes bytes := by
  have hfull : (Bits.unpack bytes).size / 8 = bytes.size := by
    rw [Bits.size_unpack]
    omega
  have hrest : (Bits.unpack bytes).extract (8 * bytes.size) (8 * bytes.size) = #[] := by simp
  have hlist : bytes.toList =
      (List.range bytes.size).map fun i => (Bits.unpack bytes).byteAt i := by
    refine List.ext_getElem (by simp) fun i h₁ h₂ => ?_
    rw [Array.length_toList] at h₁
    simp [Bits.byteAt_unpack h₁]
  have hfits := crc.fits_foldl crc.fits_zero
    ((Bits.unpack bytes).extract 0 (8 * bytes.size)).toList
  rw [← crc.foldl_byteStep _ (by rw [Bits.size_unpack])] at hfits
  show crc.kept (((Bits.unpack bytes).extract _ _).foldl crc.step _) = _
  rw [hfull, Bits.size_unpack, hrest, Array.foldl_empty, crc.kept_of_fits hfits, ofBytes,
    ← Array.foldl_toList, hlist, List.foldl_map]

end Crc

end Uplink
