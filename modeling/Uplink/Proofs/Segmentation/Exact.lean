import Uplink.Proofs.Readable
import Mathlib.Order.Bounds.Basic

/-!
# The sizes of a segmentation

Segmentation finds the fewest codeblocks that hold a transport block, makes them as short as it can,
and takes the smallest lifting size that fits them.

- `Segmentation.isLeast_chooseLiftingSize`: the size that is chosen is the smallest one that fits.
- `Segmentation.Exact`: what the sizes of a segmentation are.
- `Segmentation.overflowsOnly_ofSize`: nothing but the range of machine sizes stops a segmentation.
- `Segmentation.ofSize_exact`: every transport block is cut into sizes that are exact, and a
  receiver reads the same sizes off its codeblocks.
-/

namespace Uplink

open Ldpc

namespace Segmentation

variable {base : BaseGraph} {tbs : Nat} {s : Segmentation}

/-! ## The lifting size -/

/-- Found in an increasing list, a number is the least of those that are
accepted. -/
theorem isLeast_of_find {accepts : Nat → Bool} {sizes : List Nat} {z : Nat}
    (hsorted : sizes.Pairwise (· < ·)) (h : sizes.find? accepts = some z) :
    IsLeast {z | z ∈ sizes ∧ accepts z = true} z := by
  obtain ⟨haccepts, before, after, hsplit, hrefused⟩ := List.find?_eq_some_iff_append.mp h
  refine ⟨⟨List.mem_of_find?_eq_some h, haccepts⟩, ?_⟩
  rintro other ⟨hmem, hother⟩
  rw [hsplit] at hmem hsorted
  rcases List.mem_append.mp hmem with hbefore | hrest
  · exact absurd hother (by simpa using hrefused other hbefore)
  · rcases List.mem_cons.mp hrest with rfl | hafter
    · exact Nat.le_refl _
    · have hcons := (List.pairwise_append.mp hsorted).2.1
      exact Nat.le_of_lt ((List.pairwise_cons.mp hcons).1 other hafter)

/-- If the largest size fits, the one that is chosen is the smallest that does,
among all sizes of the table and not only those that are tried. -/
theorem isLeast_chooseLiftingSize {columns length : Nat} (h : length ≤ columns * 384) :
    IsLeast {z | z ∈ liftingSizes ∧ length ≤ columns * z} (chooseLiftingSize columns length) := by
  unfold chooseLiftingSize
  cases hfind : liftingSizes.find? fun z => decide (length ≤ columns * z) with
  | none =>
    have h384 := List.find?_eq_none.mp hfind 384 (by decide)
    exact absurd h (by simpa using h384)
  | some z => simpa using isLeast_of_find (by decide) hfind

/-! ## All sizes -/

/-- The sizes of the segmentation of `tbs` bits. -/
structure Exact (base : BaseGraph) (tbs : Nat) (s : Segmentation) : Prop where
  base_eq : s.base = base
  tbCheckLength_eq : s.tbCheckLength = if 3824 < tbs then 24 else 16
  /-- What fits one codeblock is not cut, and only that. -/
  single_iff : s.blocks = 1 ∧ s.blockCheckLength = 0 ↔
    s.checkedSize tbs ≤ base.maxMessageLength
  /-- All else is cut into the fewest codeblocks that hold it beside a check of their own. -/
  cut : base.maxMessageLength < s.checkedSize tbs →
    IsLeast {n | s.checkedSize tbs ≤ n * (base.maxMessageLength - 24)} s.blocks ∧
      s.blockCheckLength = 24 ∧ s.tbCheckLength = 24
  blockCheckLength_le : s.blockCheckLength ≤ s.blockLength
  /-- The codeblocks hold the bits, and less than one bit each is left over. -/
  covers : s.checkedSize tbs ≤ s.blocks * s.dataLength
  tight : s.blocks * s.dataLength - s.checkedSize tbs < s.blocks
  blockLength_le : s.blockLength ≤ base.maxMessageLength
  /-- The lifting size is the smallest one whose used columns hold a codeblock. -/
  liftingSize_least :
    IsLeast {z | z ∈ liftingSizes ∧
      s.blockLength ≤ usedColumns base (s.checkedSize tbs) * z} s.liftingSize
  messageLength_eq : s.messageLength = base.messageLength s.liftingSize
  blockLength_add_fillers : s.blockLength + s.fillers = s.messageLength
  /-- The fillers begin behind the columns that are not sent. -/
  punctured_lt : puncturedColumns * s.liftingSize < s.blockLength

/-- The number of codeblocks is the least one that makes room for the checks.
One fewer would leave bits without a place. -/
theorem isLeast_countBlocks {total blocks checkLength : Nat}
    (h : countBlocks base total = .ok (blocks, checkLength))
    (hcut : base.maxMessageLength < total) :
    IsLeast {n | total ≤ n * (base.maxMessageLength - 24)} blocks ∧ checkLength = 24 := by
  obtain ⟨hsmall, -⟩ | ⟨-, -, rfl, rfl⟩ := countBlocks_cases h
  · omega
  · have hroom : 0 < base.maxMessageLength - longCheckLength := by cases base <;> decide
    refine ⟨⟨?_, fun n hn => (ceil_le_iff hroom).mpr ?_⟩, rfl⟩
    · have hcovers := (ceil_le_iff hroom).mp (Nat.le_refl
        ((total + (base.maxMessageLength - longCheckLength) - 1) /
          (base.maxMessageLength - longCheckLength)))
      rwa [Nat.mul_comm] at hcovers
    · rw [Nat.mul_comm]
      exact hn

/-- What fits one codeblock is not cut, and only that. -/
theorem countBlocks_eq_one_iff {total blocks checkLength : Nat}
    (h : countBlocks base total = .ok (blocks, checkLength)) :
    blocks = 1 ∧ checkLength = 0 ↔ total ≤ base.maxMessageLength := by
  constructor
  · rintro ⟨rfl, -⟩
    by_contra hlarge
    -- a single codeblock with a check of its own holds less than one without
    have hleast := (isLeast_countBlocks h (Nat.lt_of_not_le hlarge)).1.1
    rw [Set.mem_ofPred_eq] at hleast
    omega
  · intro hsmall
    obtain ⟨-, hone, hnone⟩ | ⟨hlarge, -⟩ := countBlocks_cases h
    · exact ⟨hone, hnone⟩
    · omega

/-- One bit less in each codeblock, and they would not hold the bits with their
checks. -/
theorem Computed.tight (h : s.Computed base tbs) (hsound : s.Sound base tbs) :
    s.blocks * s.dataLength - s.checkedSize tbs < s.blocks := by
  have hpos := hsound.blockLength_pos
  have hless : ¬ s.checkedSize tbs + s.blocks * s.blockCheckLength ≤
      s.blocks * (s.blockLength - 1) := by
    rw [← ceil_le_iff hsound.blocks_pos, ← h.blockLength_eq]
    omega
  have hone := Nat.le_mul_of_pos_right s.blocks hpos
  have hblocks := hsound.blocks_pos
  rw [Nat.mul_sub, Nat.mul_one] at hless
  rw [dataLength, Nat.mul_sub]
  omega

/-- The values that are found one from the other are exact. Each field is one
lemma about the step that finds it. -/
theorem exact_of_computed (h : s.Computed base tbs) (hsound : s.Sound base tbs) :
    s.Exact base tbs where
  base_eq := h.base_eq
  tbCheckLength_eq := by
    rw [h.tbCheckLength_eq, ← tbCheckLength_cases]
    rfl
  single_iff := countBlocks_eq_one_iff h.counted
  cut hcut := by
    obtain ⟨hleast, hlong⟩ := isLeast_countBlocks h.counted hcut
    refine ⟨hleast, hlong, ?_⟩
    rw [h.tbCheckLength_eq, tbCrc, if_pos (h.long hcut)]
    rfl
  blockCheckLength_le := hsound.blockCheckLength_le
  covers := hsound.checkedSize_le
  tight := h.tight hsound
  blockLength_le := by
    rw [h.blockLength_eq]
    exact ceil_countBlocks_le h.counted
  liftingSize_least := by
    rw [h.liftingSize_eq]
    refine isLeast_chooseLiftingSize ?_
    rw [h.blockLength_eq]
    exact ceil_countBlocks_le_columns h.counted
  messageLength_eq := h.messageLength_eq
  blockLength_add_fillers := hsound.blockLength_add_fillers
  punctured_lt := h.punctured_lt

/-! ## Every transport block -/

/-- Nothing but the range of machine sizes stops a segmentation: no division by
zero, no difference below zero. -/
theorem overflowsOnly_ofSize (base : BaseGraph) (hpos : 0 < tbs) :
    OverflowsOnly (ofSize base tbs) := by
  have hcounted (total : Nat) : OverflowsOnly (countBlocks base total) := by
    unfold countBlocks
    split
    · exact .of_ok rfl
    · exact .bind (.size_ofNat _) fun _ _ => .of_ok rfl
  unfold ofSize
  refine .bind (.of_ok (require_of (decide_eq_true hpos) _)) fun _ _ => ?_
  refine .bind (.size_ofNat _) fun total _ => .bind (hcounted total) ?_
  rintro ⟨blocks, checkLength⟩ hcount
  refine .bind (.size_ofNat _) fun product hproduct => .bind (.size_ofNat _) fun checked hchecked =>
    .bind (.size_ofNat _) fun padded hpadded => ?_
  obtain ⟨-, rfl⟩ := Size.mul_eq_ok.mp hproduct
  obtain ⟨-, rfl⟩ := Size.add_eq_ok.mp hchecked
  obtain ⟨-, rfl⟩ := Size.add_eq_ok.mp hpadded
  -- a codeblock always fits the lifting size that is chosen for it
  have hfits := Nat.le_trans (le_mul_chooseLiftingSize (ceil_countBlocks_le_columns hcount))
    (usedColumns_mul_le base total _)
  exact .bind (.of_ok (require_of (decide_eq_true hfits) _)) fun _ _ => .of_ok rfl

/-- Every transport block is cut into sizes that are exact, unless so many bits
cannot be counted, and then there are at least half as many as machine sizes.
The receiver reads the message length and the data bits off the length of the
sent word, and finds data in every codeblock. -/
theorem ofSize_exact (base : BaseGraph) (hpos : 0 < tbs) :
    (ofSize base tbs = .error .arithmetic ∧ Size.limit ≤ 2 * tbs) ∨
      ∃ s, ofSize base tbs = .ok s ∧ s.Exact base tbs ∧
        ∀ (format : CodewordFormat) (codeblocks : Array Codeblock), format.base = base →
          format.codeblocks s = .ok codeblocks → ∀ c ∈ codeblocks,
            c.checkLength = (if 1 < s.blocks then s.blockCheckLength else s.tbCheckLength) ∧
              c.checkLength < s.blockLength ∧
              c.breakdown = (s.messageLength, s.blockLength - c.checkLength) := by
  cases h : ofSize base tbs with
  | error fault =>
    obtain rfl := overflowsOnly_ofSize base hpos fault h
    refine .inl ⟨rfl, Nat.le_of_not_lt fun hlimit => ?_⟩
    obtain ⟨s, hs⟩ := exists_ofSize base hpos hlimit
    exact nomatch h.symm.trans hs
  | ok s =>
    have hsound := ofSize_eq_ok h
    refine .inr ⟨s, rfl, exact_of_computed (computed_of_ofSize h) hsound, ?_⟩
    rintro format codeblocks rfl hcodeblocks c hc
    obtain ⟨ring, -, rfl, -⟩ := format.codeblocks_eq_ok hcodeblocks
    obtain ⟨i, -, rfl⟩ := Array.mem_map.mp hc
    have hcheck : (format.codeblockAt s ring i).checkLength =
        if 1 < s.blocks then s.blockCheckLength else s.tbCheckLength := rfl
    have hbreakdown := @CodewordFormat.breakdown_codeblockAt format s tbs ring i hsound
    refine ⟨hcheck, ?_⟩
    rw [hbreakdown, hcheck]
    have hpos := hsound.tbs_pos
    by_cases hcut : 1 < s.blocks
    · rw [if_pos hcut, if_pos hcut]
      refine ⟨Nat.lt_of_not_le fun hle => ?_, rfl⟩
      -- codeblocks of checks only would hold nothing
      have hcovers := hsound.checkedSize_le
      rw [dataLength, Nat.sub_eq_zero_of_le hle, Nat.mul_zero, checkedSize] at hcovers
      omega
    · have hone := hsound.single (by have := hsound.blocks_pos; omega)
      rw [checkedSize] at hone
      rw [if_neg hcut, if_neg hcut, hone, Nat.add_sub_cancel]
      exact ⟨by omega, rfl⟩

/-- Of 8000 bits the short graph makes three codeblocks. -/
theorem ofSize_exact_cut : 0 < 8000 ∧
    ∃ s, ofSize .two 8000 = .ok s ∧ s.blocks = 3 ∧ s.Exact .two 8000 := by
  have hpos : 0 < 8000 := by decide
  have hfound : ofSize .two 8000 = .ok ⟨.two, 3, 24, 24, 2699, 288, 2880, 181⟩ := by decide
  obtain ⟨hfault, -⟩ | ⟨s, hs, hexact, -⟩ := ofSize_exact .two hpos
  · exact nomatch hfault.symm.trans hfound
  · obtain rfl := Except.ok.inj (hs.symm.trans hfound)
    exact ⟨hpos, _, hfound, rfl, hexact⟩

end Segmentation

end Uplink
