import Uplink.Segmentation
import Uplink.Proofs.Checked
import Uplink.Proofs.Ldpc.Graph
import Mathlib.Algebra.Order.Floor.Div

/-!
# What segmentation guarantees

- `Segmentation.Computed`: how the sizes of a segmentation are found, one from the other.
- `Segmentation.Sound`: the relations between them; `ofSize_eq_ok`: they hold of every segmentation
  that is found.
- `exists_ofSize`: every transport block is cut.
- `Segmentation.checkedSize_le`: the codeblocks hold the transport block with its check.
- `Segmentation.two_mul_chooseLiftingSize_lt`: a codeblock is longer than the columns not sent.
-/

namespace Uplink

open Ldpc

namespace Segmentation

/-! ## Lifting sizes -/

/-- The chosen size is one of the table, also when none is large enough and the
last one is taken. -/
theorem chooseLiftingSize_mem (columns length : Nat) :
    chooseLiftingSize columns length ∈ liftingSizes := by
  unfold chooseLiftingSize
  cases h : liftingSizes.find? fun z => decide (length ≤ columns * z) with
  | none => decide
  | some z => exact List.mem_of_find?_eq_some h

/-- Codeblocks of one sent length have one message length, whatever their base
graphs, so that the receiver can tell the message length from the sent one. -/
theorem messageLength_eq_of_sentLength_eq {base base' : BaseGraph} {z z' : Nat}
    (hz : z ∈ liftingSizes) (hz' : z' ∈ liftingSizes)
    (h : base.sentLength z = base'.sentLength z') :
    base.messageLength z = base'.messageLength z' := by
  -- the sent lengths of different graphs are multiples of 66 and of 50
  have hodd : ∀ z ∈ liftingSizes, z % 25 ≠ 0 := by decide
  have hsize := hodd z hz
  have hsize' := hodd z' hz'
  have hone : ∀ z, BaseGraph.one.sentLength z = 66 * z := fun _ => rfl
  have htwo : ∀ z, BaseGraph.two.sentLength z = 50 * z := fun _ => rfl
  cases base with
  | one =>
    cases base' with
    | one =>
      rw [hone, hone] at h
      rw [show z = z' by omega]
    | two =>
      rw [hone, htwo] at h
      omega
  | two =>
    cases base' with
    | one =>
      rw [hone, htwo] at h
      omega
    | two =>
      rw [htwo, htwo] at h
      rw [show z = z' by omega]

/-- A size found after one that was too small is not much too large, if no size
is more than twice the one before. The induction follows the search along the
table. -/
theorem two_mul_lt_of_find {columns length : Nat} (hcolumns : 4 ≤ columns) :
    ∀ {sizes : List Nat} {previous z : Nat},
      List.IsChain (fun a b => b ≤ 2 * a) (previous :: sizes) → columns * previous < length →
      sizes.find? (fun z => decide (length ≤ columns * z)) = some z → 2 * z < length
  | [], _, _, _, _, h => by cases h
  | size :: sizes, previous, z, hchain, hsmall, h => by
    obtain ⟨hstep, hchain⟩ := List.isChain_cons_cons.mp hchain
    rw [List.find?_cons] at h
    have hfour := Nat.mul_le_mul_right previous hcolumns
    split at h
    · obtain rfl : size = z := Option.some.inj h
      omega
    · rename_i hfit
      exact two_mul_lt_of_find hcolumns hchain (by simpa using hfit) h

/-- The chosen size is below half of the length. A codeblock is therefore longer
than the two columns that are not sent. -/
theorem two_mul_chooseLiftingSize_lt {columns length : Nat} (hcolumns : 4 ≤ columns)
    (hlength : 5 ≤ length) : 2 * chooseLiftingSize columns length < length := by
  unfold chooseLiftingSize
  cases h : liftingSizes.find? fun z => decide (length ≤ columns * z) with
  | none =>
    -- no size was enough, not even the largest one
    have h384 := List.find?_eq_none.mp h 384 (by decide)
    have hfour := Nat.mul_le_mul_right 384 hcolumns
    simp only [decide_eq_true_iff] at h384
    show 2 * 384 < length
    omega
  | some z =>
    have hsizes : liftingSizes = 2 :: liftingSizes.tail := rfl
    show 2 * z < length
    rw [hsizes, List.find?_cons] at h
    split at h
    · obtain rfl : 2 = z := Option.some.inj h
      omega
    · rename_i htwo
      have hchain : List.IsChain (fun a b => b ≤ 2 * a) (2 :: liftingSizes.tail) := by decide
      exact two_mul_lt_of_find hcolumns hchain (by simpa using htwo) h

theorem usedColumns_ge (base : BaseGraph) (total : Nat) : 4 ≤ usedColumns base total := by
  cases base with
  | one => exact (by decide : 4 ≤ 22)
  | two =>
    simp only [usedColumns]
    split
    · omega
    · split
      · omega
      · split <;> omega

/-! ## Segmentations -/

/-- How the sizes of the segmentation of `tbs` bits are related. -/
structure Sound (base : BaseGraph) (tbs : Nat) (s : Segmentation) : Prop where
  base_eq : s.base = base
  tbs_pos : 0 < tbs
  tbCheckLength_eq : s.tbCheckLength = (tbCrc tbs).order
  blocks_pos : 0 < s.blocks
  blockCheckLength_eq : s.blockCheckLength = if 1 < s.blocks then longCheckLength else 0
  /-- Only a transport block with a long check is cut. -/
  long : 1 < s.blocks → maxShortCheckedSize < tbs
  single : s.blocks = 1 → s.blockLength = s.checkedSize tbs
  covers : s.checkedSize tbs + s.blocks * s.blockCheckLength ≤ s.blocks * s.blockLength
  liftingSize_mem : s.liftingSize ∈ liftingSizes
  messageLength_eq : s.messageLength = base.messageLength s.liftingSize
  fits : s.blockLength ≤ s.messageLength
  fillers_eq : s.fillers = s.messageLength - s.blockLength
  /-- A codeblock is longer than the columns that are not sent. -/
  punctured_le : puncturedColumns * s.liftingSize ≤ s.blockLength

/-- The length of the check is that of the polynomial that is chosen for it. -/
theorem tbCheckLength_cases (tbs : Nat) :
    (if maxShortCheckedSize < tbs then longCheckLength else shortCheckLength) =
      (tbCrc tbs).order := by
  unfold tbCrc
  split <;> rfl

/-- How the values of the segmentation of `tbs` bits are found, one from the
other. -/
structure Computed (base : BaseGraph) (tbs : Nat) (s : Segmentation) : Prop where
  base_eq : s.base = base
  tbs_pos : 0 < tbs
  tbCheckLength_eq : s.tbCheckLength = (tbCrc tbs).order
  counted : countBlocks base (s.checkedSize tbs) = .ok (s.blocks, s.blockCheckLength)
  blockLength_eq : s.blockLength =
    (s.checkedSize tbs + s.blocks * s.blockCheckLength + s.blocks - 1) / s.blocks
  liftingSize_eq : s.liftingSize =
    chooseLiftingSize (usedColumns base (s.checkedSize tbs)) s.blockLength
  messageLength_eq : s.messageLength = base.messageLength s.liftingSize
  fits : s.blockLength ≤ s.messageLength
  fillers_eq : s.fillers = s.messageLength - s.blockLength

/-- A segmentation that is found meets all the equations it is found from. -/
theorem computed_of_ofSize {base : BaseGraph} {tbs : Nat} {s : Segmentation}
    (h : ofSize base tbs = .ok s) : s.Computed base tbs := by
  unfold ofSize at h
  simp only [bind_eq_ok, require_eq_ok, Size.add_eq_ok, Size.mul_eq_ok] at h
  obtain ⟨⟨⟩, hpos, _, ⟨-, rfl⟩, ⟨blocks, checkLength⟩, hcount, _, ⟨-, rfl⟩, _, ⟨-, rfl⟩, _,
    ⟨-, rfl⟩, ⟨⟩, hfits, h⟩ := h
  obtain rfl := Except.ok.inj h
  exact { base_eq := rfl, tbs_pos := by simpa using hpos,
          tbCheckLength_eq := tbCheckLength_cases tbs, counted := hcount, blockLength_eq := rfl,
          liftingSize_eq := rfl, messageLength_eq := rfl, fits := by simpa using hfits,
          fillers_eq := rfl }

/-- Few bits make one codeblock; of more bits each codeblock takes the longest
message but for its check. -/
theorem countBlocks_cases {base : BaseGraph} {total blocks checkLength : Nat}
    (h : countBlocks base total = .ok (blocks, checkLength)) :
    (total ≤ base.maxMessageLength ∧ blocks = 1 ∧ checkLength = 0) ∨
      (base.maxMessageLength < total ∧ total + base.maxMessageLength < Size.limit ∧
        blocks = (total + (base.maxMessageLength - longCheckLength) - 1) /
          (base.maxMessageLength - longCheckLength) ∧
        checkLength = longCheckLength) := by
  unfold countBlocks at h
  split at h
  · rename_i hsmall
    obtain ⟨rfl, rfl⟩ := Prod.mk.inj (Except.ok.inj h)
    exact .inl ⟨hsmall, rfl, rfl⟩
  · rename_i hlarge
    obtain ⟨_, hpadded, h⟩ := bind_eq_ok.mp h
    obtain ⟨hlimit, rfl⟩ := Size.add_eq_ok.mp hpadded
    obtain ⟨rfl, rfl⟩ := Prod.mk.inj (Except.ok.inj h)
    have hcheck : longCheckLength ≤ base.maxMessageLength := by cases base <;> decide
    refine .inr ⟨Nat.lt_of_not_le hlarge, hlimit, ?_, rfl⟩
    rw [Nat.add_sub_assoc hcheck]

/-- The number of codeblocks and the length of their checks: there is at least
one codeblock, and it has a check of its own only beside others. -/
theorem countBlocks_eq_ok {base : BaseGraph} {total blocks checkLength : Nat}
    (h : countBlocks base total = .ok (blocks, checkLength)) :
    0 < blocks ∧ checkLength = (if 1 < blocks then longCheckLength else 0) ∧
      (1 < blocks → base.maxMessageLength < total) := by
  obtain ⟨-, rfl, rfl⟩ | ⟨hlarge, -, rfl, rfl⟩ := countBlocks_cases h
  · exact ⟨Nat.one_pos, rfl, fun h => absurd h (by decide)⟩
  · have hmax : 0 < base.maxMessageLength - longCheckLength := by cases base <;> decide
    -- more than one codeblock fills needs at least two
    have htwo : 1 < (total + (base.maxMessageLength - longCheckLength) - 1) /
        (base.maxMessageLength - longCheckLength) := by
      refine (Nat.le_div_iff_mul_le hmax).mpr ?_
      omega
    exact ⟨by omega, (if_pos htwo).symm, fun _ => hlarge⟩

/-- A quotient rounded up is the least number that makes up for the dividend. -/
theorem ceil_le_iff {a b c : Nat} (hb : 0 < b) : (a + b - 1) / b ≤ c ↔ a ≤ b * c := by
  rw [← Nat.ceilDiv_eq_add_pred_div, ceilDiv_le_iff_le_mul hb]

namespace Computed

variable {base : BaseGraph} {tbs : Nat} {s : Segmentation}

theorem blocks_pos (h : s.Computed base tbs) : 0 < s.blocks := (countBlocks_eq_ok h.counted).1

/-- The codeblocks have room for the transport block with its check and for
their own checks. -/
theorem covers (h : s.Computed base tbs) :
    s.checkedSize tbs + s.blocks * s.blockCheckLength ≤ s.blocks * s.blockLength :=
  (ceil_le_iff h.blocks_pos).mp (Nat.le_of_eq h.blockLength_eq.symm)

/-- A codeblock that is alone holds the checked transport block and nothing
else. -/
theorem single (h : s.Computed base tbs) (hone : s.blocks = 1) :
    s.blockLength = s.checkedSize tbs := by
  rw [h.blockLength_eq, (countBlocks_eq_ok h.counted).2.1, hone]
  simp

/-- What is cut is longer than the longest message, and so has the long check.
-/
theorem long (h : s.Computed base tbs) (hcut : base.maxMessageLength < s.checkedSize tbs) :
    maxShortCheckedSize < tbs := by
  have hmax : 3840 ≤ base.maxMessageLength := by cases base <;> decide
  by_contra hshort
  rw [checkedSize, h.tbCheckLength_eq, tbCrc, if_neg hshort] at hcut
  simp only [maxShortCheckedSize, Crc.order] at hshort hcut
  omega

/-- A codeblock is longer than the columns that are not sent, so that some of
its data are. -/
theorem punctured_lt (h : s.Computed base tbs) :
    puncturedColumns * s.liftingSize < s.blockLength := by
  have hcovers := h.covers
  -- a block alone holds the whole transport block; several hold at least their checks
  have hfive : 5 ≤ s.blockLength := by
    by_cases hone : 1 < s.blocks
    · have hcheck := (countBlocks_eq_ok h.counted).2.1
      rw [if_pos hone] at hcheck
      have hle : s.blocks * s.blockCheckLength ≤ s.blocks * s.blockLength := by omega
      have hlong := Nat.le_of_mul_le_mul_left hle h.blocks_pos
      rw [hcheck, longCheckLength] at hlong
      omega
    · have hpos := h.blocks_pos
      have horder : 8 ≤ (tbCrc tbs).order := by cases tbCrc tbs <;> decide
      rw [h.single (by omega), checkedSize, h.tbCheckLength_eq]
      omega
  rw [h.liftingSize_eq]
  exact two_mul_chooseLiftingSize_lt (usedColumns_ge base _) hfive

end Computed

/-- Every segmentation that is found is sound, which is all that most of what
follows asks of it. -/
theorem ofSize_eq_ok {base : BaseGraph} {tbs : Nat} {s : Segmentation}
    (h : ofSize base tbs = .ok s) : s.Sound base tbs := by
  have hs := computed_of_ofSize h
  obtain ⟨hblocks, hcheck, hcut⟩ := countBlocks_eq_ok hs.counted
  exact { base_eq := hs.base_eq, tbs_pos := hs.tbs_pos, tbCheckLength_eq := hs.tbCheckLength_eq,
          blocks_pos := hblocks, blockCheckLength_eq := hcheck,
          long := fun hcutting => hs.long (hcut hcutting), single := hs.single,
          covers := hs.covers, liftingSize_mem := hs.liftingSize_eq ▸ chooseLiftingSize_mem _ _,
          messageLength_eq := hs.messageLength_eq, fits := hs.fits, fillers_eq := hs.fillers_eq,
          punctured_le := Nat.le_of_lt hs.punctured_lt }

/-! ## Every transport block is cut -/

/-- The chosen size holds the length if the largest one does. -/
theorem le_mul_chooseLiftingSize {columns length : Nat} (h : length ≤ columns * 384) :
    length ≤ columns * chooseLiftingSize columns length := by
  unfold chooseLiftingSize
  cases hfind : liftingSizes.find? fun z => decide (length ≤ columns * z) with
  | none => exact h
  | some z => simpa using List.find?_some hfind

/-- The columns that are used for the data are columns of the message. -/
theorem usedColumns_mul_le (base : BaseGraph) (total z : Nat) :
    usedColumns base total * z ≤ base.messageLength z := by
  refine Nat.mul_le_mul_right z ?_
  cases base with
  | one => exact Nat.le_refl 22
  | two =>
    show _ ≤ 10
    simp only [usedColumns]
    split
    · exact Nat.le_refl 10
    · split
      · omega
      · split <;> omega

/-- The columns used for few bits hold them at the largest lifting size. -/
theorem le_usedColumns_mul {base : BaseGraph} {total : Nat} (h : total ≤ base.maxMessageLength) :
    total ≤ usedColumns base total * 384 := by
  cases base with
  | one => exact Nat.le_trans h (by decide : 8448 ≤ 22 * 384)
  | two =>
    have hmax : total ≤ 3840 := h
    simp only [usedColumns]
    split
    · omega
    · split
      · omega
      · split <;> omega

/-- All columns are used when the transport block is cut. -/
theorem usedColumns_of_lt {base : BaseGraph} {total : Nat} (h : base.maxMessageLength < total) :
    usedColumns base total * 384 = base.maxMessageLength := by
  cases base with
  | one =>
    show 22 * 384 = 8448
    rfl
  | two =>
    have hmax : 3840 < total := h
    have hcolumns : usedColumns .two total = 10 := if_pos (by omega)
    rw [hcolumns]
    rfl

/-- The codeblocks are as many as it takes to make room for their checks, which
are counted with the data. -/
theorem countBlocks_covers {base : BaseGraph} {total blocks checkLength : Nat}
    (h : countBlocks base total = .ok (blocks, checkLength)) :
    total + blocks * checkLength ≤ blocks * base.maxMessageLength := by
  obtain ⟨hsmall, rfl, rfl⟩ | ⟨-, -, rfl, rfl⟩ := countBlocks_cases h
  · omega
  · have hroom : 0 < base.maxMessageLength - longCheckLength := by cases base <;> decide
    have hcheck : longCheckLength ≤ base.maxMessageLength := by cases base <;> decide
    have hcovers := (ceil_le_iff hroom).mp
      (Nat.le_refl ((total + (base.maxMessageLength - longCheckLength) - 1) /
        (base.maxMessageLength - longCheckLength)))
    rw [Nat.mul_comm, Nat.mul_sub] at hcovers
    have := Nat.mul_le_mul_left ((total + (base.maxMessageLength - longCheckLength) - 1) /
      (base.maxMessageLength - longCheckLength)) hcheck
    omega

/-- No codeblock is longer than the longest message. -/
theorem ceil_countBlocks_le {base : BaseGraph} {total blocks checkLength : Nat}
    (h : countBlocks base total = .ok (blocks, checkLength)) :
    (total + blocks * checkLength + blocks - 1) / blocks ≤ base.maxMessageLength :=
  (ceil_le_iff (countBlocks_eq_ok h).1).mpr (countBlocks_covers h)

/-- The columns used hold a codeblock at the largest lifting size, so the search
for a size succeeds. -/
theorem ceil_countBlocks_le_columns {base : BaseGraph} {total blocks checkLength : Nat}
    (h : countBlocks base total = .ok (blocks, checkLength)) :
    (total + blocks * checkLength + blocks - 1) / blocks ≤ usedColumns base total * 384 := by
  have hle := ceil_countBlocks_le h
  obtain ⟨hsmall, rfl, rfl⟩ | ⟨hlarge, -⟩ := countBlocks_cases h
  · rw [Nat.div_one]
    exact le_usedColumns_mul hsmall
  · rwa [usedColumns_of_lt hlarge]

/-- The codeblocks can be counted, and there are few of them: no more than one
for every 2500 bits, so their checks add little. -/
theorem exists_countBlocks {base : BaseGraph} {total : Nat}
    (h : total + base.maxMessageLength < Size.limit) :
    ∃ blocks checkLength, countBlocks base total = .ok (blocks, checkLength) ∧
      100 * (blocks * 25) ≤ total + base.maxMessageLength := by
  by_cases hone : total ≤ base.maxMessageLength
  · refine ⟨1, 0, by rw [countBlocks, if_pos hone]; rfl, ?_⟩
    have hmax : 2500 ≤ base.maxMessageLength := by cases base <;> decide
    omega
  · have hmax : 3816 ≤ base.maxMessageLength - longCheckLength := by cases base <;> decide
    rw [countBlocks, if_neg hone, Size.add_of_lt h, ok_bind]
    refine ⟨_, longCheckLength, rfl, ?_⟩
    have hle := Nat.div_mul_le_self (total + base.maxMessageLength - longCheckLength - 1)
      (base.maxMessageLength - longCheckLength)
    have hmul := Nat.mul_le_mul_left ((total + base.maxMessageLength - longCheckLength - 1) /
      (base.maxMessageLength - longCheckLength)) hmax
    omega

/-- Every transport block that can be counted is cut. A factor of two leaves
room for the checks and for what rounding adds. -/
theorem exists_ofSize (base : BaseGraph) {tbs : Nat} (hpos : 0 < tbs)
    (hlimit : 2 * tbs < Size.limit) :
    ∃ s, ofSize base tbs = .ok s := by
  set checkLength := if maxShortCheckedSize < tbs then longCheckLength else shortCheckLength
    with hcheck
  have hcheckLength : checkLength ≤ 24 := by
    rw [hcheck]
    split <;> decide
  have hmax : base.maxMessageLength ≤ 8448 := by cases base <;> decide
  have hlimitEq : Size.limit = 18446744073709551616 := rfl
  obtain ⟨blocks, blockCheckLength, hcount, hfew⟩ :=
    @exists_countBlocks base (tbs + checkLength) (by omega)
  have hproduct : blocks * blockCheckLength ≤ blocks * 24 := by
    refine Nat.mul_le_mul_left blocks ?_
    rw [(countBlocks_eq_ok hcount).2.1]
    split <;> decide
  -- the length fits the chosen columns, which is what is required last
  have hfits : (tbs + checkLength + blocks * blockCheckLength + blocks - 1) / blocks ≤
      base.messageLength (chooseLiftingSize (usedColumns base (tbs + checkLength))
        ((tbs + checkLength + blocks * blockCheckLength + blocks - 1) / blocks)) :=
    Nat.le_trans (le_mul_chooseLiftingSize (ceil_countBlocks_le_columns hcount))
      (usedColumns_mul_le _ _ _)
  unfold ofSize
  dsimp only
  rw [require_of (decide_eq_true hpos), ok_bind, ← hcheck, Size.add_of_lt (by omega), ok_bind,
    hcount, ok_bind]
  dsimp only
  rw [Size.mul_of_lt (by omega), ok_bind, Size.add_of_lt (by omega), ok_bind,
    Size.add_of_lt (by omega), ok_bind, require_of (decide_eq_true hfits), ok_bind]
  exact ⟨_, rfl⟩

/-- No size of the table makes a longer message than the largest. -/
theorem messageLength_le (base : BaseGraph) {z : Nat} (hz : z ∈ liftingSizes) :
    base.messageLength z ≤ base.maxMessageLength := by
  have hmax : ∀ z ∈ liftingSizes, z ≤ 384 := by decide
  have hle := Nat.mul_le_mul_left base.systematicColumns (hmax z hz)
  cases base <;> exact hle

/-- The codeblocks are together not much longer than what they hold. The factor
is less than two, so that their bits can be counted if twice the bits of the
transport block can be. -/
theorem blocks_mul_messageLength_le {base : BaseGraph} {tbs : Nat} {s : Segmentation}
    (h : ofSize base tbs = .ok s) :
    2 * (s.blocks * s.messageLength) ≤ 3 * (tbs + longCheckLength + base.maxMessageLength) := by
  have hs := computed_of_ofSize h
  have hle : s.checkedSize tbs ≤ tbs + longCheckLength := by
    rw [checkedSize, hs.tbCheckLength_eq]
    exact Nat.add_le_add_left (by cases tbCrc tbs <;> decide) _
  have hmessage : s.blocks * s.messageLength ≤ s.blocks * base.maxMessageLength := by
    rw [hs.messageLength_eq, hs.liftingSize_eq]
    exact Nat.mul_le_mul_left _ (messageLength_le base (chooseLiftingSize_mem _ _))
  -- every message has at most the largest length, so the number of codeblocks is what counts
  refine Nat.le_trans (Nat.mul_le_mul_left 2 hmessage) ?_
  obtain ⟨-, hone, -⟩ | ⟨-, -, hblocks, -⟩ := countBlocks_cases hs.counted
  · rw [hone]
    omega
  · -- the check is less than a third of a codeblock
    have hthird : 2 * base.maxMessageLength ≤ 3 * (base.maxMessageLength - longCheckLength) := by
      cases base <;> decide
    have hdiv := Nat.div_mul_le_self
      (s.checkedSize tbs + (base.maxMessageLength - longCheckLength) - 1)
      (base.maxMessageLength - longCheckLength)
    rw [← hblocks] at hdiv
    calc 2 * (s.blocks * base.maxMessageLength)
        = s.blocks * (2 * base.maxMessageLength) := Nat.mul_left_comm _ _ _
      _ ≤ s.blocks * (3 * (base.maxMessageLength - longCheckLength)) :=
          Nat.mul_le_mul_left _ hthird
      _ = 3 * (s.blocks * (base.maxMessageLength - longCheckLength)) := Nat.mul_left_comm _ _ _
      _ ≤ 3 * (tbs + longCheckLength + base.maxMessageLength) := by omega

namespace Sound

variable {base : BaseGraph} {tbs : Nat} {s : Segmentation}

theorem blockCheckLength_le (h : s.Sound base tbs) : s.blockCheckLength ≤ s.blockLength := by
  have hcovers := h.covers
  have hle : s.blocks * s.blockCheckLength ≤ s.blocks * s.blockLength := by omega
  exact Nat.le_of_mul_le_mul_left hle h.blocks_pos

/-- The codeblocks hold the transport block with its check, beside their own
checks. -/
theorem checkedSize_le (h : s.Sound base tbs) : s.checkedSize tbs ≤ s.blocks * s.dataLength := by
  have := h.covers
  rw [dataLength, Nat.mul_sub]
  omega

/-- A transport block that is cut has the check over all codeblocks, of 24 bits.
-/
theorem checkedSize_of_cut (h : s.Sound base tbs) (hcut : 1 < s.blocks) :
    s.checkedSize tbs = tbs + longCheckLength ∧ tbCrc tbs = reassemblyCrc := by
  have hcrc : tbCrc tbs = reassemblyCrc := by
    rw [tbCrc, if_pos (h.long hcut)]
    rfl
  refine ⟨?_, hcrc⟩
  rw [checkedSize, h.tbCheckLength_eq, hcrc]
  rfl

theorem blockLength_pos (h : s.Sound base tbs) : 0 < s.blockLength :=
  Nat.lt_of_lt_of_le (Nat.mul_pos (by decide) (liftingSize_pos h.liftingSize_mem)) h.punctured_le

theorem blockLength_add_fillers (h : s.Sound base tbs) :
    s.blockLength + s.fillers = s.messageLength := by
  rw [h.fillers_eq]
  exact Nat.add_sub_cancel' h.fits

end Sound

end Segmentation

end Uplink
