import Uplink.Codeblock
import Uplink.Proofs.Segmentation

/-!
# Codeblocks of a codeword

- `CodewordFormat.share`, `CodewordFormat.start`: how many bits of the codeword a codeblock has, and
  where they begin.
- `CodewordFormat.start_blocks`: the codeblocks cover the codeword, without gaps or overlaps.
- `CodewordFormat.receive_eq_ok`: the codeblocks of a codeword in closed form;
  `CodewordFormat.exists_receive`: a codeword of whole groups has them.
-/

namespace Uplink

open Ldpc

namespace CodewordFormat

variable (format : CodewordFormat)

/-! ## Spans -/

/-- Bits of one symbol on every layer. -/
def group : Nat := format.layers * format.modulation.order

/-- Bits of codeblock `i` among `blocks`. -/
def share (blocks i : Nat) : Nat :=
  let groups := format.length / format.group
  if i < blocks - groups % blocks then format.group * (groups / blocks)
  else format.group * ((groups + blocks - 1) / blocks)

/-- First bit of codeblock `i` among `blocks`. -/
def start (blocks : Nat) : Nat → Nat
  | 0 => 0
  | i + 1 => start blocks i + format.share blocks i

/-- The bits of a codeblock are found for codewords of whole groups, and only
for them; nothing else can fail once the groups themselves are counted. -/
theorem matchedLength_eq_ok {blocks i n : Nat} :
    format.matchedLength blocks i = .ok n ↔
      format.group < Size.limit ∧ format.group ≠ 0 ∧ format.length % format.group = 0 ∧
        n = format.share blocks i := by
  unfold matchedLength share
  simp only [bind_eq_ok, require_eq_ok, Size.mul_eq_ok, Size.mod_eq_ok]
  constructor
  · rintro ⟨_, ⟨hlimit, rfl⟩, _, ⟨hne, rfl⟩, -, hrest, h⟩
    refine ⟨hlimit, hne, by simpa [group] using hrest, ?_⟩
    rw [group]
    split at h
    · rename_i hshort
      rw [if_pos hshort]
      exact (Except.ok.inj h).symm
    · rename_i hlong
      rw [if_neg hlong]
      exact (Except.ok.inj h).symm
  · -- conversely every check on the way passes
    rintro ⟨hlimit, hne, hrest, rfl⟩
    refine ⟨_, ⟨hlimit, rfl⟩, _, ⟨hne, rfl⟩, (), ?_, ?_⟩
    · rw [group] at hrest
      simp [hrest]
    · rw [group]
      split <;> rfl

/-- A codeblock has whole symbols, on every layer. -/
theorem share_mod_order (blocks i : Nat) :
    format.share blocks i % format.modulation.order = 0 := by
  apply Nat.mod_eq_zero_of_dvd
  have hgroup : format.modulation.order ∣ format.group := Nat.dvd_mul_left _ _
  unfold share
  dsimp only
  split <;> exact Nat.dvd_mul_right_of_dvd hgroup _

/-- A codeblock begins after the groups of those before it: each has the even
share, and the last ones have one more. -/
theorem start_eq {blocks i : Nat} (hblocks : 0 < blocks) (hi : i ≤ blocks) :
    format.start blocks i = format.group *
      (i * (format.length / format.group / blocks) +
        (i - (blocks - format.length / format.group % blocks))) := by
  generalize hgroups : format.length / format.group = groups
  have hmod := Nat.mod_lt groups hblocks
  induction i with
  | zero => simp [start]
  | succ i ih =>
    rw [start, ih (by omega), share, hgroups, Nat.add_one_mul]
    split
    · rw [← Nat.mul_add]
      congr 1
      omega
    · -- past the even ones the groups do not divide evenly, and the share is rounded up
      have hceil : (groups + blocks - 1) / blocks = groups / blocks + 1 := by
        have hdiv := Nat.div_add_mod groups blocks
        rw [show groups + blocks - 1 = groups % blocks - 1 + blocks * (groups / blocks + 1) by
          rw [Nat.mul_add]
          omega, Nat.add_mul_div_left _ _ hblocks, Nat.div_eq_of_lt (by omega), Nat.zero_add]
      rw [hceil, ← Nat.mul_add]
      congr 1
      omega

/-- The codeblocks end where the codeword ends, so the spans of the codeblocks
leave no bits over. -/
theorem start_blocks {blocks : Nat} (hblocks : 0 < blocks)
    (hrest : format.length % format.group = 0) : format.start blocks blocks = format.length := by
  have hmod := Nat.mod_lt (format.length / format.group) hblocks
  rw [start_eq format hblocks (Nat.le_refl _),
    show blocks - (blocks - format.length / format.group % blocks) =
      format.length / format.group % blocks by omega, Nat.div_add_mod,
    Nat.mul_div_cancel' (Nat.dvd_of_mod_eq_zero hrest)]

/-- Later codeblocks do not begin earlier. -/
theorem start_mono {blocks i j : Nat} (h : i ≤ j) :
    format.start blocks i ≤ format.start blocks j := by
  induction h with
  | refl => exact Nat.le_refl _
  | step _ ih => exact Nat.le_trans ih (Nat.le_add_right _ _)

/-! ## All codeblocks -/

/-- Codeblock `i` of a segmentation, with a circular buffer of `ring` positions.
-/
def codeblockAt (s : Segmentation) (ring i : Nat) : Codeblock :=
  { base := s.base, liftingSize := s.liftingSize, rv := format.rv, modulation := format.modulation,
    bufferLength := ring, sentLength := s.base.sentLength s.liftingSize, fillers := s.fillers,
    checkLength := if 1 < s.blocks then s.blockCheckLength else s.tbCheckLength,
    matchedLength := format.share s.blocks i, offset := format.start s.blocks i }

/-- The codeblocks of a segmentation in closed form: all have one buffer length,
and each has its own span. -/
theorem codeblocks_eq_ok {s : Segmentation} {blocks : Array Codeblock}
    (h : format.codeblocks s = .ok blocks) :
    ∃ ring, format.bufferLength s = .ok ring ∧
      blocks = (Array.range s.blocks).map (format.codeblockAt s ring) ∧
      (0 < s.blocks → format.length % format.group = 0) := by
  unfold codeblocks at h
  simp only [bind_eq_ok] at h
  obtain ⟨ring, hring, ⟨done, offset⟩, hloop, h⟩ := h
  obtain rfl : done = blocks := Except.ok.inj h
  refine ⟨ring, hring, ?_⟩
  have hloop := foldlM_invariant
    -- the second component is where the next codeblock begins
    (fun seen (state : Array Codeblock × Nat) =>
      state.1 = (seen.map (format.codeblockAt s ring)).toArray ∧
        state.2 = format.start s.blocks seen.length ∧
        (seen ≠ [] → format.length % format.group = 0)) hloop
    ⟨rfl, rfl, fun h => absurd rfl h⟩ ?_
  · obtain ⟨hdone, -, hrest⟩ := hloop
    refine ⟨?_, fun hpos => hrest ?_⟩
    · rw [show done = _ from hdone, ← Array.toList_inj, Array.toList_map, Array.toList_range]
    · simpa using Nat.ne_of_gt hpos
  · rintro seen i rest ⟨done, offset⟩ state hsplit ⟨rfl, rfl, -⟩ hstep
    obtain ⟨rfl, hi⟩ := range_split hsplit
    simp only [bind_eq_ok, matchedLength_eq_ok] at hstep
    obtain ⟨_, ⟨-, -, hrest, rfl⟩, hstate⟩ := hstep
    obtain rfl := Except.ok.inj hstate
    refine ⟨?_, ?_, fun _ => hrest⟩
    · simp [codeblockAt]
    · simp [start]

/-- The codeblocks of a received codeword, with everything that was found or
checked on the way to them. -/
theorem receive_eq_ok {n tbs : Nat} {blocks : Array Codeblock}
    (h : format.receive n tbs = .ok blocks) :
    ∃ s ring, n = format.length ∧ s.Sound format.base tbs ∧
      Segmentation.ofSize format.base tbs = .ok s ∧ format.codeblocks s = .ok blocks ∧
      format.bufferLength s = .ok ring ∧
      blocks = (Array.range s.blocks).map (format.codeblockAt s ring) ∧
      format.length % format.group = 0 := by
  unfold receive at h
  simp only [bind_eq_ok, require_eq_ok] at h
  obtain ⟨-, hlength, s, hs, h⟩ := h
  have hsound := Segmentation.ofSize_eq_ok hs
  obtain ⟨ring, hring, hblocks, hrest⟩ := format.codeblocks_eq_ok h
  exact ⟨s, ring, by simpa using hlength, hsound, hs, h, hring, hblocks, hrest hsound.blocks_pos⟩

/-- The groups of a codeword that is received are counted by the machine, as at
least one codeblock was given its bits. -/
theorem group_lt_of_receive {n tbs : Nat} {blocks : Array Codeblock}
    (h : format.receive n tbs = .ok blocks) : format.group < Size.limit := by
  obtain ⟨s, ring, -, hsound, -, hcodeblocks, -, -, -⟩ := format.receive_eq_ok h
  unfold codeblocks at hcodeblocks
  simp only [bind_eq_ok] at hcodeblocks
  obtain ⟨_, -, _, hloop, -⟩ := hcodeblocks
  -- the group is computed for each codeblock, and there is one
  have hgroup := foldlM_invariant (fun seen _ => seen ≠ [] → format.group < Size.limit) hloop
    (fun h => absurd rfl h) ?_
  · refine hgroup ?_
    simpa using Nat.ne_of_gt hsound.blocks_pos
  · rintro seen i rest _ _ - - hstep -
    simp only [bind_eq_ok, matchedLength_eq_ok] at hstep
    obtain ⟨_, ⟨hlimit, -⟩, -⟩ := hstep
    exact hlimit

/-- A codeword of whole groups has codeblocks for every transport block whose
sizes the machine counts. -/
theorem exists_receive {tbs : Nat} (hpos : 0 < tbs) (htbs : 2 * tbs < Size.limit)
    (hne : format.group ≠ 0) (hgroup : format.group < Size.limit)
    (hrest : format.length % format.group = 0) (hbuffer : 3 * format.bufferLimit < Size.limit) :
    ∃ blocks, format.receive format.length tbs = .ok blocks := by
  obtain ⟨s, hs⟩ := Segmentation.exists_ofSize format.base hpos htbs
  obtain ⟨ring, hring⟩ : ∃ ring, format.bufferLength s = .ok ring := by
    unfold bufferLength
    dsimp only
    by_cases hfull : format.bufferLimit = 0
    · exact ⟨_, if_pos hfull⟩
    · rw [if_neg hfull, Size.mul_of_lt hbuffer, ok_bind]
      exact ⟨_, rfl⟩
  -- the shares do not depend on what is done, so every step succeeds
  obtain ⟨state, hloop, -⟩ := foldlM_total
    (f := fun (state : Array Codeblock × Nat) block => do
      let matchedLength ← format.matchedLength s.blocks block
      let codeblock : Codeblock :=
        { base := s.base, liftingSize := s.liftingSize, rv := format.rv,
          modulation := format.modulation, bufferLength := ring,
          sentLength := s.base.sentLength s.liftingSize, fillers := s.fillers,
          checkLength := if 1 < s.blocks then s.blockCheckLength else s.tbCheckLength,
          matchedLength, offset := state.2 }
      return (state.1.push codeblock, state.2 + matchedLength))
    (l := List.range s.blocks) (b := ((#[] : Array Codeblock), 0)) (fun _ _ => True) trivial
    fun _ i _ state _ _ => by
      rw [(format.matchedLength_eq_ok (i := i)).mpr ⟨hgroup, hne, hrest, rfl⟩, ok_bind]
      exact ⟨_, rfl, trivial⟩
  refine ⟨state.1, ?_⟩
  rw [receive, require_of (beq_self_eq_true _), ok_bind, hs, ok_bind, codeblocks, hring, ok_bind]
  dsimp only
  rw [hloop]
  rfl

variable {s : Segmentation} {tbs ring i : Nat}

/-- One codeblock ends where the next one begins. -/
theorem stop_codeblockAt : (format.codeblockAt s ring i).stop = format.start s.blocks (i + 1) := rfl

/-- The spans of the codeblocks lie within the codeword, because the last of
them ends with it. -/
theorem stop_le (h : s.Sound format.base tbs) (hrest : format.length % format.group = 0)
    (hi : i < s.blocks) : (format.codeblockAt s ring i).stop ≤ format.length := by
  rw [stop_codeblockAt, ← format.start_blocks h.blocks_pos hrest]
  exact format.start_mono hi

end CodewordFormat

end Uplink
