import Uplink.Proofs.Harq.History

/-!
# Soft combining over a history

What a buffer holds of a soft bit depends on the soft bits that came back to its position since the
last new data, and on nothing else: neither on the flags nor on what was decoded.

- `Codeblock.routed`: the soft bits that dematching brings to a position, in the order of the walk.
- `gathered`: those of all sessions since the last new data.
- `History.getD_soft`: the buffer holds their sum, session by session.
- `CodewordFormat.existsUnique_place`: each soft bit of a codeword is brought to one position of one
  codeblock.
- `History.combining`: the sums in integers, limited to the reach of soft bits.
-/

namespace Uplink

open Ldpc

/-! ## Sums in integers -/

namespace SoftBit

/-- Values in reach are added as integers, and the sum is limited at each step.
The codes for certain bits lie beyond the limit, so no sum becomes one of them.
-/
theorem toInt_foldl {l : List SoftBit} (hl : ∀ a ∈ l, a.InReach) {start : SoftBit}
    (hstart : start.InReach) :
    (l.foldl (· + ·) start).InReach ∧
      (l.foldl (· + ·) start).value.toInt =
        (l.map fun a => a.value.toInt).foldl (fun sum v => limited (sum + v))
          start.value.toInt := by
  induction l generalizing start with
  | nil => exact ⟨hstart, rfl⟩
  | cons a l ih =>
    have ha := hl a List.mem_cons_self
    obtain ⟨hreach, hsum⟩ := ih (fun b hb => hl b (List.mem_cons_of_mem a hb)) (hstart.add ha)
    rw [toInt_add hstart ha] at hsum
    exact ⟨hreach, hsum⟩

end SoftBit

/-- Nothing added to nothing is nothing. -/
theorem SoftBit.foldl_erased {l : List SoftBit} (h : ∀ a ∈ l, a = erased) :
    l.foldl (· + ·) erased = erased := by
  induction l with
  | nil => rfl
  | cons a l ih =>
    rw [List.foldl_cons, h a List.mem_cons_self, erased_add inReach_erased]
    exact ih fun b hb => h b (List.mem_cons_of_mem a hb)

/-! ## Routes -/

/-- The soft bits that dematching brings to position `p`: the one found where
the interleaver puts the `k`-th bit goes to the `k`-th position of the walk. -/
def Codeblock.routed (c : Codeblock) (received : Array SoftBit) (p : Nat) : List SoftBit :=
  ((List.range c.matchedLength).filter fun k => c.walkOf.walk k = p).map fun k =>
    received.getD (c.interleaved k) SoftBit.erased

theorem Codeblock.arrivals_eq_routed {c : Codeblock} (h : c.walkOf.Proper)
    (received : Array SoftBit) (p : Nat) : c.arrivals received p = c.routed received p := by
  have hwalk : ∀ k, c.walkOf.position k = c.walkOf.walk k := Selection.position_eq_walk h
  simp only [arrivals, arrivalsUpTo, routed, hwalk]

namespace CodewordFormat.Readable

variable {format : CodewordFormat} {seg : Segmentation} {tbs ring i p : Nat}

/-- Every position of the walk is a sent bit that is not a filler. -/
theorem walk_spec (h : format.Readable tbs seg ring) (i k : Nat) :
    (format.codeblockAt seg ring i).walkOf.walk k < seg.base.sentLength seg.liftingSize ∧
      ¬ seg.IsFiller ((format.codeblockAt seg ring i).walkOf.walk k) := by
  rw [← Selection.position_eq_walk (h.proper i)]
  refine ⟨Nat.lt_of_lt_of_le (Selection.position_lt (h.proper i) k)
    (bufferLength_le h.buffered), fun hfiller => ?_⟩
  rw [← @isFiller_codeblockAt format seg tbs ring i h.sound, Selection.not_filler_position]
    at hfiller
  cases hfiller

end CodewordFormat.Readable

/-! ## Each soft bit once -/

namespace CodewordFormat

variable {format : CodewordFormat} {seg : Segmentation} {tbs ring : Nat}

/-- A place of the codeword lies in the span of one codeblock: the spans follow
each other without a gap. -/
theorem exists_span {blocks j : Nat} (hj : j < format.start blocks blocks) :
    ∃ i < blocks, format.start blocks i ≤ j ∧ j < format.start blocks (i + 1) := by
  -- the first span that ends behind the place
  suffices ∀ m ≤ blocks, j < format.start blocks m →
      ∃ i < m, format.start blocks i ≤ j ∧ j < format.start blocks (i + 1) by
    exact this blocks (Nat.le_refl _) hj
  intro m
  induction m with
  | zero => exact fun _ h => absurd h (Nat.not_lt_zero j)
  | succ m ih =>
    intro hm hlt
    rcases Nat.lt_or_ge j (format.start blocks m) with hbefore | hafter
    · obtain ⟨i, hi, hspan⟩ := ih (Nat.le_of_succ_le hm) hbefore
      exact ⟨i, Nat.lt_succ_of_lt hi, hspan⟩
    · exact ⟨m, Nat.lt_succ_self m, hafter, hlt⟩

/-- Spans of different codeblocks have no place in common. -/
theorem span_unique {blocks i i' j : Nat} (hi : format.start blocks i ≤ j)
    (hi' : j < format.start blocks (i + 1)) (hj : format.start blocks i' ≤ j)
    (hj' : j < format.start blocks (i' + 1)) : i = i' := by
  rcases Nat.lt_trichotomy i i' with hlt | heq | hgt
  · have hmono : format.start blocks (i + 1) ≤ format.start blocks i' := format.start_mono hlt
    omega
  · exact heq
  · have hmono : format.start blocks (i' + 1) ≤ format.start blocks i := format.start_mono hgt
    omega

/-- Each place of the codeword holds the `k`-th bit of one codeblock, for one
`k`. The spans are disjoint, and the interleaver of each is a bijection on it.
-/
theorem existsUnique_place (h : format.Readable tbs seg ring) {j : Nat} (hj : j < format.length) :
    ∃! ik : Nat × Nat, ik.1 < seg.blocks ∧ ik.2 < format.share seg.blocks ik.1 ∧
      format.start seg.blocks ik.1 + (format.codeblockAt seg ring ik.1).interleaved ik.2 = j := by
  rw [← format.start_blocks h.sound.blocks_pos h.groups] at hj
  obtain ⟨i, hi, hle, hlt⟩ := exists_span hj
  have hmatched : ∀ i, (format.codeblockAt seg ring i).matchedLength %
      (format.codeblockAt seg ring i).modulation.order = 0 := fun i => (h.soundAt i).matched
  have hlt' : j < format.start seg.blocks i + format.share seg.blocks i := hlt
  have hplace : j - format.start seg.blocks i < (format.codeblockAt seg ring i).matchedLength := by
    show _ < format.share seg.blocks i
    omega
  -- the interleaver is undone within the span
  refine ⟨(i, (format.codeblockAt seg ring i).deinterleaved (j - format.start seg.blocks i)),
    ⟨hi, Codeblock.deinterleaved_lt (hmatched i) hplace, ?_⟩, ?_⟩
  · show format.start seg.blocks i + (format.codeblockAt seg ring i).interleaved _ = j
    rw [Codeblock.interleaved_deinterleaved (hmatched i) hplace]
    omega
  · rintro ⟨i', k⟩ ⟨hi', hk, hsum⟩
    dsimp only at hi' hk hsum
    have hk' := Codeblock.interleaved_lt (hmatched i') hk
    change _ < format.share seg.blocks i' at hk'
    obtain rfl : i = i' := span_unique hle hlt (by omega) (by rw [start]; omega)
    refine Prod.ext rfl ?_
    show k = (format.codeblockAt seg ring i).deinterleaved _
    rw [← hsum, Nat.add_sub_cancel_left, Codeblock.deinterleaved_interleaved (hmatched i) hk]

end CodewordFormat

/-! ## Histories -/

namespace Session

/-- The soft bits of a session that come back to position `p` of codeblock `i`.
-/
def routed (s : Session) (seg : Segmentation) (i p : Nat) : List SoftBit :=
  (s.codeblock seg i).routed (s.span seg i) p

/-- What holds of all soft bits of a session, and of erased ones, holds of those
of a codeblock. -/
theorem getD_span {s : Session} {seg : Segmentation} {i k : Nat} {motive : SoftBit → Prop}
    (h : ∀ a ∈ s.softBits, motive a) (herased : motive SoftBit.erased) :
    motive ((s.span seg i).getD k SoftBit.erased) := by
  rw [Array.getD_eq_getD_getElem?]
  cases hget : (s.span seg i)[k]? with
  | none => exact herased
  | some a =>
    obtain ⟨j, hj, rfl⟩ := Array.mem_extract_iff_getElem.mp (Array.mem_of_getElem? hget)
    exact h _ (Array.getElem_mem _)

end Session

namespace Session.Outcome

variable {s : Session} {before combined : HarqBuffer} {seg : Segmentation} {ring i : Nat}
  {result : SchResult} {r : Reception}

/-- A session adds to what is stored, or to nothing if its data are new. Storage
of another length counts as nothing too. -/
theorem soft_eq (h : s.Outcome before seg ring combined result r) (hi : i < seg.blocks) :
    (r.buffer.block i).soft.size = seg.base.sentLength seg.liftingSize ∧
      ∀ p < seg.base.sentLength seg.liftingSize,
        (seg.IsFiller p → (r.buffer.block i).soft.getD p SoftBit.erased = SoftBit.certainZero) ∧
        (¬ seg.IsFiller p → (r.buffer.block i).soft.getD p SoftBit.erased =
          (s.routed seg i p).foldl (· + ·)
            (if s.settings.newData ∨
                (before.block i).soft.size ≠ seg.base.sentLength seg.liftingSize
              then SoftBit.erased else (before.block i).soft.getD p SoftBit.erased)) := by
  have hreadable := h.readable
  have hsound := hreadable.soundAt i
  rw [← h.codeblock_eq] at hsound
  obtain ⟨-, -, -, hproper, hsize, hsoft⟩ :=
    Codeblock.rateDematch_eq_ok hsound.toLaid (h.advanceAt hi).combined
  rw [(h.block_buffer i).1]
  refine ⟨hsize, fun p hp => ?_⟩
  have hcombined := hsoft p hp
  rw [Codeblock.combined, Codeblock.arrivals_eq_routed hproper] at hcombined
  have hfiller : (s.codeblock seg i).walkOf.isFiller p = true ↔ seg.IsFiller p := by
    rw [h.codeblock_eq]
    exact CodewordFormat.isFiller_codeblockAt h.sound
  refine ⟨fun hyes => ?_, fun hno => ?_⟩
  · rw [hcombined, if_pos (hfiller.mpr hyes)]
  · rw [hcombined, if_neg fun hyes => hno (hfiller.mp hyes)]
    congr 1
    cases hnew : s.settings.newData with
    | true => rfl
    | false =>
      have hlength : (s.codeblock seg i).sentLength = seg.base.sentLength seg.liftingSize := rfl
      rw [s.opened_of_old hnew, StoredBlock.fit, hlength]
      -- storage of another length is handed out blank
      by_cases hfit : (before.block i).soft.size = seg.base.sentLength seg.liftingSize
      · rw [if_pos hfit]
        simp [hfit]
      · rw [if_neg hfit]
        simp [hfit, Array.getD, hp]

/-- A session that receives nothing and finds nothing stored accepts no
codeblock, and stores nothing. -/
theorem of_erased (h : s.Outcome before seg ring combined result r) (hi : i < seg.blocks)
    (herased : ∀ a ∈ s.softBits, a = SoftBit.erased)
    (hbefore : s.settings.newData = true ∨
      (before.block i).soft.size ≠ seg.base.sentLength seg.liftingSize ∨
      ∀ p < seg.base.sentLength seg.liftingSize, ¬ seg.IsFiller p →
        (before.block i).soft.getD p SoftBit.erased = SoftBit.erased) :
    (combined.block i).passed = ((s.opened before).block i).passed ∧
      ∀ p < seg.base.sentLength seg.liftingSize, ¬ seg.IsFiller p →
        (r.buffer.block i).soft.getD p SoftBit.erased = SoftBit.erased := by
  obtain ⟨hsize, hsoft⟩ := h.soft_eq hi
  have hnothing : ∀ p < seg.base.sentLength seg.liftingSize, ¬ seg.IsFiller p →
      (r.buffer.block i).soft.getD p SoftBit.erased = SoftBit.erased := by
    intro p hp hno
    rw [(hsoft p hp).2 hno]
    -- nothing was stored, or it was dropped because of new data or other lengths
    have hstart : (if s.settings.newData ∨
        (before.block i).soft.size ≠ seg.base.sentLength seg.liftingSize
        then SoftBit.erased else (before.block i).soft.getD p SoftBit.erased) = SoftBit.erased := by
      split
      · rfl
      · rename_i hstored
        rw [not_or] at hstored
        rcases hbefore with hnew | hfit | hzero
        · exact absurd hnew hstored.1
        · exact absurd hfit hstored.2
        · exact hzero p hp hno
    rw [hstart]
    refine SoftBit.foldl_erased fun a ha => ?_
    obtain ⟨k, -, rfl⟩ := List.mem_map.mp ha
    exact Session.getD_span herased rfl
  refine ⟨?_, hnothing⟩
  have hadvance := h.advanceAt hi
  have hlength : (s.codeblock seg i).messageLength = seg.messageLength := by
    rw [h.codeblock_eq, h.readable.messageLength]
  have hfill := h.sound.blockLength_add_fillers
  refine hadvance.passed_of_erased ?_ fun p hp => ?_
  · have hpos := h.sound.blockLength_pos
    rw [hlength]
    show 0 < seg.messageLength - seg.fillers
    omega
  · rw [hlength] at hp
    change seg.messageLength ≤ puncturedColumns * seg.liftingSize + p at hp
    rw [← (h.block_buffer i).1]
    rcases Nat.lt_or_ge p (seg.base.sentLength seg.liftingSize) with hlt | hge
    · rw [hnothing p hlt fun hfiller => Nat.not_lt_of_le hp hfiller.2]
      rfl
    · rw [Array.getD_eq_getD_getElem?, Array.getElem?_eq_none (by omega)]
      rfl

/-- Such a session verifies nothing that was not accepted before, since it
accepts no codeblock itself. -/
theorem passed_of_verified_erased (h : s.Outcome before seg ring combined result r)
    (herased : ∀ a ∈ s.softBits, a = SoftBit.erased)
    (hbefore : ∀ i < seg.blocks, s.settings.newData = true ∨
      (before.block i).soft.size ≠ seg.base.sentLength seg.liftingSize ∨
      ∀ p < seg.base.sentLength seg.liftingSize, ¬ seg.IsFiller p →
        (before.block i).soft.getD p SoftBit.erased = SoftBit.erased)
    (hverified : result.verified = true) (hi : i < seg.blocks) :
    ((s.opened before).block i).passed = true := by
  rw [← (h.of_erased hi herased (hbefore i hi)).1]
  exact (h.verified.mp hverified).1 i hi

end Session.Outcome

/-- The soft bits that have come back to position `p` of codeblock `i` since the
last new data, the earliest first. -/
def gathered (seg : Segmentation) (i p : Nat) : List Finished → List SoftBit
  | [] => []
  | f :: past =>
    (if f.session.settings.newData then [] else gathered seg i p past) ++
      f.session.routed seg i p

namespace History

variable {n : Nat} {base : BaseGraph} {tbs : Nat} {past : List Finished} {f : Finished}
  {buffer : HarqBuffer} {seg : Segmentation}

/-- What comes back is as much in reach as what was received, in every session
since the last new data. -/
theorem inReach_gathered (seg : Segmentation) (i p : Nat)
    (hreach : ∀ g ∈ past, ∀ a ∈ g.session.softBits, a.InReach) :
    ∀ a ∈ gathered seg i p past, a.InReach := by
  induction past with
  | nil => exact fun a ha => absurd ha List.not_mem_nil
  | cons f past ih =>
    intro a ha
    rw [gathered, List.mem_append] at ha
    rcases ha with hold | hnew
    · split at hold
      · exact absurd hold List.not_mem_nil
      · exact ih (fun g hg => hreach g (List.mem_cons_of_mem f hg)) a hold
    · obtain ⟨k, -, rfl⟩ := List.mem_map.mp hnew
      exact Session.getD_span (hreach f List.mem_cons_self) SoftBit.inReach_erased

/-- After every session on one size of transport block, what is stored is the
sum of what has come back since the last new data. -/
theorem getD_soft (h : History n (f :: past) buffer) (hsame : SameBlock base tbs (f :: past))
    (hfound : Segmentation.ofSize base tbs = .ok seg) {i : Nat} (hi : i < n) :
    (buffer.block i).soft.size = seg.base.sentLength seg.liftingSize ∧
      ∀ p < seg.base.sentLength seg.liftingSize,
        (seg.IsFiller p → (buffer.block i).soft.getD p SoftBit.erased = SoftBit.certainZero) ∧
        (¬ seg.IsFiller p → (buffer.block i).soft.getD p SoftBit.erased =
          (gathered seg i p (f :: past)).foldl (· + ·) SoftBit.erased) := by
  induction past generalizing f buffer with
  | nil =>
    obtain ⟨rfl, ring, combined, houtcome⟩ := h.outcome_of_same hsame hfound
    obtain ⟨hpast, -, rfl⟩ := h.last
    obtain ⟨hsize, hsoft⟩ := houtcome.soft_eq hi
    refine ⟨hsize, fun p hp => ⟨(hsoft p hp).1, fun hno => ?_⟩⟩
    rw [(hsoft p hp).2 hno, hpast.start_eq, HarqBuffer.block_ofCount, gathered, List.foldl_append]
    congr 1
    cases f.session.settings.newData with
    | true => rfl
    | false => exact ite_self SoftBit.erased
  | cons g past ih =>
    obtain ⟨rfl, ring, combined, houtcome⟩ := h.outcome_of_same hsame hfound
    obtain ⟨hpast, -, rfl⟩ := h.last
    obtain ⟨hsize, hsoft⟩ := houtcome.soft_eq hi
    -- the session before stored the sum so far, and this one goes on with it
    obtain ⟨hbefore, hvalue⟩ := ih hpast fun k hk => hsame k (List.mem_cons_of_mem f hk)
    refine ⟨hsize, fun p hp => ⟨(hsoft p hp).1, fun hno => ?_⟩⟩
    rw [(hsoft p hp).2 hno, gathered, List.foldl_append]
    congr 1
    cases f.session.settings.newData with
    | true => rfl
    | false =>
      rw [if_neg (by simp [hbefore]), (hvalue p hp).2 hno]
      rfl

/-- Soft combining: after every session a filler position holds a certain zero,
and every other one the sum, limited at each step, of exactly the soft bits that
came back to it since the last new data. Each soft bit of a session comes back
to one such position of one codeblock. -/
theorem combining (h : History n (f :: past) buffer) (hsame : SameBlock base tbs (f :: past))
    (hreach : ∀ g ∈ f :: past, ∀ a ∈ g.session.softBits, a.InReach) :
    ∃ seg, Segmentation.ofSize base tbs = .ok seg ∧ seg.blocks = n ∧
      (∀ i < n, (buffer.block i).soft.size = seg.base.sentLength seg.liftingSize ∧
        ∀ p < seg.base.sentLength seg.liftingSize,
          let stored := ((buffer.block i).soft.getD p SoftBit.erased).value
          (seg.IsFiller p → stored = 127) ∧
          (¬ seg.IsFiller p → stored.toInt =
            ((gathered seg i p (f :: past)).map fun a => a.value.toInt).foldl
              (fun sum v => SoftBit.limited (sum + v)) 0) ∧
          (stored = 127 ∨ stored = -127 → seg.IsFiller p)) ∧
      ∀ g ∈ f :: past,
        (∀ j < g.session.softBits.size, ∃! ik : Nat × Nat, ik.1 < n ∧
          ik.2 < (g.session.codeblock seg ik.1).matchedLength ∧
          (g.session.codeblock seg ik.1).offset + (g.session.codeblock seg ik.1).interleaved ik.2 =
            j) ∧
        ∀ i < n, ∀ k, (g.session.codeblock seg i).walkOf.walk k <
            seg.base.sentLength seg.liftingSize ∧
          ¬ seg.IsFiller ((g.session.codeblock seg i).walkOf.walk k) := by
  obtain ⟨seg, ring, combined, houtcome, hblocks⟩ := h.outcome
  obtain ⟨hbase, htbs⟩ := hsame f List.mem_cons_self
  have hfound : Segmentation.ofSize base tbs = .ok seg := by
    rw [← hbase, ← htbs]
    exact houtcome.found
  refine ⟨seg, hfound, hblocks, fun i hi => ?_, fun g hg => ?_⟩
  · obtain ⟨hsize, hsoft⟩ := h.getD_soft hsame hfound hi
    refine ⟨hsize, fun p hp => ?_⟩
    obtain ⟨hfiller, hother⟩ := hsoft p hp
    obtain ⟨hstored, hsum⟩ :=
      SoftBit.toInt_foldl (inReach_gathered seg i p hreach) SoftBit.inReach_erased
    refine ⟨fun hyes => by rw [hfiller hyes]; rfl, fun hno => by rw [hother hno]; exact hsum,
      fun hcertain => ?_⟩
    by_contra hno
    have hreached := hstored.not_certain
    rw [← hother hno, SoftBit.isCertain, Bool.or_eq_false_iff, beq_eq_false_iff_ne,
      beq_eq_false_iff_ne] at hreached
    exact hcertain.elim hreached.1 hreached.2
  · obtain ⟨later, earlier, hsplit⟩ := List.append_of_mem hg
    rw [hsplit] at h hsame
    have hg := h.earlier
    obtain ⟨-, ring, combined, houtcome⟩ := hg.outcome_of_same
      (fun k hk => hsame k (List.mem_append_right later hk)) hfound
    subst hblocks
    refine ⟨fun j hj => ?_, fun i _ k => ?_⟩
    · simp only [houtcome.codeblock_eq]
      exact CodewordFormat.existsUnique_place houtcome.readable hj
    · rw [houtcome.codeblock_eq]
      exact houtcome.readable.walk_spec i k

/-- A byte that is sent twice: each position holds the sum of both times, the
first one first. -/
theorem combining_byte :
    ∃ (f g : Finished) (buffer : HarqBuffer) (seg : Segmentation), History 1 [g, f] buffer ∧
      f.session.settings.newData = true ∧ g.session.settings.newData = false ∧
      Segmentation.ofSize .two 8 = .ok seg ∧
      ∀ p < seg.base.sentLength seg.liftingSize, ¬ seg.IsFiller p →
        ((buffer.block 0).soft.getD p SoftBit.erased).value.toInt =
          ((f.session.routed seg 0 p ++ g.session.routed seg 0 p).map fun a =>
            a.value.toInt).foldl (fun sum v => SoftBit.limited (sum + v)) 0 := by
  obtain ⟨f, softBits, hsize, hreach, hf, hone, hsame, -⟩ := exists_history_byte
  obtain ⟨g, hg, htwo, hsame⟩ := exists_finish_byte false hsize hone hsame
  have hnew : f.session.settings.newData = true := by rw [hf]; rfl
  have hagain : g.session.settings.newData = false := by rw [hg]; rfl
  have hreached : ∀ k ∈ [g, f], ∀ a ∈ k.session.softBits, a.InReach :=
    List.forall_mem_cons.mpr ⟨by rwa [hg, byteSession, Session.softBits_singleton],
      List.forall_mem_singleton.mpr (by rwa [hf, byteSession, Session.softBits_singleton])⟩
  obtain ⟨seg, hfound, -, hstored, -⟩ := htwo.combining hsame hreached
  refine ⟨f, g, _, seg, htwo, hnew, hagain, hfound, fun p hp hno => ?_⟩
  have hsum := ((hstored 0 Nat.one_pos).2 p hp).2.1 hno
  rw [gathered, gathered, if_neg (by rw [hagain]; exact Bool.false_ne_true), if_pos hnew,
    List.nil_append] at hsum
  exact hsum

end History

end Uplink
