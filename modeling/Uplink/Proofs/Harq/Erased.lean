import Uplink.Proofs.Harq.Combining

/-!
# Transport blocks that never arrive

Sessions whose soft bits say nothing leave a transport block as it is, however many there are: the
fillers of the codeblocks are known, but they do not decide anything else. This is not for lack of a
message that passes, since the message of zeros does.

- `Unheard`: nothing is known of the codeblocks of a buffer but their fillers.
- `Session.Outcome.of_unheard`: a session that receives nothing finds such a buffer, decides nothing
  with its whole budget, and leaves such a buffer.
- `Session.Erased.exists_run_iff`: it completes exactly if its sizes are admitted.
- `History.exists_of_erased`: all sessions of a history leave the transport block as it is.
-/

namespace Uplink

open Ldpc

/-- No codeblock of the buffer has passed, and nothing is stored of it but
fillers. -/
def Unheard (seg : Segmentation) (buffer : HarqBuffer) : Prop :=
  ∀ i < seg.blocks, (buffer.block i).passed = false ∧
    ((buffer.block i).soft.size ≠ seg.base.sentLength seg.liftingSize ∨
      ∀ p < seg.base.sentLength seg.liftingSize, ¬ seg.IsFiller p →
        (buffer.block i).soft.getD p SoftBit.erased = SoftBit.erased)

/-- Of a new buffer nothing is known. -/
theorem unheard_ofCount {seg : Segmentation} (h : 0 < seg.liftingSize) :
    Unheard seg (HarqBuffer.ofCount seg.blocks) := by
  intro i _
  have hsent : 0 < seg.base.sentLength seg.liftingSize := by
    rw [BaseGraph.sentLength_eq, BaseGraph.messageLength]
    cases seg.base <;> simp [BaseGraph.inverseRate, BaseGraph.systematicColumns, h]
  rw [HarqBuffer.block_ofCount]
  exact ⟨rfl, .inl (Nat.ne_of_lt hsent)⟩

/-- What a session reports and leaves if nothing arrives: no codeblock was
decided with the whole budget, and the transport block is as it was. -/
structure Finished.Unheard (f : Finished) (seg : Segmentation) : Prop where
  result : f.result =
    ⟨seg.blocks, .uniform seg.blocks f.session.settings.iterations, false⟩
  block : f.reception.block = f.session.block
  rejects : ∀ i < seg.blocks, ∀ message, ¬ f.Accepts i message
  buffer : Uplink.Unheard seg f.reception.buffer
  fillers : ∀ i < seg.blocks, ∀ p < seg.base.sentLength seg.liftingSize, seg.IsFiller p →
    (f.reception.buffer.block i).soft.getD p SoftBit.erased = SoftBit.certainZero

/-- A session that receives nothing, on a buffer of which nothing is known,
leaves a buffer of which nothing is known. So the fact carries over to the next
session. -/
theorem Session.Outcome.of_unheard {f : Finished} {seg : Segmentation} {ring : Nat}
    {combined : HarqBuffer}
    (h : f.session.Outcome f.before seg ring combined f.result f.reception)
    (herased : ∀ a ∈ f.session.softBits, a = SoftBit.erased) (hbefore : Unheard seg f.before) :
    f.Unheard seg := by
  have hopened : ∀ i < seg.blocks, ((f.session.opened f.before).block i).passed = false := by
    intro i hi
    rw [Bool.eq_false_iff, Ne, Session.passed_opened, (hbefore i hi).1]
    exact fun hyes => Bool.noConfusion hyes.2
  have hnothing := fun i hi => h.of_erased (i := i) hi herased (.inr (hbefore i hi).2)
  have hcombined : ∀ i < seg.blocks, (combined.block i).passed = false := fun i hi =>
    (hnothing i hi).1.trans (hopened i hi)
  -- verification needs every codeblock, and not even the first one has passed
  have hnot : f.result.verified = false := by
    by_contra hverified
    have hpassed := (h.verified.mp (Bool.not_eq_false _ ▸ hverified)).1 0 h.sound.blocks_pos
    rw [hcombined 0 h.sound.blocks_pos] at hpassed
    cases hpassed
  refine ⟨?_, ?_, ?_, fun i hi => ⟨?_, .inr (hnothing i hi).2⟩, fun i hi p hp =>
    ((h.soft_eq hi).2 p hp).1⟩
  · rw [← h.blocks, ← hnot, h.blocks, ← h.undecided fun i hi => ⟨hopened i hi, .inl (hcombined i hi)⟩,
      ← h.blocks]
  · rw [h.block, hnot]
    rfl
  · intro i hi message haccepted
    have hkept : ¬ f.Kept i := Bool.eq_false_iff.mp (hopened i hi)
    have hpassed := ((h.accepts_iff hi hkept).mp haccepted).1
    rw [hcombined i hi] at hpassed
    cases hpassed
  · rw [Bool.eq_false_iff]
    intro hpassed
    have hbefore := (h.block_buffer i).2.2 hpassed
    rw [hcombined i hi] at hbefore
    cases hbefore

/-- Nothing arrives in a session on a transport block that is cut as in `seg`,
whatever its sizes are. -/
structure Session.Erased (s : Session) (seg : Segmentation) : Prop where
  found : Segmentation.ofSize s.settings.base s.tbs = .ok seg
  rv_lt : s.settings.rv < 4
  layers_pos : 0 < s.settings.layers
  iterations_pos : 0 < s.settings.iterations
  groups : s.softBits.size % s.format.group = 0
  room : seg.fillers < s.format.ringLength seg
  erased : ∀ a ∈ s.softBits, a = SoftBit.erased

/-- Such a session completes on a buffer of which nothing is known exactly if
its codeword is not too long and the machine can count its sizes. -/
theorem Session.Erased.exists_run_iff {s : Session} {seg : Segmentation} {buffer : HarqBuffer}
    (h : s.Erased seg) (htbs : 2 * s.tbs < Size.limit) (hcount : buffer.count = seg.blocks)
    (hbuffer : Unheard seg buffer) :
    (∃ result r, s.run buffer = .ok (result, r)) ↔
      s.softBits.size ≤ maxCodewordLength ∧ s.format.group < Size.limit ∧
        3 * s.settings.bufferLimit < Size.limit ∧
        seg.blocks * s.settings.iterations < Size.limit := by
  constructor
  · rintro ⟨result, r, hrun⟩
    let f : Finished := ⟨s, buffer, result, r⟩
    obtain ⟨seg', ring, combined, houtcome⟩ := s.run_eq_ok hrun
    obtain rfl := Except.ok.inj (houtcome.found.symm.trans h.found)
    obtain ⟨-, -, -, codeblocks, -, hreceive, -⟩ := s.run_eq_ok_iff.mp hrun
    -- every codeblock took the whole budget, and all of them were counted
    have hunheard : f.Unheard seg' :=
      Session.Outcome.of_unheard (f := f) houtcome h.erased hbuffer
    have htotal : result.statistics.total < Size.limit := s.total_lt_of_run hrun
    rw [show result = _ from hunheard.result, IterationStatistics.total_uniform] at htotal
    exact ⟨houtcome.length_le, s.format.group_lt_of_receive hreceive,
      (CodewordFormat.bufferLength_eq_ok_iff.mp houtcome.buffered).1, htotal⟩
  · rintro ⟨hlength, hgroup, hlimit, hbudget⟩
    have hsuits : s.Suits s.settings.base s.tbs seg :=
      ⟨rfl, rfl, h.rv_lt, h.layers_pos, h.iterations_pos, h.groups, hlength, h.room, hgroup, hlimit,
        hbudget⟩
    exact hsuits.exists_run h.found htbs hcount

/-- Every transport block that is not empty is cut into codeblocks, of which the
message of zeros passes the check. Any sessions on it in which nothing arrives,
the last one first, complete on a new buffer: none of them verifies or writes
anything, accepts any message of any codeblock, or comes to its end before its
budget. -/
theorem History.exists_of_erased (base : BaseGraph) {tbs : Nat} (hpos : 0 < tbs)
    (htbs : 2 * tbs < Size.limit) :
    ∃ seg, Segmentation.ofSize base tbs = .ok seg ∧
      (Segmentation.blockCrc seg.blocks tbs).ofBits (Array.replicate seg.blockLength 0) = 0 ∧
      ∀ sessions : List Session, (∀ s ∈ sessions, s.Suits base tbs seg) →
        (∀ s ∈ sessions, ∀ a ∈ s.softBits, a = SoftBit.erased) →
        ∃ past buffer, History seg.blocks past buffer ∧ past.map (·.session) = sessions ∧
          ∀ f ∈ past, f.Unheard seg := by
  obtain ⟨seg, hfound⟩ := Segmentation.exists_ofSize base hpos htbs
  have hsound := Segmentation.ofSize_eq_ok hfound
  refine ⟨seg, hfound, Crc.ofBits_of_zeros _ fun b hb => (Array.mem_replicate.mp hb).2, ?_⟩
  intro sessions hsuits herased
  -- along the sessions, the buffer stays one of which nothing is known
  suffices ∃ past buffer, History seg.blocks past buffer ∧ past.map (·.session) = sessions ∧
      Unheard seg buffer ∧ ∀ f ∈ past, f.Unheard seg by
    obtain ⟨past, buffer, hhistory, hsessions, -, hunheard⟩ := this
    exact ⟨past, buffer, hhistory, hsessions, hunheard⟩
  induction sessions with
  | nil =>
    refine ⟨[], _, .start, rfl, unheard_ofCount ?_, fun f hf => absurd hf List.not_mem_nil⟩
    exact liftingSize_pos hsound.liftingSize_mem
  | cons s sessions ih =>
    obtain ⟨past, buffer, hhistory, rfl, hbuffer, hunheard⟩ :=
      ih (fun t ht => hsuits t (List.mem_cons_of_mem s ht)) fun t ht =>
        herased t (List.mem_cons_of_mem s ht)
    have hs := hsuits s List.mem_cons_self
    obtain ⟨result, r, hrun⟩ := hs.exists_run hfound htbs hhistory.count
    let f : Finished := ⟨s, buffer, result, r⟩
    obtain ⟨seg', ring, combined, houtcome⟩ := s.run_eq_ok hrun
    have hfound' := houtcome.found
    rw [hs.base_eq, hs.tbs_eq, hfound] at hfound'
    obtain rfl := Except.ok.inj hfound'
    have hf : f.Unheard seg :=
      Session.Outcome.of_unheard (f := f) houtcome (herased s List.mem_cons_self) hbuffer
    exact ⟨f :: past, r.buffer, hhistory.finish hrun, rfl, hf.buffer,
      List.forall_mem_cons.mpr ⟨hf, hunheard⟩⟩

/-- A session of one byte, in whole symbols. -/
theorem suits_byteSession (newData : Bool) {softBits : Array SoftBit} {seg : Segmentation}
    (hfound : Segmentation.ofSize .two 8 = .ok seg) (hsize : softBits.size % 2 = 0)
    (hlength : softBits.size ≤ maxCodewordLength) :
    (byteSession newData softBits).Suits .two 8 seg := by
  obtain rfl : (⟨.two, 1, 16, 0, 24, 4, 40, 16⟩ : Segmentation) = seg :=
    Except.ok.inj ((by decide : Segmentation.ofSize .two 8 = .ok _).symm.trans hfound)
  have hsoft : (byteSession newData softBits).softBits = softBits := Session.softBits_singleton
  exact ⟨rfl, rfl, (by decide : 0 < 4), (by decide : 0 < 1), (by decide : 0 < 1), by rwa [hsoft],
    by rwa [hsoft], (by decide : 16 < 200), (by decide : 1 * 2 < Size.limit),
    (by decide : 3 * 0 < Size.limit), (by decide : 1 * 1 < Size.limit)⟩

/-- One byte of which first no soft bits come at all, and then twelve symbols of
nothing: neither session verifies it. -/
theorem History.exists_of_erased_byte :
    ∃ f g : Finished, (∃ buffer, History 1 [g, f] buffer) ∧
      f.session = byteSession true #[] ∧
      g.session = byteSession false (Array.replicate 24 SoftBit.erased) ∧
      f.result = ⟨1, ⟨1, 1, some 1, some 1⟩, false⟩ ∧
      g.result = ⟨1, ⟨1, 1, some 1, some 1⟩, false⟩ ∧
      g.reception.block = #[0] := by
  obtain ⟨seg, hfound, -, hruns⟩ :=
    History.exists_of_erased .two (by decide : 0 < 8) (by decide)
  obtain rfl : (⟨.two, 1, 16, 0, 24, 4, 40, 16⟩ : Segmentation) = seg :=
    Except.ok.inj ((by decide : Segmentation.ofSize .two 8 = .ok _).symm.trans hfound)
  obtain ⟨past, buffer, hhistory, hsessions, hunheard⟩ :=
    hruns [byteSession false (Array.replicate 24 SoftBit.erased), byteSession true #[]]
      (by
        rw [List.forall_mem_cons, List.forall_mem_singleton]
        exact ⟨suits_byteSession false hfound (by simp) (by simp; decide),
          suits_byteSession true hfound (by simp) (by simp)⟩)
      (by
        rw [List.forall_mem_cons, List.forall_mem_singleton]
        refine ⟨erased_byteSession false, fun a ha => ?_⟩
        rw [byteSession, Session.softBits_singleton] at ha
        exact absurd ha (Array.not_mem_empty a))
  obtain ⟨g, rest, rfl, hg, hrest⟩ := List.map_eq_cons_iff.mp hsessions
  obtain ⟨f, rest, rfl, hf, hnil⟩ := List.map_eq_cons_iff.mp hrest
  obtain rfl := List.map_eq_nil_iff.mp hnil
  have hgu := hunheard g List.mem_cons_self
  have hfu := hunheard f (List.mem_cons_of_mem g List.mem_cons_self)
  refine ⟨f, g, ⟨buffer, hhistory⟩, hf, hg, ?_, ?_, ?_⟩
  · rw [hfu.result, hf]
    rfl
  · rw [hgu.result, hg]
    rfl
  · rw [hgu.block, hg]
    rfl

/-- A session of `n` soft bits that say nothing, on a transport block of some
bytes. -/
def erasedSession (settings : ReceptionSettings) (bytes n : Nat) : Session :=
  ⟨BlockDecoder.fresh, settings, Array.replicate bytes 0, [Array.replicate n SoftBit.erased]⟩

section ErasedSession

variable {settings : ReceptionSettings} {bytes n : Nat} {seg : Segmentation}

@[simp] theorem softBits_erasedSession :
    (erasedSession settings bytes n).softBits = Array.replicate n SoftBit.erased :=
  Session.softBits_singleton

@[simp] theorem tbs_erasedSession : (erasedSession settings bytes n).tbs = bytes * 8 := by
  rw [Session.tbs, erasedSession, Array.size_replicate]

/-- It is one in which nothing arrives, whatever its length is. -/
theorem erased_erasedSession
    (hfound : Segmentation.ofSize settings.base (bytes * 8) = .ok seg) (hrv : settings.rv < 4)
    (hlayers : 0 < settings.layers) (hiterations : 0 < settings.iterations)
    (hgroups : n % (settings.layers * settings.modulation.order) = 0)
    (hroom : seg.fillers < seg.ringLength settings.bufferLimit) :
    (erasedSession settings bytes n).Erased seg := by
  refine ⟨?_, hrv, hlayers, hiterations, ?_, hroom, ?_⟩
  · rw [tbs_erasedSession]
    exact hfound
  · rw [softBits_erasedSession, Array.size_replicate]
    exact hgroups
  · rw [softBits_erasedSession]
    exact fun a ha => (Array.mem_replicate.mp ha).2

/-- Such a session does not complete, even on a new buffer, if one of its sizes
is too large. By the equivalence above this needs no run of it. -/
theorem run_erasedSession_ne_ok (h : (erasedSession settings bytes n).Erased seg)
    (hbytes : 16 * bytes < Size.limit)
    (hlarge : maxCodewordLength < n ∨ Size.limit ≤ settings.layers * settings.modulation.order ∨
      Size.limit ≤ 3 * settings.bufferLimit ∨ Size.limit ≤ seg.blocks * settings.iterations)
    (outcome : SchResult × Reception) :
    (erasedSession settings bytes n).run (HarqBuffer.ofCount seg.blocks) ≠ .ok outcome := by
  intro hrun
  have htbs : 2 * (erasedSession settings bytes n).tbs < Size.limit := by
    rw [tbs_erasedSession]
    omega
  have hunheard : Unheard seg (HarqBuffer.ofCount seg.blocks) :=
    unheard_ofCount (liftingSize_pos (Segmentation.ofSize_eq_ok h.found).liftingSize_mem)
  obtain ⟨hlength, hgroup, hlimit, hbudget⟩ :=
    (h.exists_run_iff htbs (HarqBuffer.count_ofCount seg.blocks) hunheard).mp
      ⟨outcome.1, outcome.2, hrun⟩
  rw [softBits_erasedSession, Array.size_replicate] at hlength
  change settings.layers * settings.modulation.order < Size.limit at hgroup
  change 3 * settings.bufferLimit < Size.limit at hlimit
  change seg.blocks * settings.iterations < Size.limit at hbudget
  omega

end ErasedSession

/-- Sessions in which nothing arrives and that do not complete on a new buffer:
of one symbol more than the longest codeword, of layers whose symbols the
machine cannot count, of a limit that it cannot multiply, and of two codeblocks
whose iterations it cannot add up. A transport block of `2 ^ 61` bytes is not
cut into codeblocks at all. -/
theorem run_erasedSession_ne_ok_of_large :
    let long := erasedSession byteSettings 1 (maxCodewordLength + 2)
    let wide := erasedSession { byteSettings with layers := 2 ^ 63 } 1 0
    let limited := erasedSession { byteSettings with bufferLimit := 2 ^ 63 } 1 0
    let patient := erasedSession { byteSettings with iterations := 2 ^ 63 } 480 0
    (∀ s ∈ [long, wide, limited], s.Erased ⟨.two, 1, 16, 0, 24, 4, 40, 16⟩ ∧
      ∀ outcome, s.run (HarqBuffer.ofCount 1) ≠ .ok outcome) ∧
    (patient.Erased ⟨.two, 2, 24, 24, 1956, 208, 2080, 124⟩ ∧
      ∀ outcome, patient.run (HarqBuffer.ofCount 2) ≠ .ok outcome) ∧
    Segmentation.ofSize .two (2 ^ 61 * 8) = .error .arithmetic := by
  have hbyte : Segmentation.ofSize .two (1 * 8) = .ok ⟨.two, 1, 16, 0, 24, 4, 40, 16⟩ := by decide
  have htwo : Segmentation.ofSize .two (480 * 8) =
      .ok ⟨.two, 2, 24, 24, 1956, 208, 2080, 124⟩ := by decide
  intro long wide limited patient
  have hlong : long.Erased ⟨.two, 1, 16, 0, 24, 4, 40, 16⟩ := erased_erasedSession hbyte
    (by decide) (by decide) (by decide) (by decide) (by decide)
  have hwide : wide.Erased ⟨.two, 1, 16, 0, 24, 4, 40, 16⟩ := erased_erasedSession hbyte
    (by decide) (by decide) (by decide) (by decide) (by decide)
  have hlimited : limited.Erased ⟨.two, 1, 16, 0, 24, 4, 40, 16⟩ := erased_erasedSession hbyte
    (by decide) (by decide) (by decide) (by decide) (by decide)
  have hpatient : patient.Erased ⟨.two, 2, 24, 24, 1956, 208, 2080, 124⟩ :=
    erased_erasedSession htwo (by decide) (by decide) (by decide) (by decide)
      (Segmentation.ofSize_eq_ok htwo).fillers_lt_ringLength
  have hlength := run_erasedSession_ne_ok hlong (by decide) (.inl (by decide))
  have hgroup := run_erasedSession_ne_ok hwide (by decide) (.inr (.inl (by decide)))
  have hlimit := run_erasedSession_ne_ok hlimited (by decide) (.inr (.inr (.inl (by decide))))
  have hbudget := run_erasedSession_ne_ok hpatient (by decide) (.inr (.inr (.inr (by decide))))
  refine ⟨?_, ⟨hpatient, hbudget⟩, by decide⟩
  rw [List.forall_mem_cons, List.forall_mem_cons, List.forall_mem_singleton]
  exact ⟨⟨hlong, hlength⟩, ⟨hwide, hgroup⟩, ⟨hlimited, hlimit⟩⟩

end Uplink
