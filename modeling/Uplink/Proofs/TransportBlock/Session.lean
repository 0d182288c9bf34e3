import Uplink.Proofs.TransportBlock.Assembly

/-!
# Sessions

A session receives one transmission from its start to its end: the soft bits come in pieces, and at
the end the codeblocks advance, the transport block is put together and verified.

- `Session.run`: a whole session on a combining buffer.
- `Session.Outcome`: what a session leaves behind, codeblock by codeblock.
- `Session.run_eq_ok`: every session that completes has such an outcome.
- `Session.run_of_addBlocks`: a session completes if the loop over its codeblocks does.
-/

namespace Uplink

open Ldpc

/-- One transmission to receive. -/
structure Session where
  /-- The decoder, with whatever its last session left in it. -/
  decoder : BlockDecoder
  settings : ReceptionSettings
  /-- Where the transport block goes. -/
  block : Bytes
  /-- The soft bits, in the pieces in which they come. -/
  pieces : List (Array SoftBit)

namespace Session

variable (s : Session)

/-- All soft bits of the codeword. -/
def softBits : Array SoftBit := s.pieces.foldl (· ++ ·) #[]

@[simp] theorem softBits_singleton {decoder : BlockDecoder} {settings : ReceptionSettings}
    {block : Bytes} {softBits : Array SoftBit} :
    Session.softBits ⟨decoder, settings, block, [softBits]⟩ = softBits := by
  rw [Session.softBits, List.foldl_cons, List.foldl_nil, Array.empty_append]

/-- Bits of the transport block. -/
def tbs : Nat := s.block.size * 8

/-- The format of the codeword. -/
def format : CodewordFormat := s.settings.format s.softBits.size

/-- Receive the transmission with the help of a combining buffer. -/
def run (buffer : HarqBuffer) : Checked (SchResult × Reception) := do
  let r ← Reception.start s.decoder s.settings buffer s.block
  let r ← s.pieces.foldlM Reception.push r
  r.finish

/-- The reception once all soft bits are collected. -/
def collected (buffer : HarqBuffer) : Reception :=
  ⟨s.settings, ⟨s.decoder.ldpc, s.softBits⟩, buffer, s.block, false⟩

/-- The buffer as the codeblocks find it: new data clears the flags. -/
def opened (buffer : HarqBuffer) : HarqBuffer :=
  if s.settings.newData then buffer.clearPassed else buffer

/-! ## Collecting the soft bits -/

theorem push_eq_ok {r r' : Reception} {piece : Array SoftBit} :
    r.push piece = .ok r' ↔
      r.finished = false ∧ r.decoder.softBits.size + piece.size ≤ maxCodewordLength ∧
        r' = { r with decoder := { r.decoder with softBits := r.decoder.softBits ++ piece } } := by
  unfold Reception.push
  simp only [bind_eq_ok, require_eq_ok, Bool.not_eq_true', decide_eq_true_iff]
  constructor
  · rintro ⟨-, hfinished, -, hlength, h⟩
    exact ⟨hfinished, hlength, (Except.ok.inj h).symm⟩
  · rintro ⟨hfinished, hlength, rfl⟩
    exact ⟨(), hfinished, (), hlength, rfl⟩

/-- Appending pieces never makes the codeword shorter. -/
theorem size_le_foldl_append (pieces : List (Array SoftBit)) (softBits : Array SoftBit) :
    softBits.size ≤ (pieces.foldl (· ++ ·) softBits).size := by
  induction pieces generalizing softBits with
  | nil => exact Nat.le_refl _
  | cons piece pieces ih =>
    refine Nat.le_trans ?_ (ih (softBits ++ piece))
    rw [Array.size_append]
    exact Nat.le_add_right _ _

/-- Pieces are collected one behind the other, if all of them together are not
too long. How the codeword was cut into pieces leaves no trace. -/
theorem push_pieces {pieces : List (Array SoftBit)} {r r' : Reception} (hr : r.finished = false)
    (hlength : r.decoder.softBits.size ≤ maxCodewordLength) :
    pieces.foldlM Reception.push r = .ok r' ↔
      (pieces.foldl (· ++ ·) r.decoder.softBits).size ≤ maxCodewordLength ∧
        r' = { r with decoder :=
          { r.decoder with softBits := pieces.foldl (· ++ ·) r.decoder.softBits } } := by
  induction pieces generalizing r with
  | nil =>
    simp only [List.foldlM_nil, List.foldl_nil, pure_eq_ok, Except.ok.injEq]
    exact ⟨fun h => ⟨hlength, h.symm⟩, fun h => h.2.symm⟩
  | cons piece pieces ih =>
    rw [List.foldlM_cons, bind_eq_ok, List.foldl_cons]
    constructor
    · rintro ⟨r₁, hpush, hrest⟩
      obtain ⟨-, hpiece, rfl⟩ := push_eq_ok.mp hpush
      refine (ih (by exact hr) ?_).mp hrest
      rwa [Array.size_append]
    · rintro ⟨htotal, rfl⟩
      have hpiece : r.decoder.softBits.size + piece.size ≤ maxCodewordLength := by
        rw [← Array.size_append]
        exact Nat.le_trans (size_le_foldl_append pieces _) htotal
      refine ⟨_, push_eq_ok.mpr ⟨hr, hpiece, rfl⟩, (ih (by exact hr) ?_).mpr ⟨htotal, rfl⟩⟩
      rwa [Array.size_append]

/-- A session comes to its end with all soft bits if it has a transport block to
fill and the codeword is not too long. -/
theorem run_eq {buffer : HarqBuffer} {outcome : SchResult × Reception} :
    s.run buffer = .ok outcome ↔
      s.block.size ≠ 0 ∧ s.softBits.size ≤ maxCodewordLength ∧
        (s.collected buffer).finish = .ok outcome := by
  unfold run Reception.start
  simp only [bind_eq_ok, require_eq_ok, Bool.not_eq_true', Array.isEmpty_eq_false_iff]
  have hempty : (#[] : Array SoftBit).size ≤ maxCodewordLength := Nat.zero_le _
  constructor
  · rintro ⟨r, ⟨-, hblock, h⟩, r', hpieces, hfinish⟩
    obtain rfl := Except.ok.inj h
    obtain ⟨hlength, rfl⟩ := (push_pieces rfl hempty).mp hpieces
    exact ⟨by simpa using hblock, hlength, hfinish⟩
  · rintro ⟨hblock, hlength, hfinish⟩
    exact ⟨_, ⟨(), by simpa using hblock, rfl⟩, _, (push_pieces rfl hempty).mpr ⟨hlength, rfl⟩,
      hfinish⟩

/-- The assembly before the first codeblock. -/
def opening (buffer : HarqBuffer) : Assembly :=
  ⟨s.decoder.ldpc, s.opened buffer, IterationStatistics.none, #[]⟩

@[simp] theorem count_opened (buffer : HarqBuffer) : (s.opened buffer).count = buffer.count := by
  unfold opened
  split <;> simp

theorem opened_of_old {buffer : HarqBuffer} (hold : s.settings.newData = false) :
    s.opened buffer = buffer := by
  rw [opened, hold]
  rfl

/-- A flag that the codeblocks find was there before, and the data are not new:
a session with new data starts with all flags cleared. -/
theorem passed_opened {buffer : HarqBuffer} {i : Nat} :
    ((s.opened buffer).block i).passed = true ↔
      s.settings.newData = false ∧ (buffer.block i).passed = true := by
  rw [opened]
  cases s.settings.newData with
  | true => simp
  | false => simp

/-- When a session completes, and how: the codeword has codeblocks, the buffer
as many, and the loop over them does not fail. -/
theorem run_eq_ok_iff {buffer : HarqBuffer} {result : SchResult} {r : Reception} :
    s.run buffer = .ok (result, r) ↔
      s.block.size ≠ 0 ∧ s.softBits.size ≤ maxCodewordLength ∧
        s.softBits.size % s.settings.modulation.order = 0 ∧
        ∃ codeblocks a, s.format.receive s.softBits.size s.tbs = .ok codeblocks ∧
          codeblocks.size = buffer.count ∧
          codeblocks.zipIdx.foldlM (Assembly.addBlock s.settings
            (Segmentation.blockCrc codeblocks.size s.tbs) s.softBits
            (if codeblocks.size = 1 then s.tbs else s.tbs + longCheckLength)) (s.opening buffer) =
            .ok a ∧
          result = ⟨codeblocks.size, a.statistics, (a.verify codeblocks.size).1⟩ ∧
          r = ⟨s.settings, ⟨a.decoder, s.softBits⟩, (a.verify codeblocks.size).2,
            if (a.verify codeblocks.size).1 then Bits.pack (a.bits.extract 0 s.tbs) else s.block,
            true⟩ := by
  rw [run_eq]
  unfold Reception.finish
  simp only [bind_eq_ok, require_eq_ok, beq_iff_eq]
  constructor
  · rintro ⟨hblock, hlength, -, -, -, horder, codeblocks, hreceive, -, hcount, a, hloop, hfinish⟩
    obtain ⟨rfl, rfl⟩ := Prod.mk.inj (Except.ok.inj hfinish)
    exact ⟨hblock, hlength, horder, codeblocks, a, hreceive, hcount, hloop, rfl, rfl⟩
  · rintro ⟨hblock, hlength, horder, codeblocks, a, hreceive, hcount, hloop, rfl, rfl⟩
    exact ⟨hblock, hlength, (), rfl, (), horder, codeblocks, hreceive, (), hcount, a, hloop, rfl⟩

/-- The iterations of a session that completes are counted by the machine, since
the sum is checked with each codeblock. -/
theorem total_lt_of_run {buffer : HarqBuffer} {result : SchResult} {r : Reception}
    (h : s.run buffer = .ok (result, r)) : result.statistics.total < Size.limit := by
  obtain ⟨-, -, -, codeblocks, a, -, -, hloop, rfl, -⟩ := s.run_eq_ok_iff.mp h
  rw [← Array.foldlM_toList] at hloop
  exact foldlM_invariant (fun _ (a : Assembly) => a.statistics.total < Size.limit) hloop
    (by decide : 0 < Size.limit) fun _ _ _ _ _ _ htotal hstep =>
      Assembly.total_lt_of_addBlock hstep htotal

/-- The codeblocks of a segmentation with their numbers. -/
theorem zipIdx_codeblocks (format : CodewordFormat) (seg : Segmentation) (ring : Nat) :
    ((Array.range seg.blocks).map (format.codeblockAt seg ring)).zipIdx.toList =
      (List.range seg.blocks).map fun i => (format.codeblockAt seg ring i, i) := by
  apply List.ext_getElem
  · simp
  · intro i h₁ h₂
    simp

/-! ## The outcome -/

/-- Bits that are put together: the transport block, and its check too if it is
cut. -/
def wanted (seg : Segmentation) : Nat := if seg.blocks = 1 then s.tbs else s.tbs + longCheckLength

/-- The transport block is among the bits that are put together. -/
theorem tbs_le_wanted (seg : Segmentation) : s.tbs ≤ s.wanted seg := by
  rw [wanted]
  split
  · exact Nat.le_refl _
  · exact Nat.le_add_right _ _

/-- Data bits that the receiver takes of each codeblock. -/
def takenLength (seg : Segmentation) : Nat := if 1 < seg.blocks then seg.dataLength else s.tbs

/-- The bits that are put together from the messages of a buffer. -/
def assembled (seg : Segmentation) (buffer : HarqBuffer) : Bits :=
  gather (s.takenLength seg) (s.wanted seg) (fun i => (buffer.block i).message) seg.blocks

/-- All codeblocks have passed, and together they pass too. -/
def Passes (seg : Segmentation) (buffer : HarqBuffer) : Prop :=
  (∀ i < seg.blocks, (buffer.block i).passed = true) ∧
    (seg.blocks = 1 ∨ Segmentation.reassemblyCrc.ofBits (s.assembled seg buffer) = 0)

/-- The outcome of a session that found the buffer `before`: its transport block
is cut as in `seg`, the circular buffers have `ring` positions, and the
codeblocks advanced to those of `combined`. -/
structure Outcome (before : HarqBuffer) (seg : Segmentation) (ring : Nat) (combined : HarqBuffer)
    (result : SchResult) (r : Reception) : Prop where
  sound : seg.Sound s.settings.base s.tbs
  found : Segmentation.ofSize s.settings.base s.tbs = .ok seg
  buffered : s.format.bufferLength seg = .ok ring
  groups : s.format.length % s.format.group = 0
  length_le : s.softBits.size ≤ maxCodewordLength
  count_before : before.count = seg.blocks
  count_combined : combined.count = seg.blocks
  advance : ∀ i < seg.blocks,
    Advance s.settings (Segmentation.blockCrc seg.blocks s.tbs) (s.format.codeblockAt seg ring i)
      (s.softBits.extract (s.format.start seg.blocks i) (s.format.start seg.blocks (i + 1)))
      ((s.opened before).block i) (combined.block i)
  blocks : result.blocks = seg.blocks
  decoded : result.statistics.count =
    (List.range seg.blocks).countP fun i => !((s.opened before).block i).passed
  /-- If nothing is decided, or nothing comes to an early stop, all codeblocks took their whole
  budget. -/
  undecided : (∀ i < seg.blocks, ((s.opened before).block i).passed = false ∧
      ((combined.block i).passed = false ∨ s.settings.earlyStop = false)) →
    result.statistics = .uniform seg.blocks s.settings.iterations
  verified : result.verified = true ↔ s.Passes seg combined
  /-- Several codeblocks that passed, but not together, are not trusted any more. -/
  buffer : r.buffer =
    if (∀ i < seg.blocks, (combined.block i).passed = true) ∧ result.verified = false
    then combined.clearPassed else combined
  block : r.block =
    if result.verified then Bits.pack ((s.assembled seg combined).extract 0 s.tbs) else s.block

/-- A session completes if the loop over its codeblocks does: nothing after the
loop can fail. -/
theorem run_of_addBlocks {seg : Segmentation} {ring : Nat} {buffer : HarqBuffer}
    {codeblocks : Array Codeblock} {a : Assembly} (hblock : s.block.size ≠ 0)
    (hlength : s.softBits.size ≤ maxCodewordLength)
    (hreceive : s.format.receive s.softBits.size s.tbs = .ok codeblocks)
    (hcodeblocks : codeblocks = (Array.range seg.blocks).map (s.format.codeblockAt seg ring))
    (hcount : buffer.count = seg.blocks)
    (hloop : ((List.range seg.blocks).map fun i => (s.format.codeblockAt seg ring i, i)).foldlM
      (Assembly.addBlock s.settings (Segmentation.blockCrc seg.blocks s.tbs) s.softBits
        (s.wanted seg)) (s.opening buffer) = .ok a) :
    s.run buffer = .ok (⟨seg.blocks, a.statistics, (a.verify seg.blocks).1⟩,
      ⟨s.settings, ⟨a.decoder, s.softBits⟩, (a.verify seg.blocks).2,
        if (a.verify seg.blocks).1 then Bits.pack (a.bits.extract 0 s.tbs) else s.block,
        true⟩) := by
  obtain ⟨-, -, -, -, -, -, -, -, hgroups⟩ := CodewordFormat.receive_eq_ok _ hreceive
  have horder : s.softBits.size % s.settings.modulation.order = 0 := by
    refine Nat.mod_eq_zero_of_dvd (Nat.dvd_trans ?_ (Nat.dvd_of_mod_eq_zero hgroups))
    exact Nat.dvd_mul_left _ _
  have hblocks : codeblocks.size = seg.blocks := by simp [hcodeblocks]
  have hindexed : codeblocks.zipIdx.toList =
      (List.range seg.blocks).map fun i => (s.format.codeblockAt seg ring i, i) := by
    rw [hcodeblocks, zipIdx_codeblocks]
  rw [← hblocks]
  refine s.run_eq_ok_iff.mpr ⟨hblock, hlength, horder, codeblocks, a, hreceive,
    hblocks.trans hcount.symm, ?_, rfl, rfl⟩
  rw [← Array.foldlM_toList, hindexed, hblocks]
  exact hloop

/-- Every session that completes has an outcome. All that is proved of sessions
is read off this record. -/
theorem run_eq_ok {before : HarqBuffer} {result : SchResult} {r : Reception}
    (h : s.run before = .ok (result, r)) :
    ∃ seg ring combined, s.Outcome before seg ring combined result r := by
  obtain ⟨-, hlength, -, codeblocks, a, hreceive, hcount, hloop, rfl, rfl⟩ := s.run_eq_ok_iff.mp h
  obtain ⟨seg, ring, -, hsound, hfound, -, hring, hcodeblocks, hgroups⟩ :=
    CodewordFormat.receive_eq_ok _ hreceive
  have hblocks : codeblocks.size = seg.blocks := by simp [hcodeblocks]
  have hindexed : codeblocks.zipIdx.toList =
      (List.range seg.blocks).map fun i => (s.format.codeblockAt seg ring i, i) := by
    rw [hcodeblocks, zipIdx_codeblocks]
  rw [← Array.foldlM_toList, hindexed, hblocks] at hloop
  have htaken : ∀ i < seg.blocks, (s.format.codeblockAt seg ring i).breakdown.2 =
      s.takenLength seg := fun i _ => by
    rw [CodewordFormat.breakdown_codeblockAt hsound, takenLength]
  -- the loop gives the outcome but for the verification, which comes after it
  have hvisited := addBlocks_eq_ok htaken rfl hloop
  have hbits : a.bits = s.assembled seg a.buffer := hvisited.bits_eq
  rw [hblocks] at hcount
  obtain ⟨hpasses, hbuffer⟩ :=
    a.verify_eq (hvisited.count_eq.trans ((s.count_opened before).trans hcount.symm))
  rw [hbits] at hpasses
  rw [hblocks, hbits]
  refine ⟨seg, ring, a.buffer, hsound, hfound, hring, hgroups, hlength, hcount.symm, ?_,
    fun i hi => (hvisited.advanced i hi).2, rfl, ?_, hvisited.uniform rfl, hpasses, hbuffer, rfl⟩
  · rw [hvisited.count_eq, hcount]
    exact s.count_opened before
  · rw [hvisited.decoded_eq]
    exact Nat.zero_add _

/-- Without an early stop a session takes the whole budget for every codeblock
that has not passed before. If none has, it completes only if the machine can
count all of this. -/
theorem budget_lt_of_run {buffer : HarqBuffer} {seg : Segmentation} {result : SchResult}
    {r : Reception} (h : s.run buffer = .ok (result, r))
    (hfound : Segmentation.ofSize s.settings.base s.tbs = .ok seg)
    (hpatient : s.settings.earlyStop = false)
    (hopened : ∀ i < seg.blocks, ((s.opened buffer).block i).passed = false) :
    seg.blocks * s.settings.iterations < Size.limit := by
  obtain ⟨seg', ring, combined, houtcome⟩ := s.run_eq_ok h
  obtain rfl := Except.ok.inj (houtcome.found.symm.trans hfound)
  have htotal : result.statistics.total < Size.limit := s.total_lt_of_run h
  rwa [houtcome.undecided fun i hi => ⟨hopened i hi, .inr hpatient⟩,
    IterationStatistics.total_uniform] at htotal

namespace Outcome

variable {s} {before combined : HarqBuffer} {seg : Segmentation} {ring i : Nat} {result : SchResult}
  {r : Reception}

/-- The codeblocks could be read. -/
theorem readable (h : s.Outcome before seg ring combined result r) :
    s.format.Readable s.tbs seg ring := by
  -- the first codeblock was dematched, so its walk was admitted
  obtain ⟨-, -, hselection, -⟩ := Codeblock.rateDematch_eq_ok
    (CodewordFormat.sound_codeblockAt h.sound h.buffered 0).toLaid
    (h.advance 0 h.sound.blocks_pos).combined
  obtain ⟨-, -, hrv, hroom, -⟩ := Codeblock.selection_eq_ok hselection
  exact ⟨h.sound, h.groups, h.buffered, hrv, hroom⟩

theorem count_buffer (h : s.Outcome before seg ring combined result r) :
    r.buffer.count = seg.blocks := by
  rw [h.buffer]
  split
  · rw [HarqBuffer.count_clearPassed, h.count_combined]
  · exact h.count_combined

/-- The final verification takes flags back, if anything; soft bits and messages
stay. -/
theorem block_buffer (h : s.Outcome before seg ring combined result r) (i : Nat) :
    (r.buffer.block i).soft = (combined.block i).soft ∧
      (r.buffer.block i).message = (combined.block i).message ∧
      ((r.buffer.block i).passed = true → (combined.block i).passed = true) := by
  rw [h.buffer]
  split
  · rw [HarqBuffer.block_clearPassed]
    exact ⟨rfl, rfl, fun h => Bool.noConfusion h⟩
  · exact ⟨rfl, rfl, id⟩

/-- The messages that are kept have the length of the segmentation. -/
theorem size_message (h : s.Outcome before seg ring combined result r) (hi : i < seg.blocks) :
    (r.buffer.block i).message.size = seg.messageLength := by
  rw [(h.block_buffer i).2.1, (h.advance i hi).size_message,
    CodewordFormat.breakdown_codeblockAt h.sound]

/-- All flags are set after a session exactly if it verified the transport
block, so that a block is never kept as passed without its result. -/
theorem all_passed_iff (h : s.Outcome before seg ring combined result r) :
    (∀ i < seg.blocks, (r.buffer.block i).passed = true) ↔ result.verified = true := by
  constructor
  · intro hall
    by_contra hnot
    have hcombined : ∀ i < seg.blocks, (combined.block i).passed = true := fun i hi =>
      (h.block_buffer i).2.2 (hall i hi)
    -- without verification all flags would have been taken back
    have hfirst := hall 0 h.sound.blocks_pos
    rw [h.buffer, if_pos ⟨hcombined, Bool.eq_false_iff.mpr hnot⟩, HarqBuffer.block_clearPassed]
      at hfirst
    cases hfirst
  · intro hverified
    rw [h.buffer, if_neg (by rw [hverified]; exact fun h => Bool.noConfusion h.2)]
    exact (h.verified.mp hverified).1

end Outcome

end Session

end Uplink
