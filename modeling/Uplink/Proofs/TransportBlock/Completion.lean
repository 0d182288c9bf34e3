import Uplink.Proofs.TransportBlock.Session

/-!
# Sessions complete

A session whose requirements are met comes to its end, whatever its soft bits are and whatever the
combining buffer holds.

- `Decoder.exists_decode`: the decoder answers, within its budget.
- `Assembly.exists_addBlock`: the next codeblock is taken in.
- `Session.exists_run`: all of them, and the transport block is verified.
- `Session.Suits`, `Suits.exists_run`: the sessions on a transport block of some size complete on
  every buffer of its codeblocks.
-/

namespace Uplink

open Ldpc

/-! ## Decisions -/

namespace Ldpc

/-- The sweeps that are reported are among those that were allowed. The
induction is on the sweeps that are left, with those already made as a
parameter. -/
theorem Workspace.le_of_sweepUntil {graph : LiftedGraph} {scale : Float32} {crc : Crc} {n : Nat}
    {budget made k : Nat} {w w' : Workspace}
    (h : w.sweepUntil graph scale crc n budget made = (some k, w')) : k ≤ made + budget := by
  induction budget generalizing made w with
  | zero => cases h
  | succ budget ih =>
    rw [sweepUntil] at h
    split at h
    · obtain ⟨hk, -⟩ := Prod.mk.inj h
      have := Option.some.inj hk
      omega
    · have := ih h
      omega

/-- The decoder answers whenever its requirements are met, with no more
iterations than its budget. -/
theorem Decoder.exists_decode (decoder : Decoder) {settings : DecoderSettings} (crc : Option Crc)
    {input : Array SoftBit} (hz : settings.liftingSize ∈ liftingSizes)
    (hinput : input.size = settings.base.sentLength settings.liftingSize)
    (hiterations : 0 < settings.iterations)
    (hfillers : settings.fillers ≤ settings.base.messageLength settings.liftingSize) :
    ∃ decision decoder',
      decoder.decode settings crc input (settings.base.messageLength settings.liftingSize) =
        .ok (decision, decoder') ∧
      decision.iterations.getD settings.iterations ≤ settings.iterations := by
  obtain ⟨graph, store, hfetch⟩ := decoder.store.exists_fetch settings.base hz
  refine ⟨_, _,
    decode_eq_ok_iff.mpr ⟨graph, store, hfetch, hinput, rfl, hiterations, hfillers, rfl⟩, ?_⟩
  -- without a check there is no early stop, and no number of sweeps to report
  cases crc with
  | none =>
    dsimp only
    split <;> exact Nat.le_refl _
  | some crc =>
    dsimp only
    cases hpassed : (Workspace.load graph input).sweepUntil graph settings.scale crc
        (significant settings) settings.iterations 0 with
    | mk passed w =>
      cases passed with
      | none => exact Nat.le_refl _
      | some k =>
        have hk := Workspace.le_of_sweepUntil hpassed
        rwa [Nat.zero_add] at hk

end Ldpc

/-- A codeblock is decided whenever the requirements of the decoder are met. -/
theorem ReceptionSettings.exists_decodeBlock {settings : ReceptionSettings} (decoder : Decoder)
    (crc : Crc) {c : Codeblock} {soft : Array SoftBit} (hc : c.Sound)
    (hsoft : soft.size = c.sentLength) (hiterations : 0 < settings.iterations)
    (hfillers : c.fillers ≤ c.messageLength) :
    ∃ decision decoder',
      settings.decodeBlock decoder crc c soft c.messageLength = .ok (decision, decoder') ∧
      decision.iterations.getD settings.iterations ≤ settings.iterations := by
  -- the same requirements with and without an early stop
  have hanswer : ∀ crc', ∃ decision decoder',
      decoder.decode ⟨c.base, c.liftingSize, c.fillers, settings.iterations, messageScale⟩ crc' soft
        c.messageLength = .ok (decision, decoder') ∧
      decision.iterations.getD settings.iterations ≤ settings.iterations := fun crc' =>
    decoder.exists_decode crc' hc.liftingSize_mem (hsoft.trans hc.sentLength_eq) hiterations
      hfillers
  unfold decodeBlock
  dsimp only
  split
  · exact hanswer (some crc)
  · obtain ⟨decision, decoder', hdecode, -⟩ := hanswer .none
    rw [hdecode, ok_bind]
    refine ⟨_, decoder', rfl, ?_⟩
    dsimp only
    split <;> exact Nat.le_refl _

/-! ## Codeblocks -/

namespace IterationStatistics

/-- One more codeblock can be counted, as long as the count and the sum stay
below the limit of the machine. -/
theorem exists_record {s : IterationStatistics} {k : Nat} (hcount : s.count + 1 < Size.limit)
    (htotal : s.total + k < Size.limit) :
    ∃ s', s.record k = .ok s' ∧ s'.count = s.count + 1 ∧ s'.total = s.total + k := by
  rw [record, Size.add_of_lt hcount, ok_bind, Size.add_of_lt htotal, ok_bind]
  exact ⟨_, rfl, rfl, rfl⟩

end IterationStatistics

namespace Assembly

variable {settings : ReceptionSettings} {crc : Crc} {softBits soft : Array SoftBit} {limit i : Nat}
  {c : Codeblock} {a : Assembly}

/-- A visit to a codeblock that is decoded, from what its stages give. -/
theorem addBlock_of_decoded {decision : Decision} {decoder' : Decoder}
    {statistics : IterationStatistics} (hi : i < a.buffer.count) (hstop : c.stop ≤ softBits.size)
    (hpassed : (a.buffer.block i).passed = false)
    (hsoft : c.rateDematch ((a.buffer.block i).fit c.sentLength c.breakdown.1).soft
      (softBits.extract c.offset c.stop) settings.newData = .ok soft)
    (hdecode : settings.decodeBlock a.decoder crc c soft c.breakdown.1 = .ok (decision, decoder'))
    (hrecord : a.statistics.record (decision.iterations.getD settings.iterations) =
      .ok statistics) :
    addBlock settings crc softBits limit a (c, i) = .ok
      { decoder := decoder'
        buffer := a.buffer.store i ⟨soft, decision.message, decision.iterations.isSome⟩
        statistics
        bits := a.bits ++
          decision.message.extract 0 (min c.breakdown.2 (limit - a.bits.size)) } := by
  have hspan : Buffer.span softBits c.offset c.stop = .ok (softBits.extract c.offset c.stop) :=
    Buffer.span_of_le (Nat.le_add_right _ _) hstop
  unfold addBlock
  dsimp only
  rw [HarqBuffer.borrow_eq_ok.mpr ⟨hi, rfl⟩, ok_bind, hspan, ok_bind, hsoft, ok_bind, decodeStored,
    if_neg (by rw [StoredBlock.passed_fit, hpassed]; exact Bool.false_ne_true)]
  dsimp only
  rw [StoredBlock.size_message_fit, hdecode, ok_bind]
  dsimp only
  rw [hrecord, ok_bind]
  rfl

/-- A visit to a codeblock that has passed before: it is combined, and neither
decoded nor counted. -/
theorem addBlock_of_passed (hi : i < a.buffer.count) (hstop : c.stop ≤ softBits.size)
    (hpassed : (a.buffer.block i).passed = true)
    (hsoft : c.rateDematch ((a.buffer.block i).fit c.sentLength c.breakdown.1).soft
      (softBits.extract c.offset c.stop) settings.newData = .ok soft) :
    ∃ a', addBlock settings crc softBits limit a (c, i) = .ok a' ∧
      a'.buffer.count = a.buffer.count ∧ a'.statistics = a.statistics := by
  have hspan : Buffer.span softBits c.offset c.stop = .ok (softBits.extract c.offset c.stop) :=
    Buffer.span_of_le (Nat.le_add_right _ _) hstop
  unfold addBlock
  dsimp only
  rw [HarqBuffer.borrow_eq_ok.mpr ⟨hi, rfl⟩, ok_bind, hspan, ok_bind, hsoft, ok_bind, decodeStored,
    if_pos (by rw [StoredBlock.passed_fit, hpassed])]
  exact ⟨_, rfl, HarqBuffer.count_store _ _ _, rfl⟩

/-- The next codeblock is taken in, whatever is stored of it and whatever comes.
The budget of the codeblocks so far bounds what has been counted. -/
theorem exists_addBlock {format : CodewordFormat} {tbs ring : Nat} {seg : Segmentation}
    (h : format.Readable tbs seg ring) (hsize : softBits.size = format.length)
    (hiterations : 0 < settings.iterations) (hi : i < seg.blocks)
    (hcount : a.buffer.count = seg.blocks)
    (hcounted : a.statistics.count ≤ i) (htotal : a.statistics.total ≤ i * settings.iterations)
    (hlimit : i + 1 < Size.limit) (hbudget : (i + 1) * settings.iterations < Size.limit) :
    ∃ a', addBlock settings crc softBits limit a (format.codeblockAt seg ring i, i) = .ok a' ∧
      a'.buffer.count = seg.blocks ∧ a'.statistics.count ≤ i + 1 ∧
      a'.statistics.total ≤ (i + 1) * settings.iterations := by
  -- the budget of one codeblock more
  rw [Nat.add_one_mul] at hbudget ⊢
  set c := format.codeblockAt seg ring i
  have hstored : ((a.buffer.block i).fit c.sentLength c.breakdown.1).soft.size = c.sentLength :=
    StoredBlock.size_soft_fit
  obtain ⟨soft, hsoft, hsoftSize, -⟩ := h.exists_rateDematch hsize hi settings.newData hstored
  have hi' : i < a.buffer.count := by rwa [hcount]
  cases hpassed : (a.buffer.block i).passed with
  | true =>
    obtain ⟨a', hstep, hcount', hstatistics⟩ :=
      @addBlock_of_passed settings crc softBits soft limit i c a hi' (h.stop_le hsize hi) hpassed
        hsoft
    refine ⟨a', hstep, hcount'.trans hcount, ?_⟩
    rw [hstatistics]
    exact ⟨Nat.le_succ_of_le hcounted, Nat.le_trans htotal (Nat.le_add_right _ _)⟩
  | false =>
    obtain ⟨decision, decoder', hdecode, hmade⟩ :=
      ReceptionSettings.exists_decodeBlock a.decoder crc (h.soundAt i) hsoftSize hiterations
        h.fillers_le
    rw [← h.breakdown] at hdecode
    obtain ⟨statistics, hrecord, hcount', htotal'⟩ := IterationStatistics.exists_record
      (s := a.statistics) (k := decision.iterations.getD settings.iterations) (by omega) (by omega)
    refine
      ⟨_, addBlock_of_decoded hi' (h.stop_le hsize hi) hpassed hsoft hdecode hrecord, ?_, ?_, ?_⟩
    · exact (HarqBuffer.count_store _ _ _).trans hcount
    · show statistics.count ≤ i + 1
      omega
    · show statistics.total ≤ _
      omega

end Assembly

/-! ## Sessions -/

/-- A session completes if its codeblocks can be read and the buffer has as
many. -/
theorem Session.exists_run (s : Session) {codeblocks : Array Codeblock} {buffer : HarqBuffer}
    (hblock : s.block.size ≠ 0) (hlength : s.softBits.size ≤ maxCodewordLength)
    (hreceive : s.format.receive s.softBits.size s.tbs = .ok codeblocks)
    (hcount : buffer.count = codeblocks.size) (hrv : s.settings.rv < 4)
    (hroom : ∀ c ∈ codeblocks, c.fillers < c.bufferLength) (hiterations : 0 < s.settings.iterations)
    (hbudget : codeblocks.size * s.settings.iterations < Size.limit) :
    ∃ result r, s.run buffer = .ok (result, r) := by
  obtain ⟨seg, ring, -, hsound, -, -, hbuffered, hcodeblocks, hgroups⟩ :=
    CodewordFormat.receive_eq_ok _ hreceive
  have hblocks : codeblocks.size = seg.blocks := by simp [hcodeblocks]
  rw [hblocks] at hcount hbudget
  have hreadable : s.format.Readable s.tbs seg ring := by
    refine ⟨hsound, hgroups, hbuffered, hrv, ?_⟩
    refine hroom (s.format.codeblockAt seg ring 0) ?_
    rw [hcodeblocks]
    exact Array.mem_map_of_mem (Array.mem_range.mpr hsound.blocks_pos)
  -- both counters of the statistics stay within the budget
  have hfew : seg.blocks ≤ seg.blocks * s.settings.iterations :=
    Nat.le_mul_of_pos_right _ hiterations
  obtain ⟨a, hloop, -⟩ := foldlM_total
    (f := fun b i => Assembly.addBlock s.settings (Segmentation.blockCrc seg.blocks s.tbs)
      s.softBits (s.wanted seg) b (s.format.codeblockAt seg ring i, i))
    (l := List.range seg.blocks) (b := s.opening buffer)
    (fun seen (b : Assembly) => b.buffer.count = seg.blocks ∧ b.statistics.count ≤ seen.length ∧
      b.statistics.total ≤ seen.length * s.settings.iterations)
    ⟨(s.count_opened buffer).trans hcount, Nat.le_refl _, Nat.zero_le _⟩ (by
    rintro seen i rest b hsplit ⟨hcount, hcounted, htotal⟩
    obtain ⟨rfl, hi⟩ := range_split hsplit
    rw [List.length_range] at hcounted htotal
    have hnext : (i + 1) * s.settings.iterations ≤ seg.blocks * s.settings.iterations :=
      Nat.mul_le_mul_right _ hi
    rw [List.length_append, List.length_range, List.length_singleton]
    exact Assembly.exists_addBlock hreadable rfl hiterations hi hcount hcounted htotal (by omega)
      (by omega))
  rw [← List.foldlM_map (g := fun b block => Assembly.addBlock s.settings
    (Segmentation.blockCrc seg.blocks s.tbs) s.softBits (s.wanted seg) b block)] at hloop
  exact ⟨_, _, s.run_of_addBlocks hblock hlength hreceive hcodeblocks hcount hloop⟩

namespace Session

/-- A session is about a transport block that is cut as in `seg`, and sends
whole groups of it into circular buffers that hold more than the fillers. -/
structure Suits (s : Session) (base : BaseGraph) (tbs : Nat) (seg : Segmentation) : Prop where
  base_eq : s.settings.base = base
  tbs_eq : s.tbs = tbs
  rv_lt : s.settings.rv < 4
  layers_pos : 0 < s.settings.layers
  iterations_pos : 0 < s.settings.iterations
  groups : s.softBits.size % s.format.group = 0
  length_le : s.softBits.size ≤ maxCodewordLength
  room : seg.fillers < s.format.ringLength seg
  -- sizes of the machine
  group_lt : s.format.group < Size.limit
  buffer_lt : 3 * s.settings.bufferLimit < Size.limit
  budget_lt : seg.blocks * s.settings.iterations < Size.limit

/-- Such a session completes on every buffer of as many codeblocks, whatever was
stored there before. -/
theorem Suits.exists_run {s : Session} {base : BaseGraph} {tbs : Nat} {seg : Segmentation}
    {buffer : HarqBuffer} (h : s.Suits base tbs seg)
    (hfound : Segmentation.ofSize base tbs = .ok seg) (htbs : 2 * tbs < Size.limit)
    (hcount : buffer.count = seg.blocks) : ∃ result r, s.run buffer = .ok (result, r) := by
  have hsound := Segmentation.ofSize_eq_ok hfound
  have hpos := hsound.tbs_pos
  obtain ⟨rfl, rfl, hrv, hlayers, hiterations, hgroups, hlength, hroom, hgroup, hbuffer,
    hbudget⟩ := h
  have hne : s.format.group ≠ 0 :=
    Nat.mul_ne_zero (Nat.ne_of_gt hlayers) (Nat.ne_of_gt s.settings.modulation.order_pos)
  obtain ⟨codeblocks, hreceive⟩ :=
    s.format.exists_receive hpos htbs hne hgroup hgroups hbuffer
  obtain ⟨seg', ring, -, -, hfound', -, hring, hcodeblocks, -⟩ :=
    CodewordFormat.receive_eq_ok _ hreceive
  obtain rfl : seg' = seg := Except.ok.inj (hfound'.symm.trans hfound)
  have hblocks : codeblocks.size = seg'.blocks := by simp [hcodeblocks]
  have hblock : s.block.size ≠ 0 := by
    intro hzero
    rw [tbs, hzero] at hpos
    exact Nat.lt_irrefl 0 hpos
  refine s.exists_run hblock hlength hreceive (hcount.trans hblocks.symm) hrv (fun c hc => ?_)
    hiterations (hblocks ▸ hbudget)
  rw [hcodeblocks] at hc
  obtain ⟨i, -, rfl⟩ := Array.mem_map.mp hc
  show seg'.fillers < ring
  rwa [CodewordFormat.bufferLength_eq_ok hring]

end Session

end Uplink
