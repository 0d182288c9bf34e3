import Uplink.Proofs.TransportBlock.Completion
import Uplink.Proofs.TransportBlock.Reassembly

/-!
# A codeword without errors is received

The two halves meet at `Carries`. The sending side produces a codeword that carries the encoded
messages; the receiving side gets back soft bits that favour it, whatever their magnitudes. From
there on each codeblock is decoded in a single sweep, and the messages give back the transport
block.

- `Faithful.favour`: soft bits that favour the bits of a codeword.
- `Carries.favours`: after dematching, they favour the sent word of every codeblock, fillers
  included.
- `Carries.exists_addBlocks`: all codeblocks are accepted after one sweep.
- `exists_carries`, `Carries.run_eq_ok`: the sending and the receiving half of the round trip.
- `receive_of_encode`: the round trip.
-/

namespace Uplink

open Ldpc

/-! ## Soft bits of a codeword -/

/-- Where the codeword has a bit, the soft bit is in reach and on its side. -/
theorem Faithful.favour {w : Bits} {softBits : Array SoftBit} (h : Faithful w softBits) {i : Nat}
    (hi : i < w.size) : (softBits.getD i SoftBit.erased).InReach ∧
      (softBits.getD i SoftBit.erased).favour = bitSide (w.getD i 0) := by
  rw [bitSide]
  by_cases hbit : w.getD i 0 = 0
  · rw [if_pos hbit]
    exact h.of_zero hi hbit
  · rw [if_neg hbit]
    exact h.of_one hi hbit

/-! ## Dematched codeblocks -/

/-- The first redundancy version of a codeword sends at least the bits of every
codeblock, and the circular buffers hold at least the messages. -/
structure Covers (format : CodewordFormat) (tbs : Nat) (seg : Segmentation) (ring : Nat) : Prop
    extends format.Readable tbs seg ring where
  rv : format.rv = 0
  matched : ∀ i < seg.blocks, seg.blockLength ≤ format.share seg.blocks i
  ring_ge : seg.messageLength ≤ ring

namespace Covers

variable {format : CodewordFormat} {seg : Segmentation} {tbs ring i : Nat}

/-- Every codeblock has a bit of the codeword of its own. -/
theorem blocks_le (h : Covers format tbs seg ring) : seg.blocks ≤ format.length := by
  have hpos := h.sound.blockLength_pos
  -- each codeblock takes at least one bit, so the spans begin further and further on
  suffices ∀ i ≤ seg.blocks, i ≤ format.start seg.blocks i by
    rw [← format.start_blocks h.sound.blocks_pos h.groups]
    exact this _ (Nat.le_refl _)
  intro i hi
  induction i with
  | zero => exact Nat.zero_le _
  | succ i ih =>
    have hshare := h.matched i hi
    have hstart := ih (by omega)
    rw [CodewordFormat.start]
    omega

/-- Positions up to the second parity column, fillers apart, are all read in the
first round, as the reading starts at position zero. -/
theorem exists_arrival (h : Covers format tbs seg ring) (hi : i < seg.blocks)
    (received : Array SoftBit) {p : Nat} (hp : p < seg.messageLength)
    (hread : (format.codeblockAt seg ring i).walkOf.isFiller p = false) :
    (format.codeblockAt seg ring i).arrivals received p ≠ [] := by
  have hproper := h.proper i
  set c := format.codeblockAt seg ring i with hc
  have hstart : c.walkOf.start = 0 := by
    have hfirst : (Codeblock.startFractions c.base).1.getD c.rv 0 = 0 := by
      rw [hc, CodewordFormat.codeblockAt, h.rv]
      cases seg.base <;> rfl
    show Codeblock.startPosition c = 0
    rw [Codeblock.startPosition]
    dsimp only
    rw [hfirst, Nat.zero_mul, Nat.zero_div, Nat.zero_mul]
  -- the positions before `p` that are read are fewer than the bits of the codeblock
  have hrank : c.walkOf.rank p < seg.blockLength := by
    have hfill := h.sound.blockLength_add_fillers
    have hpunctured := h.sound.punctured_le
    rw [Selection.isFiller_eq_false, hc, CodewordFormat.fillerStart_codeblockAt h.sound,
      CodewordFormat.fillerStop_codeblockAt h.sound] at hread
    rw [Selection.rank, hc, CodewordFormat.fillerStart_codeblockAt h.sound,
      CodewordFormat.fillerStop_codeblockAt h.sound]
    omega
  have hposition := Selection.position_rank hproper hstart hread (Nat.lt_of_lt_of_le hp h.ring_ge)
  refine List.ne_nil_of_mem (List.mem_map_of_mem (a := c.walkOf.rank p) ?_)
  rw [List.mem_filter, List.mem_range, decide_eq_true_iff]
  exact ⟨Nat.lt_of_lt_of_le hrank (h.matched i hi), hposition⟩

end Covers

namespace Carries

variable {format : CodewordFormat} {seg : Segmentation} {tbs ring : Nat} {graph : LiftedGraph}
  {message : Nat → Bits} {w : Bits} {softBits : Array SoftBit} {i : Nat}

/-- What comes back to a position favours the bit that was read there: reading
and dematching use the same walk and the same interleaver. -/
theorem arrivals_favour (h : Carries format seg ring graph message w) (hsoft : Faithful w softBits)
    (hcovers : Covers format tbs seg ring) (hi : i < seg.blocks) (p : Nat) :
    ∀ a ∈ (format.codeblockAt seg ring i).arrivals
        (softBits.extract (format.start seg.blocks i) (format.start seg.blocks (i + 1))) p,
      a.InReach ∧ a.favour = bitSide ((graph.sentPart (graph.codeword (message i))).getD p 0) := by
  intro a ha
  obtain ⟨k, hk, rfl⟩ := List.mem_map.mp ha
  rw [List.mem_filter, List.mem_range, decide_eq_true_iff] at hk
  obtain ⟨hk, rfl⟩ := hk
  change k < format.share seg.blocks i at hk
  -- the place stays in the span of the codeblock, and the span in the codeword
  have hplace : (format.codeblockAt seg ring i).interleaved k < format.share seg.blocks i :=
    Codeblock.interleaved_lt (c := format.codeblockAt seg ring i)
      (format.share_mod_order seg.blocks i) hk
  have hstop : format.start seg.blocks i + format.share seg.blocks i ≤ w.size := by
    have hle : (format.codeblockAt seg ring i).stop ≤ format.length :=
      format.stop_le hcovers.sound hcovers.groups hi
    rwa [format.stop_codeblockAt, CodewordFormat.start, ← h.size] at hle
  have hlt : format.start seg.blocks i + (format.codeblockAt seg ring i).interleaved k <
      format.start seg.blocks (i + 1) := by
    rw [CodewordFormat.start]
    omega
  rw [Buffer.getD_extract _ _ _ _ _ hlt, ← h.bit i hi k hk]
  exact hsoft.favour (by omega)

/-- The sent bits of filler positions are zeros. -/
theorem sent_filler (hsound : seg.Sound format.base tbs) (hbase : graph.base = seg.base)
    (hz : graph.liftingSize = seg.liftingSize) (hholds : seg.Holds tbs message)
    (hi : i < seg.blocks) {p : Nat} (hfiller : seg.IsFiller p) :
    (graph.sentPart (graph.codeword (message i))).getD p 0 = 0 := by
  obtain ⟨hge, hlt⟩ := hfiller
  have hsize : (message i).size = graph.base.messageLength graph.liftingSize := by
    rw [hholds.size i hi, hbase, hz, hsound.messageLength_eq, hsound.base_eq]
  have hword : (message i).size ≤ (graph.codeword (message i)).size := by
    rw [graph.size_codeword hsize, hsize]
    exact Nat.mul_le_mul_right _ (Nat.le_add_right _ _)
  rw [← hholds.size i hi] at hlt
  rw [graph.getD_sentPart (by rw [hz]; omega), hz, graph.getD_codeword _ hlt,
    hholds.fillers i hi _ hge]

/-- After dematching the soft bits favour the sent word, and all of it is known
that the decoder needs. Fillers are known, being zeros on both sides. -/
theorem favours (h : Carries format seg ring graph message w) (hsoft : Faithful w softBits)
    (hcovers : Covers format tbs seg ring) (hbase : graph.base = seg.base)
    (hz : graph.liftingSize = seg.liftingSize) (hholds : seg.Holds tbs message)
    (hi : i < seg.blocks) {stored soft : Array SoftBit}
    (hsoftSize : soft.size = seg.base.sentLength seg.liftingSize)
    (hcombined : ∀ p < seg.base.sentLength seg.liftingSize, soft.getD p SoftBit.erased =
      (format.codeblockAt seg ring i).combined stored
        (softBits.extract (format.start seg.blocks i) (format.start seg.blocks (i + 1))) true p) :
    Favours graph (graph.codeword (message i)) soft := by
  have hsound := hcovers.sound
  set c := format.codeblockAt seg ring i with hc
  have hgraph : graph.base.messageLength graph.liftingSize = seg.messageLength := by
    rw [hbase, hz, hsound.messageLength_eq, hsound.base_eq]
  have harrivals := h.arrivals_favour hsoft hcovers hi
  -- filler positions are certain of a zero, and hold one
  have hfiller : ∀ p < seg.base.sentLength seg.liftingSize, c.walkOf.isFiller p = true →
      (soft.getD p SoftBit.erased).favour =
        bitSide ((graph.sentPart (graph.codeword (message i))).getD p 0) := by
    intro p hp hfiller
    rw [hcombined p hp, Codeblock.combined, if_pos hfiller, SoftBit.favour_certainZero,
      sent_filler hsound hbase hz hholds hi
        ((CodewordFormat.isFiller_codeblockAt hsound).mp hfiller)]
    rfl
  refine ⟨by rw [hsoftSize, hbase, hz], fun p hp => ?_, fun p hp => ?_⟩
  · rw [hsoftSize] at hp
    by_cases hread : c.walkOf.isFiller p = true
    · exact .inr (hfiller p hp hread)
    · rw [hcombined p hp, Codeblock.combined, if_neg hread, if_pos rfl]
      -- a position that nothing came back to says nothing
      by_cases hnone : c.arrivals (softBits.extract (format.start seg.blocks i)
          (format.start seg.blocks (i + 1))) p = []
      · rw [hnone]
        exact .inl rfl
      · exact .inr (SoftBit.favour_foldl (harrivals p) hnone)
  · rw [hgraph] at hp
    have hsent : p < seg.base.sentLength seg.liftingSize :=
      Nat.lt_of_lt_of_le hp
        (Nat.le_trans hcovers.ring_ge (CodewordFormat.bufferLength_le hcovers.buffered))
    by_cases hread : c.walkOf.isFiller p = true
    · exact hfiller p hsent hread
    · rw [hcombined p hsent, Codeblock.combined, if_neg hread, if_pos rfl]
      exact SoftBit.favour_foldl (harrivals p)
        (hcovers.exists_arrival hi _ hp (Bool.eq_false_iff.mpr hread))

end Carries

/-! ## Decoding all codeblocks -/

/-- A codeblock whose soft bits favour its word is accepted after one sweep,
with the message that was sent. -/
theorem ReceptionSettings.decodeBlock_of_favours {settings : ReceptionSettings} {crc : Crc}
    {c : Codeblock} {graph : LiftedGraph} {message : Bits} {soft : Array SoftBit}
    (hearly : settings.earlyStop = true) (hiterations : 0 < settings.iterations)
    (hbase : graph.base = c.base) (hz : graph.liftingSize = c.liftingSize)
    (hbits : message.HasOnly01) (hsize : message.size = c.messageLength)
    (hfillers : c.fillers ≤ c.messageLength)
    (hcheck : crc.ofBits (message.extract 0 (c.messageLength - c.fillers)) = 0)
    (hsoft : Favours graph (graph.codeword message) soft) (decoder : Decoder) :
    ∃ decoder', settings.decodeBlock decoder crc c soft c.messageLength =
      .ok (⟨some 1, message⟩, decoder') := by
  have hscale : Single.KeepsSide messageScale := keepsSide_messageScale
  have hlength : message.size = graph.base.messageLength graph.liftingSize := by
    rw [hsize, hbase, hz]
    rfl
  obtain ⟨decoder', hdecode⟩ : ∃ decoder',
      decoder.decode ⟨c.base, c.liftingSize, c.fillers, settings.iterations, messageScale⟩
        (some crc) soft message.size = .ok (⟨some 1, message⟩, decoder') :=
    decoder.decode_of_favours hbase hz hscale hiterations hbits hlength (by rwa [hsize]) hcheck
      hsoft
  refine ⟨decoder', ?_⟩
  rw [decodeBlock, if_pos hearly, ← hsize]
  exact hdecode

namespace IterationStatistics

/-- The statistics of `n` codeblocks that took one iteration each. -/
def ones (n : Nat) : IterationStatistics :=
  ⟨n, n, if n = 0 then .none else some 1, if n = 0 then .none else some 1⟩

theorem record_ones {n : Nat} (h : n + 1 < Size.limit) :
    (ones n).record 1 = .ok (ones (n + 1)) := by
  rw [record, ones, Size.add_of_lt h, ok_bind, ok_bind]
  by_cases hn : n = 0
  · subst hn
    rfl
  · simp [ones, hn]

end IterationStatistics

namespace Carries

variable {settings : ReceptionSettings} {length tbs ring : Nat} {seg : Segmentation}
  {graph : LiftedGraph} {message : Nat → Bits} {w : Bits} {softBits : Array SoftBit} {a : Assembly}

/-- The next codeblock is accepted after one sweep: its soft bits favour the
word of its message. -/
theorem exists_addBlock (h : Carries (settings.format length) seg ring graph message w)
    (hsoft : Faithful w softBits) (hcovers : Covers (settings.format length) tbs seg ring)
    (hbase : graph.base = seg.base) (hz : graph.liftingSize = seg.liftingSize)
    (hholds : seg.Holds tbs message) (hearly : settings.earlyStop = true)
    (hnew : settings.newData = true) (hiterations : 0 < settings.iterations) {i : Nat}
    (hi : i < seg.blocks) (hcount : a.buffer.count = seg.blocks)
    (hpassed : (a.buffer.block i).passed = false)
    (hstatistics : a.statistics = IterationStatistics.ones i) (hlimit : i + 1 < Size.limit)
    (limit : Nat) :
    ∃ soft a', Assembly.addBlock settings (Segmentation.blockCrc seg.blocks tbs) softBits limit a
        ((settings.format length).codeblockAt seg ring i, i) = .ok a' ∧
      a'.buffer = a.buffer.store i ⟨soft, message i, true⟩ ∧
      a'.statistics = IterationStatistics.ones (i + 1) := by
  set c := (settings.format length).codeblockAt seg ring i
  have hstored : ((a.buffer.block i).fit c.sentLength c.breakdown.1).soft.size = c.sentLength :=
    StoredBlock.size_soft_fit
  have hsize : softBits.size = (settings.format length).length := hsoft.size.trans h.size
  obtain ⟨soft, hdematch, hsoftSize, hcombined⟩ :=
    hcovers.exists_rateDematch hsize hi settings.newData hstored
  rw [hnew] at hcombined
  have hfavours := h.favours hsoft hcovers hbase hz hholds hi hsoftSize hcombined
  have hcheck := hholds.check i hi
  have hsignificant : c.messageLength - c.fillers = seg.blockLength := by
    rw [show c.messageLength = _ from hcovers.messageLength,
      ← hcovers.sound.blockLength_add_fillers]
    exact Nat.add_sub_cancel _ _
  rw [← hsignificant] at hcheck
  obtain ⟨decoder', hdecode⟩ := ReceptionSettings.decodeBlock_of_favours hearly hiterations hbase hz
    (hholds.bits i hi) ((hholds.size i hi).trans hcovers.messageLength.symm) hcovers.fillers_le
    hcheck hfavours a.decoder
  rw [← hcovers.breakdown] at hdecode
  have hrecord : a.statistics.record ((some 1).getD settings.iterations) =
      .ok (IterationStatistics.ones (i + 1)) := by
    rw [hstatistics]
    exact IterationStatistics.record_ones hlimit
  exact ⟨soft, _, Assembly.addBlock_of_decoded (by omega) (hcovers.stop_le hsize hi) hpassed
    hdematch hdecode hrecord, rfl, rfl⟩

/-- All codeblocks are accepted after one sweep each, so the statistics are
ones. -/
theorem exists_addBlocks (h : Carries (settings.format length) seg ring graph message w)
    (hsoft : Faithful w softBits) (hcovers : Covers (settings.format length) tbs seg ring)
    (hbase : graph.base = seg.base) (hz : graph.liftingSize = seg.liftingSize)
    (hholds : seg.Holds tbs message) (hearly : settings.earlyStop = true)
    (hnew : settings.newData = true) (hiterations : 0 < settings.iterations)
    (hcount : a.buffer.count = seg.blocks)
    (hpassed : ∀ i < seg.blocks, (a.buffer.block i).passed = false)
    (hstatistics : a.statistics = IterationStatistics.none) (hlimit : seg.blocks < Size.limit)
    (limit : Nat) :
    ∃ a', ((List.range seg.blocks).map fun i =>
        ((settings.format length).codeblockAt seg ring i, i)).foldlM
        (Assembly.addBlock settings (Segmentation.blockCrc seg.blocks tbs) softBits limit) a =
        .ok a' ∧
      a'.buffer.count = seg.blocks ∧
      (∀ i < seg.blocks,
        (a'.buffer.block i).passed = true ∧ (a'.buffer.block i).message = message i) ∧
      a'.statistics = IterationStatistics.ones seg.blocks := by
  rw [List.foldlM_map]
  obtain ⟨a', hloop, hdone, -, hstatistics', hcount'⟩ := foldlM_total
    (f := fun b i => Assembly.addBlock settings (Segmentation.blockCrc seg.blocks tbs) softBits
      limit b ((settings.format length).codeblockAt seg ring i, i))
    (l := List.range seg.blocks) (b := a)
    (fun seen (b : Assembly) =>
      (∀ i < seen.length, (b.buffer.block i).passed = true ∧
        (b.buffer.block i).message = message i) ∧
      -- codeblocks that are still to come have not passed yet
      (∀ i, seen.length ≤ i → b.buffer.block i = a.buffer.block i) ∧
      b.statistics = IterationStatistics.ones seen.length ∧ b.buffer.count = seg.blocks)
    ⟨fun i hi => absurd hi (Nat.not_lt_zero i), fun i _ => rfl, hstatistics, hcount⟩ (by
    rintro seen i rest b hsplit ⟨hdone, hlater, hones, hcount⟩
    obtain ⟨rfl, hi⟩ := range_split hsplit
    rw [List.length_range] at hdone hlater hones
    obtain ⟨soft, b', hstep, hbuffer, hones'⟩ := h.exists_addBlock hsoft hcovers hbase hz hholds
      hearly hnew hiterations hi hcount (by rw [hlater i (Nat.le_refl i)]; exact hpassed i hi) hones
      (by omega) limit
    refine ⟨b', hstep, ?_⟩
    rw [List.length_append, List.length_range, List.length_singleton, hbuffer]
    refine ⟨fun j hj => ?_, fun j hj => ?_, hones', ?_⟩
    · rcases Nat.lt_succ_iff_lt_or_eq.mp hj with hlt | rfl
      · rw [HarqBuffer.block_store_of_ne (Nat.ne_of_gt hlt)]
        exact hdone j hlt
      · rw [HarqBuffer.block_store_self (by omega)]
        exact ⟨rfl, rfl⟩
    · rw [HarqBuffer.block_store_of_ne (by omega)]
      exact hlater j (by omega)
    · rw [HarqBuffer.count_store, hcount])
  rw [List.length_range] at hdone hstatistics'
  exact ⟨a', hloop, hcount', hdone, hstatistics'⟩

end Carries

/-! ## The round trip -/

/-- The codeword of a transport block that covers its codeblocks carries their
messages, encoded with some graph of the lifting size. -/
theorem exists_carries {settings : ReceptionSettings} {length : Nat} {block : Bytes}
    {codeblocks : Array Codeblock} (hrv : settings.rv = 0) (hlength : length ≤ maxCodewordLength)
    (hreceive : (settings.format length).receive length (block.size * 8) = .ok codeblocks)
    (hmatched : ∀ c ∈ codeblocks, c.messageLength - c.fillers ≤ c.matchedLength)
    (hring : ∀ c ∈ codeblocks, c.messageLength ≤ c.bufferLength) (store : GraphStore) :
    ∃ seg ring graph w store', codeblocks =
        (Array.range seg.blocks).map ((settings.format length).codeblockAt seg ring) ∧
      TransportBlock.encode store (settings.format length) block = .ok (w, store') ∧
      Covers (settings.format length) (block.size * 8) seg ring ∧
      graph.base = seg.base ∧ graph.liftingSize = seg.liftingSize ∧
      Carries (settings.format length) seg ring graph
        (seg.message (Segmentation.checked (block.size * 8) (Bits.unpack block))) w := by
  obtain ⟨seg, ring, -, hsound, hfound, hcut, hbuffered, rfl, hgroups⟩ :=
    CodewordFormat.receive_eq_ok _ hreceive
  have hmem : ∀ i < seg.blocks, (settings.format length).codeblockAt seg ring i ∈
      (Array.range seg.blocks).map ((settings.format length).codeblockAt seg ring) := fun i hi =>
    Array.mem_map_of_mem (Array.mem_range.mpr hi)
  have hmessageLength : ∀ i, ((settings.format length).codeblockAt seg ring i).messageLength =
      seg.messageLength := fun i => CodewordFormat.messageLength_codeblockAt hsound
  have hfill := hsound.blockLength_add_fillers
  have hpos := hsound.blockLength_pos
  have hring_ge : seg.messageLength ≤ ring := by
    rw [← hmessageLength 0]
    exact hring _ (hmem 0 hsound.blocks_pos)
  have hreadable : (settings.format length).Readable (block.size * 8) seg ring :=
    ⟨hsound, hgroups, hbuffered, by show settings.rv < 4; omega, by omega⟩
  have hcovers : Covers (settings.format length) (block.size * 8) seg ring := by
    refine ⟨hreadable, hrv, fun i hi => ?_, hring_ge⟩
    have hle := hmatched _ (hmem i hi)
    rw [hmessageLength, ← hfill] at hle
    exact Nat.le_trans (Nat.le_of_eq (Nat.add_sub_cancel _ _).symm) hle
  obtain ⟨graph, hbase, hz⟩ := GraphStore.exists_graph seg.base hsound.liftingSize_mem
  obtain ⟨w, store', hencode, hcarries⟩ := TransportBlock.exists_encode hreadable hfound hcut
    (Nat.lt_of_le_of_lt hlength (by decide)) hbase hz store
  exact ⟨seg, ring, graph, w, store', rfl, hencode, hcovers, hbase, hz, hcarries⟩

/-- Soft bits that favour the codeword of a transport block give it back, byte
by byte. -/
theorem Carries.run_eq_ok {session : Session} {block : Bytes} {ring : Nat} {seg : Segmentation}
    {graph : LiftedGraph} {w : Bits} {buffer : HarqBuffer} {codeblocks : Array Codeblock}
    (h : Carries session.format seg ring graph
      (seg.message (Segmentation.checked (block.size * 8) (Bits.unpack block))) w)
    (hcovers : Covers session.format (block.size * 8) seg ring)
    (hreceive : session.format.receive session.softBits.size (block.size * 8) = .ok codeblocks)
    (hcodeblocks : codeblocks = (Array.range seg.blocks).map (session.format.codeblockAt seg ring))
    (hbase : graph.base = seg.base) (hz : graph.liftingSize = seg.liftingSize)
    (hblock : block.size ≠ 0) (hsize : session.block.size = block.size)
    (hlength : session.softBits.size ≤ maxCodewordLength)
    (hearly : session.settings.earlyStop = true) (hnew : session.settings.newData = true)
    (hiterations : 0 < session.settings.iterations) (hsoft : Faithful w session.softBits)
    (hcount : buffer.count = codeblocks.size) :
    ∃ r, session.run buffer =
        .ok (⟨codeblocks.size, ⟨codeblocks.size, codeblocks.size, some 1, some 1⟩, true⟩, r) ∧
      r.block = block := by
  have hsound := hcovers.sound
  have hblocks : codeblocks.size = seg.blocks := by simp [hcodeblocks]
  rw [hblocks] at hcount ⊢
  -- the session's own length is that of the transport block that was sent
  have htbs : session.tbs = block.size * 8 := by rw [Session.tbs, hsize]
  rw [← htbs] at h hcovers hreceive hsound
  have hbitsSize : (Bits.unpack block).size = session.tbs := by
    rw [Bits.size_unpack, htbs, Nat.mul_comm]
  have hopened : ∀ i, ((session.opened buffer).block i).passed = false := fun i =>
    Bool.eq_false_iff.mpr fun hpassed => by
      rw [(session.passed_opened.mp hpassed).1] at hnew
      cases hnew
  have hholds := Segmentation.holds_message hsound hbitsSize (Bits.unpack_only01 block)
  have hlimit : maxCodewordLength < Size.limit := by decide
  have hlast := hcovers.blocks_le
  change seg.blocks ≤ session.softBits.size at hlast
  have hpos := hsound.blocks_pos
  obtain ⟨a, hloop, hcountA, hdone, hstatistics⟩ := h.exists_addBlocks
    (a := session.opening buffer) hsoft hcovers hbase hz hholds hearly hnew hiterations
    ((session.count_opened buffer).trans hcount) (fun i _ => hopened i) rfl (by omega)
    (session.wanted seg)
  have htaken : ∀ i < seg.blocks, (session.format.codeblockAt seg ring i).breakdown.2 =
      session.takenLength seg := fun i _ => by
    rw [CodewordFormat.breakdown_codeblockAt hsound, Session.takenLength]
  have hassembled : a.bits = (Segmentation.checked session.tbs (Bits.unpack block)).extract 0
      (session.wanted seg) := by
    rw [(addBlocks_eq_ok htaken rfl hloop).bits_eq, gather_congr fun i hi => (hdone i hi).2,
      Session.takenLength, Session.wanted]
    exact Segmentation.gather_checked hsound (Segmentation.size_checked_eq hsound hbitsSize)
  have hverified : (a.verify seg.blocks).1 = true := by
    refine (a.verify_eq hcountA).1.mpr ⟨fun i hi => (hdone i hi).1, ?_⟩
    by_cases hone : seg.blocks = 1
    · exact .inl hone
    · rw [hassembled, Session.wanted, if_neg hone]
      exact .inr (Segmentation.reassemblyCrc_extract hsound hbitsSize (by omega))
  have hpacked : Bits.pack (a.bits.extract 0 session.tbs) = block := by
    -- the transport block is what comes before its check
    have hfront : (Segmentation.checked session.tbs (Bits.unpack block)).extract 0 session.tbs =
        Bits.unpack block := by
      rw [Segmentation.checked, ← hbitsSize, Array.extract_append_left, Array.extract_size]
    rw [hassembled, Array.extract_extract, Nat.zero_add, Nat.zero_add,
      Nat.min_eq_left (session.tbs_le_wanted seg), hfront, Bits.pack_unpack]
  have hrun := session.run_of_addBlocks (by rwa [hsize]) hlength hreceive hcodeblocks hcount hloop
  rw [hverified, hstatistics, IterationStatistics.ones, if_neg (by omega), if_pos rfl, hpacked]
    at hrun
  exact ⟨_, hrun, rfl⟩

/-! ### One byte -/

/-- Soft bits of magnitude one favour their codeword. -/
theorem faithful_map (w : Bits) :
    Faithful w (w.map fun b => if b = 0 then ⟨1⟩ else ⟨-1⟩) := by
  have hbit : ∀ i < w.size, (w.map fun b => if b = 0 then (⟨1⟩ : SoftBit) else ⟨-1⟩).getD i
      SoftBit.erased = if w.getD i 0 = 0 then ⟨1⟩ else ⟨-1⟩ := by
    intro i hi
    simp [Array.getD, hi]
  refine ⟨Array.size_map, fun i hi hzero => ?_, fun i hi hone => ?_⟩
  · rw [hbit i hi, if_pos hzero]
    decide
  · rw [hbit i hi, if_neg hone]
    decide

/-- How one byte is sent in twelve symbols. -/
def byteSettings : ReceptionSettings :=
  { base := .two, rv := 0, modulation := .qpsk, bufferLimit := 0, layers := 1, iterations := 1,
    earlyStop := true, newData := true }

/-- The codeblock of one byte. -/
def byteCodeblock : Codeblock :=
  { base := .two, liftingSize := 4, rv := 0, modulation := .qpsk, bufferLength := 200,
    sentLength := 200, fillers := 16, checkLength := 16, matchedLength := 24, offset := 0 }

theorem receive_byte : (byteSettings.format 24).receive 24 8 = .ok #[byteCodeblock] := by decide

/-- Some soft bits give back one byte, whatever the buffer holds and whatever
the decoder did before. -/
theorem exists_softBits_byte :
    ∃ softBits : Array SoftBit, softBits.size = 24 ∧ (∀ a ∈ softBits, a.InReach) ∧
      ∀ (decoder : BlockDecoder) (buffer : HarqBuffer), buffer.count = 1 →
        ∃ r, Session.run ⟨decoder, byteSettings, #[0], [softBits]⟩ buffer =
            .ok (⟨1, ⟨1, 1, some 1, some 1⟩, true⟩, r) ∧ r.block = #[0xA5] := by
  obtain ⟨seg, ring, graph, w, store', hcodeblocks, -, hcovers, hbase, hz, hcarries⟩ :=
    @exists_carries byteSettings 24 #[0xA5] _ rfl (by decide) receive_byte (by decide) (by decide)
      GraphStore.empty
  have hsize : (w.map fun b => if b = 0 then (⟨1⟩ : SoftBit) else ⟨-1⟩).size = 24 := by
    rw [Array.size_map]
    exact hcarries.size
  refine ⟨w.map fun b => if b = 0 then ⟨1⟩ else ⟨-1⟩, hsize, ?_, ?_⟩
  · intro a ha
    obtain ⟨b, -, rfl⟩ := Array.mem_map.mp ha
    unfold SoftBit.InReach
    split <;> decide
  · intro decoder buffer hcount
    have hsoft : Session.softBits ⟨decoder, byteSettings, #[0],
        [w.map fun b => if b = 0 then ⟨1⟩ else ⟨-1⟩]⟩ =
          w.map fun b => if b = 0 then ⟨1⟩ else ⟨-1⟩ := Session.softBits_singleton
    have hformat : Session.format ⟨decoder, byteSettings, #[0],
        [w.map fun b => if b = 0 then ⟨1⟩ else ⟨-1⟩]⟩ = byteSettings.format 24 := by
      rw [Session.format, hsoft, hsize]
    rw [← hformat] at hcarries hcovers hcodeblocks
    refine hcarries.run_eq_ok hcovers ?_ hcodeblocks hbase hz (by decide) rfl ?_ rfl rfl Nat.one_pos
      ?_ hcount
    · rw [hformat, hsoft, hsize]
      exact receive_byte
    · rw [hsoft, hsize]
      decide
    · rw [hsoft]
      exact faithful_map w

/-! ### Every transport block -/

/-- Every codeword of whole groups has codeblocks. A transport block whose
codeword covers all of them is received from any soft bits that favour the
codeword, by a single sweep of each codeblock. -/
theorem receive_of_encode {settings : ReceptionSettings} {length : Nat} {block : Bytes}
    (hblock : block.size ≠ 0) (hrv : settings.rv = 0) (hlength : length ≤ maxCodewordLength)
    (hearly : settings.earlyStop = true) (hnew : settings.newData = true)
    (hiterations : 0 < settings.iterations) (store : GraphStore) :
    (length ≠ 0 → length % (settings.layers * settings.modulation.order) = 0 →
      2 * (block.size * 8) < Size.limit → 3 * settings.bufferLimit < Size.limit →
      ∃ codeblocks,
        (settings.format length).receive length (block.size * 8) = .ok codeblocks) ∧
    ∀ codeblocks, (settings.format length).receive length (block.size * 8) = .ok codeblocks →
      (∀ c ∈ codeblocks, c.messageLength - c.fillers ≤ c.matchedLength) →
      (∀ c ∈ codeblocks, c.messageLength ≤ c.bufferLength) →
      ∃ w store', TransportBlock.encode store (settings.format length) block = .ok (w, store') ∧
        w.size = length ∧
        ∀ (session : Session) (buffer : HarqBuffer), session.settings = settings →
          session.block.size = block.size → Faithful w session.softBits →
          buffer.count = codeblocks.size →
          ∃ r, session.run buffer =
              .ok (⟨codeblocks.size, ⟨codeblocks.size, codeblocks.size, some 1, some 1⟩, true⟩, r) ∧
            r.block = block := by
  refine ⟨fun hne hrest htbs hlimit => ?_, fun codeblocks hreceive hmatched hring => ?_⟩
  · have hgroup : (settings.format length).group ≤ length :=
      Nat.le_of_dvd (Nat.pos_of_ne_zero hne) (Nat.dvd_of_mod_eq_zero hrest)
    have hgroupPos : (settings.format length).group ≠ 0 := by
      intro hzero
      change length % (settings.format length).group = 0 at hrest
      rw [hzero, Nat.mod_zero] at hrest
      exact hne hrest
    have hmax : maxCodewordLength < Size.limit := by decide
    exact (settings.format length).exists_receive (by omega) htbs hgroupPos (by omega) hrest hlimit
  · obtain ⟨seg, ring, graph, w, store', hcodeblocks, hencode, hcovers, hbase, hz, hcarries⟩ :=
      exists_carries hrv hlength hreceive hmatched hring store
    refine ⟨w, store', hencode, hcarries.size, ?_⟩
    rintro session buffer rfl hsize hsoft hcount
    obtain rfl : session.softBits.size = length := hsoft.size.trans hcarries.size
    exact hcarries.run_eq_ok hcovers hreceive hcodeblocks hbase hz hblock hsize hlength hearly hnew
      hiterations hsoft hcount

/-- One byte is received from twelve symbols of two bits, by a new decoder. -/
theorem receive_of_encode_byte :
    ∃ w store r,
      TransportBlock.encode GraphStore.empty (byteSettings.format 24) #[0xA5] = .ok (w, store) ∧
        Session.run ⟨BlockDecoder.fresh, byteSettings, #[0],
            [w.map fun b => if b = 0 then ⟨1⟩ else ⟨-1⟩]⟩ (HarqBuffer.ofCount 1) =
          .ok (⟨1, ⟨1, 1, some 1, some 1⟩, true⟩, r) ∧
        r.block = #[0xA5] := by
  obtain ⟨hcut, hreceived⟩ := @receive_of_encode byteSettings 24 #[0xA5] (by decide) rfl (by decide)
    rfl rfl (by decide) GraphStore.empty
  obtain ⟨codeblocks, hreceive⟩ := hcut (by decide) (by decide) (by decide) (by decide)
  obtain rfl : #[byteCodeblock] = codeblocks := Except.ok.inj (receive_byte.symm.trans hreceive)
  obtain ⟨w, store, hencode, -, hsession⟩ := hreceived _ hreceive (by decide) (by decide)
  obtain ⟨r, hrun, hblock⟩ := hsession ⟨BlockDecoder.fresh, byteSettings, #[0], [_]⟩
    (HarqBuffer.ofCount 1) rfl rfl (by rw [Session.softBits_singleton]; exact faithful_map w)
    (HarqBuffer.count_ofCount 1)
  exact ⟨w, store, r, hencode, hrun, hblock⟩

end Uplink
