import Uplink.Proofs.Ldpc.Codeword
import Uplink.Proofs.Messages
import Uplink.Proofs.Readable
import Uplink.TransportBlock.Codeword

/-!
# What is sent

- `CodewordFormat.transmitChecked_eq`, `transmit_eq`: the messages of a transport block, each with
  its codeblock.
- `Carries`: a codeword carries the encoded messages of all codeblocks, each in its own span.
- `TransportBlock.exists_encode`: encoding succeeds and its codeword carries the messages;
  `exists_encode_size` asks only for sizes, and `room_of_encode` says that they are needed.
-/

namespace Uplink

open Ldpc

namespace CodewordFormat

variable {format : CodewordFormat} {seg : Segmentation} {tbs ring i : Nat}

/-- The messages of bits that carry a check, each with its codeblock. -/
theorem transmitChecked_eq {bits : Bits} (hfound : Segmentation.ofSize format.base tbs = .ok seg)
    (hcodeblocks : format.codeblocks seg =
      .ok ((Array.range seg.blocks).map (format.codeblockAt seg ring)))
    (hsize : bits.size = seg.checkedSize tbs) :
    format.transmitChecked bits tbs = .ok ((Array.range seg.blocks).map fun i =>
      ⟨format.codeblockAt seg ring i, seg.message bits i⟩) := by
  rw [transmitChecked, hfound, ok_bind, require_of (by rw [beq_iff_eq]; exact hsize), ok_bind,
    hcodeblocks, ok_bind]
  refine congrArg Except.ok (Array.ext (by simp [Segmentation.messages]) fun i h₁ h₂ => ?_)
  simp [Segmentation.messages]

/-- A transport block is sent with its check. -/
theorem transmit_eq_transmitChecked (block : Bytes) :
    format.transmit block = format.transmitChecked
      (Segmentation.checked (block.size * 8) (Bits.unpack block)) (block.size * 8) := by
  rw [transmit]
  cases hfound : Segmentation.ofSize format.base (block.size * 8) with
  | error fault =>
    show Except.error fault = _
    rw [transmitChecked, hfound]
    rfl
  | ok seg => rfl

/-- The messages of a transport block with its check, each with its codeblock.
-/
theorem transmit_eq {block : Bytes}
    (hfound : Segmentation.ofSize format.base (block.size * 8) = .ok seg)
    (hcodeblocks : format.codeblocks seg =
      .ok ((Array.range seg.blocks).map (format.codeblockAt seg ring))) :
    format.transmit block = .ok ((Array.range seg.blocks).map fun i =>
      ⟨format.codeblockAt seg ring i,
        seg.message (Segmentation.checked (block.size * 8) (Bits.unpack block)) i⟩) := by
  have hsize : (Segmentation.checked (block.size * 8) (Bits.unpack block)).size =
      seg.checkedSize (block.size * 8) := by
    rw [Segmentation.size_checked, Bits.size_unpack, Segmentation.checkedSize,
      (Segmentation.ofSize_eq_ok hfound).tbCheckLength_eq, Nat.mul_comm]
  rw [transmit_eq_transmitChecked, transmitChecked_eq hfound hcodeblocks hsize]

end CodewordFormat

/-- The codeword carries the encoded messages: the bit of codeblock `i` that is
read `k`-th stands where the interleaver puts it in the codeblock's span. -/
structure Carries (format : CodewordFormat) (seg : Segmentation) (ring : Nat) (graph : LiftedGraph)
    (message : Nat → Bits) (w : Bits) : Prop where
  size : w.size = format.length
  bit : ∀ i < seg.blocks, ∀ k < format.share seg.blocks i,
    w.getD (format.start seg.blocks i + (format.codeblockAt seg ring i).interleaved k) 0 =
      (graph.sentPart (graph.codeword (message i))).getD
        ((format.codeblockAt seg ring i).walkOf.position k) 0

namespace TransportBlock

variable {format : CodewordFormat} {seg : Segmentation} {tbs ring : Nat} {graph : LiftedGraph}
  {message : Nat → Bits}

/-- One more codeblock is encoded, matched and appended, each of its bits at the
place where the interleaver puts it. -/
theorem exists_appendBlock (h : format.Readable tbs seg ring)
    (hbase : graph.base = seg.base) (hz : graph.liftingSize = seg.liftingSize) {i : Nat}
    (hmessage : (message i).size = seg.messageLength) (w : Bits) (store : GraphStore) :
    ∃ bits store', appendBlock (w, store) ⟨format.codeblockAt seg ring i, message i⟩ =
        .ok (w ++ bits, store') ∧
      bits.size = format.share seg.blocks i ∧
      ∀ k < format.share seg.blocks i,
        bits.getD ((format.codeblockAt seg ring i).interleaved k) 0 =
          (graph.sentPart (graph.codeword (message i))).getD
            ((format.codeblockAt seg ring i).walkOf.position k) 0 := by
  have hsize : (message i).size = graph.base.messageLength graph.liftingSize := by
    rw [hmessage, h.sound.messageLength_eq, hbase, hz, h.sound.base_eq]
  obtain ⟨store', hfetch⟩ := store.fetch_of_graph graph
  obtain ⟨hK, hN⟩ := graph.base.lengths_lt_limit graph.liftingSize_mem
  have hencode : Ldpc.encode store (format.codeblockAt seg ring i).base
      (format.codeblockAt seg ring i).liftingSize (message i)
      (format.codeblockAt seg ring i).sentLength =
        .ok (graph.sentPart (graph.codeword (message i)), store') := by
    have hword := encode_eq hfetch hsize hK hN
    rwa [hbase, hz] at hword
  -- what the encoder returns has the length that rate matching asks for
  have hsent : (graph.sentPart (graph.codeword (message i))).size =
      seg.base.sentLength seg.liftingSize := by
    rw [graph.size_sentPart (graph.size_codeword hsize), hbase, hz]
  obtain ⟨bits, hmatch, hbits, hbit⟩ :=
    Codeblock.exists_rateMatch (h.soundAt i).toLaid (h.soundAt i).matched (h.selection i) hsent
  refine ⟨bits, store', ?_, hbits, hbit⟩
  rw [appendBlock]
  dsimp only
  rw [hencode, ok_bind]
  dsimp only
  rw [hmatch, ok_bind]
  rfl

/-- All codeblocks are encoded, and their codeword carries the messages. The
store may already hold graphs; it is passed from one codeblock to the next. -/
theorem exists_encodeBlocks (h : format.Readable tbs seg ring)
    (hlength : format.length < Size.signedLimit)
    (hbase : graph.base = seg.base) (hz : graph.liftingSize = seg.liftingSize)
    (hmessage : ∀ i < seg.blocks, (message i).size = seg.messageLength) (store : GraphStore) :
    ∃ w store', encodeBlocks store ((Array.range seg.blocks).map fun i =>
        ⟨format.codeblockAt seg ring i, message i⟩) format.length = .ok (w, store') ∧
      Carries format seg ring graph message w := by
  have hcells : Size.cells 1 [format.length] = .ok format.length := by
    have hone : 1 < Size.signedLimit := by decide
    simp only [Size.cells, List.foldl_cons, List.foldl_nil, Nat.one_mul]
    rw [if_pos ⟨by omega, hlength⟩]
  obtain ⟨⟨w, store'⟩, hloop, hsize, hbits⟩ := foldlM_total
    (f := fun (state : Bits × GraphStore) i =>
      appendBlock state ⟨format.codeblockAt seg ring i, message i⟩)
    (l := List.range seg.blocks) (b := (#[], store))
    (fun seen state => state.1.size = format.start seg.blocks seen.length ∧
      ∀ i < seen.length, ∀ k < format.share seg.blocks i,
        state.1.getD (format.start seg.blocks i + (format.codeblockAt seg ring i).interleaved k) 0 =
          (graph.sentPart (graph.codeword (message i))).getD
            ((format.codeblockAt seg ring i).walkOf.position k) 0)
    ⟨rfl, fun i hi => absurd hi (Nat.not_lt_zero i)⟩ (by
    rintro seen n rest ⟨w, store⟩ hsplit ⟨hsize, hold⟩
    obtain ⟨rfl, hn⟩ := range_split hsplit
    rw [List.length_range] at hsize hold
    dsimp only at hsize hold
    obtain ⟨bits, store', happend, hbits, hnew⟩ :=
      exists_appendBlock h hbase hz (hmessage n hn) w store
    refine ⟨_, happend, ?_⟩
    rw [List.length_append, List.length_range, List.length_singleton]
    refine ⟨?_, fun i hi k hk => ?_⟩
    · rw [Array.size_append, hsize, hbits, CodewordFormat.start]
    · have hplace := Codeblock.interleaved_lt (format.share_mod_order seg.blocks i)
        (c := format.codeblockAt seg ring i) hk
      change (format.codeblockAt seg ring i).interleaved k < format.share seg.blocks i at hplace
      rw [Array.getD_eq_getD_getElem?, Array.getElem?_append, hsize]
      rcases Nat.lt_succ_iff_lt_or_eq.mp hi with hlt | rfl
      · -- an earlier span ends before the codeblocks that follow it begin
        have hnext : format.start seg.blocks i + format.share seg.blocks i ≤
            format.start seg.blocks n := format.start_mono hlt
        rw [if_pos (by omega), ← Array.getD_eq_getD_getElem?]
        exact hold i hlt k hk
      · -- the bits of the new codeblock come right behind those of the others
        rw [if_neg (by omega), Nat.add_sub_cancel_left, ← Array.getD_eq_getD_getElem?]
        exact hnew k hk)
  rw [List.length_range] at hsize hbits
  refine ⟨w, store', ?_, ⟨?_, hbits⟩⟩
  · rw [encodeBlocks, hcells, ok_bind, ← Array.foldlM_toList, Array.toList_map, Array.toList_range,
      List.foldlM_map]
    exact hloop
  · rw [hsize, format.start_blocks h.sound.blocks_pos h.groups]

/-- A transport block is encoded into a codeword that carries its messages. -/
theorem exists_encode {block : Bytes} (h : format.Readable (block.size * 8) seg ring)
    (hfound : Segmentation.ofSize format.base (block.size * 8) = .ok seg)
    (hcodeblocks : format.codeblocks seg =
      .ok ((Array.range seg.blocks).map (format.codeblockAt seg ring)))
    (hlength : format.length < Size.signedLimit)
    (hbase : graph.base = seg.base) (hz : graph.liftingSize = seg.liftingSize)
    (store : GraphStore) :
    ∃ w store', encode store format block = .ok (w, store') ∧
      Carries format seg ring graph
        (seg.message (Segmentation.checked (block.size * 8) (Bits.unpack block))) w := by
  obtain ⟨w, store', hblocks, hcarries⟩ := exists_encodeBlocks h hlength hbase hz
    (fun i _ => Segmentation.size_message h.sound) store
  refine ⟨w, store', ?_, hcarries⟩
  rw [encode, CodewordFormat.transmit_eq hfound hcodeblocks, ok_bind]
  exact hblocks

/-- Every transport block is encoded, to the length of its codeword, if whole
groups are sent of circular buffers that hold more than the fillers. -/
theorem exists_encode_size {block : Bytes} (hblock : block.size ≠ 0)
    (hbytes : 16 * block.size < Size.limit) (hrv : format.rv < 4) (hgroup : 0 < format.group)
    (hgroupLt : format.group < Size.limit) (hwhole : format.length % format.group = 0)
    (hlength : format.length < Size.signedLimit) (hlimit : 3 * format.bufferLimit < Size.limit)
    (hroom : ∀ seg, Segmentation.ofSize format.base (block.size * 8) = .ok seg →
      seg.fillers < seg.ringLength format.bufferLimit) (store : GraphStore) :
    ∃ w store', encode store format block = .ok (w, store') ∧ w.size = format.length := by
  obtain ⟨codeblocks, hreceive⟩ := format.exists_receive (by omega : 0 < block.size * 8)
    (by omega) (Nat.ne_of_gt hgroup) hgroupLt hwhole hlimit
  obtain ⟨seg, ring, -, hsound, hfound, hcodeblocks, hring, rfl, -⟩ :=
    CodewordFormat.receive_eq_ok _ hreceive
  have hreadable : format.Readable (block.size * 8) seg ring :=
    { sound := hsound
      groups := hwhole
      buffered := hring
      rv_lt := hrv
      room := CodewordFormat.bufferLength_eq_ok hring ▸ hroom seg hfound }
  obtain ⟨graph, hbase, hz⟩ := GraphStore.exists_graph seg.base hsound.liftingSize_mem
  obtain ⟨w, store', hencode, hcarries⟩ :=
    exists_encode hreadable hfound hcodeblocks hlength hbase hz store
  exact ⟨w, store', hencode, hcarries.size⟩

/-- Nothing is appended for a codeblock whose circular buffer holds only
fillers. -/
theorem room_of_appendBlock {state state' : Bits × GraphStore} {x : OutgoingBlock}
    (h : appendBlock state x = .ok state') : x.codeblock.fillers < x.codeblock.bufferLength := by
  obtain ⟨sent, -, h⟩ := bind_eq_ok.mp h
  obtain ⟨bits, hmatch, -⟩ := bind_eq_ok.mp h
  simp only [Codeblock.rateMatch, bind_eq_ok] at hmatch
  obtain ⟨-, -, -, -, -, -, selection, hselection, -⟩ := hmatch
  exact (Codeblock.selection_eq_ok hselection).2.2.2.1

/-- A transport block is encoded only into circular buffers that hold more than
the fillers. -/
theorem room_of_encode {block : Bytes} {store store' : GraphStore} {w : Bits}
    (h : encode store format block = .ok (w, store'))
    (hfound : Segmentation.ofSize format.base (block.size * 8) = .ok seg) :
    seg.fillers < seg.ringLength format.bufferLimit := by
  have hblocks := (Segmentation.ofSize_eq_ok hfound).blocks_pos
  obtain ⟨outgoing, htransmit, hencode⟩ := bind_eq_ok.mp h
  obtain ⟨codeblocks, hcodeblocks⟩ : ∃ codeblocks, format.codeblocks seg = .ok codeblocks := by
    simp only [CodewordFormat.transmit, CodewordFormat.transmitChecked, hfound, ok_bind,
      bind_eq_ok] at htransmit
    obtain ⟨-, -, codeblocks, hcodeblocks, -⟩ := htransmit
    exact ⟨codeblocks, hcodeblocks⟩
  obtain ⟨ring, hring, rfl, -⟩ := format.codeblocks_eq_ok hcodeblocks
  rw [CodewordFormat.transmit_eq hfound hcodeblocks] at htransmit
  obtain rfl := Except.ok.inj htransmit
  -- the first codeblock is appended, and all of them have buffers of one length
  obtain ⟨_, -, hloop⟩ := bind_eq_ok.mp hencode
  obtain ⟨rest, hrange⟩ : ∃ rest, List.range seg.blocks = 0 :: rest := by
    obtain ⟨n, hn⟩ := Nat.exists_eq_add_of_lt hblocks
    exact ⟨_, by rw [hn, List.range_succ_eq_map]⟩
  rw [← Array.foldlM_toList, Array.toList_map, Array.toList_range, hrange, List.map_cons,
    List.foldlM_cons, bind_eq_ok] at hloop
  obtain ⟨_, happend, -⟩ := hloop
  have hroom := room_of_appendBlock happend
  rwa [← CodewordFormat.ringLength, ← CodewordFormat.bufferLength_eq_ok hring]

end TransportBlock

end Uplink
