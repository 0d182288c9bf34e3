import Uplink.Proofs.Codeblock.Spans
import Uplink.Proofs.TransportBlock.Session

/-!
# Reassembly

The sending side cuts a transport block into messages by lengths that it computes; the receiving
side copies data bits out of the messages by lengths that it reads off the codeblocks, until it has
enough. What comes out is what was cut.

- `Segmentation.Cuts`: messages hold the data in order, completed with zeros, and their checks;
  `cuts_messages`: those of a segmentation do.
- `gather_message`, `gather_checked`: what the receiver puts together of the messages.
- `Restores`: what is copied from codeblocks, and what any reception makes of their messages.
- `CodewordFormat.transmit_reassembles`: nothing is lost on the way from a transport block, with its
  check or without it, to the messages and back.
-/

namespace Uplink

open Ldpc

/-! ## Cutting -/

namespace Segmentation

variable {s : Segmentation} {base : BaseGraph} {tbs limit i : Nat} {bits whole : Bits}

/-- Messages of one length that hold the whole: the data bits in order,
completed with zeros, a check of each message if there are several, and fillers.
-/
structure Cuts (s : Segmentation) (whole : Bits) (messages : Array Bits) : Prop where
  count : messages.size = s.blocks
  size : ∀ m ∈ messages, m.size = s.messageLength
  data : messages.flatMap (·.extract 0 s.dataLength) =
    whole ++ Array.replicate (s.blocks * s.dataLength - whole.size) 0
  check : 1 < s.blocks → ∀ m ∈ messages, Crc.crc24B.ofBits (m.extract 0 s.blockLength) = 0
  fillers : ∀ m ∈ messages,
    m.extract s.blockLength s.messageLength = Array.replicate s.fillers 0

/-- The data bits of a message are the next of the whole, completed with zeros.
-/
theorem extract_message_data (h : s.Sound base tbs) (hi : i < s.blocks) :
    (s.message whole i).extract 0 s.dataLength =
      (whole ++ Array.replicate (s.blocks * s.dataLength - whole.size) 0).extract
        (i * s.dataLength) ((i + 1) * s.dataLength) := by
  have hdata : s.dataLength ≤ s.messageLength := Nat.le_trans (Nat.sub_le _ _) h.fits
  have hnext : (i + 1) * s.dataLength ≤ s.blocks * s.dataLength := Nat.mul_le_mul_right _ hi
  rw [Nat.add_one_mul] at hnext ⊢
  apply Array.ext
  · simp only [Array.size_extract, size_message h, Array.size_append, Array.size_replicate]
    omega
  · intro j h₁ h₂
    have hj : j < s.dataLength := by
      simp only [Array.size_extract] at h₁
      omega
    have hget : (s.message whole i).getD j 0 = whole.getD (i * s.dataLength + j) 0 :=
      getD_message hj
    rw [Buffer.getD_of_lt (by rw [size_message h]; omega)] at hget
    rw [Array.getElem_extract, Array.getElem_extract]
    simp only [Nat.zero_add]
    rw [hget]
    -- only the last message reaches beyond the whole, into the zeros
    by_cases hlt : i * s.dataLength + j < whole.size
    · rw [Buffer.getD_of_lt hlt, Array.getElem_append_left hlt]
    · rw [Array.getElem_append_right (Nat.le_of_not_lt hlt), Array.getElem_replicate,
        Array.getD_eq_getD_getElem?, Array.getElem?_eq_none (Nat.le_of_not_lt hlt),
        Option.getD_none]

/-- The data bits of the first messages are the first part of the whole,
completed with zeros. -/
theorem flatMap_message (h : s.Sound base tbs) {n : Nat} (hn : n ≤ s.blocks) :
    (Array.range n).flatMap (fun i => (s.message whole i).extract 0 s.dataLength) =
      (whole ++ Array.replicate (s.blocks * s.dataLength - whole.size) 0).extract
        0 (n * s.dataLength) := by
  induction n with
  | zero => simp
  | succ n ih =>
    rw [Array.range_succ, Array.flatMap_append, ih (Nat.le_of_succ_le hn),
      Array.flatMap_singleton, extract_message_data h hn, Array.extract_append_extract,
      Nat.min_eq_left (Nat.zero_le _), Nat.max_eq_right (Nat.mul_le_mul_right _ (Nat.le_succ n))]

/-- The messages of a segmentation hold what is cut, in order and without a gap.
-/
theorem cuts_messages (h : s.Sound base tbs) (hsize : whole.size = s.checkedSize tbs) :
    s.Cuts whole (s.messages whole) := by
  have hmessage : ∀ m ∈ s.messages whole, ∃ i < s.blocks, s.message whole i = m := fun m hm => by
    obtain ⟨i, hi, rfl⟩ := Array.mem_map.mp hm
    exact ⟨i, Array.mem_range.mp hi, rfl⟩
  refine ⟨by simp [messages], fun m hm => ?_, ?_, fun hcut m hm => ?_, fun m hm => ?_⟩
  · obtain ⟨i, -, rfl⟩ := hmessage m hm
    exact size_message h
  · have hcovered : whole.size ≤ s.blocks * s.dataLength := hsize ▸ h.checkedSize_le
    have hfull : s.blocks * s.dataLength =
        (whole ++ Array.replicate (s.blocks * s.dataLength - whole.size) (0 : UInt8)).size := by
      rw [Array.size_append, Array.size_replicate, Nat.add_sub_cancel' hcovered]
    rw [messages, Array.flatMap_map, flatMap_message h (Nat.le_refl _)]
    nth_rewrite 2 [hfull]
    rw [Array.extract_size]
  · obtain ⟨i, -, rfl⟩ := hmessage m hm
    rw [extract_message h, protectedData, if_pos hcut]
    exact Crc.crc24B.ofBits_append_parity _
  · obtain ⟨i, -, rfl⟩ := hmessage m hm
    have hprotected : (s.protectedData whole i).size = s.blockLength := size_protectedData h
    have hlength : s.messageLength = s.blockLength + s.fillers := h.blockLength_add_fillers.symm
    rw [message_eq, hprotected, hlength, Nat.add_sub_cancel_left, ← hprotected]
    simp

/-! ## Putting together -/

/-- The data bits of the first messages are the first part of the whole, by
induction on their number. -/
theorem gather_message (h : s.Sound base tbs) (hlimit : limit ≤ whole.size) (k : Nat) :
    gather s.dataLength limit (s.message whole) k =
      whole.extract 0 (min (k * s.dataLength) limit) := by
  have hdata : ∀ i, s.dataLength ≤ (s.message whole i).size := fun i => by
    have hle : s.dataLength ≤ s.blockLength := Nat.sub_le _ _
    rw [size_message h]
    exact Nat.le_trans hle h.fits
  induction k with
  | zero => simp [gather]
  | succ k ih =>
    have hsize : (gather s.dataLength limit (s.message whole) k).size =
        min (k * s.dataLength) limit := size_gather fun i _ => hdata i
    rw [gather, hsize, ih]
    exact extract_append_message hlimit (hdata k)

/-- The receiver puts together the transport block, with its check if it is cut.
A single codeblock leaves its check out, having checked it on its own. -/
theorem gather_checked (h : s.Sound base tbs) (hsize : whole.size = s.checkedSize tbs) :
    gather (if 1 < s.blocks then s.dataLength else tbs)
        (if s.blocks = 1 then tbs else tbs + longCheckLength) (s.message whole) s.blocks =
      whole.extract 0 (if s.blocks = 1 then tbs else tbs + longCheckLength) := by
  have hcovered := h.checkedSize_le
  by_cases hone : s.blocks = 1
  · rw [if_pos hone, if_neg (by omega), hone]
    rw [hone, Nat.one_mul] at hcovered
    have htbs : tbs ≤ s.checkedSize tbs := Nat.le_add_right _ _
    have hmessage : tbs ≤ (s.message whole 0).size := by
      rw [size_message h]
      exact Nat.le_trans (Nat.le_trans htbs hcovered) (Nat.le_trans (Nat.sub_le _ _) h.fits)
    have hfront := @extract_append whole (s.message whole 0) 0 tbs hmessage (by omega)
      fun j hj => by rw [getD_message (by omega), Nat.zero_mul]
    simpa [gather] using hfront
  · have hcut : 1 < s.blocks := by
      have := h.blocks_pos
      omega
    obtain ⟨htotal, -⟩ := h.checkedSize_of_cut hcut
    rw [if_pos hcut, if_neg hone, gather_message h (by omega), Nat.min_eq_right (by omega)]

theorem size_checked_eq (h : s.Sound base tbs) (hsize : bits.size = tbs) :
    (checked tbs bits).size = s.checkedSize tbs := by
  rw [size_checked, hsize, checkedSize, h.tbCheckLength_eq]

/-- The bits that are put together of several codeblocks pass the check over all
of them. -/
theorem reassemblyCrc_extract (h : s.Sound base tbs) (hsize : bits.size = tbs)
    (hcut : 1 < s.blocks) :
    reassemblyCrc.ofBits ((checked tbs bits).extract 0 (tbs + longCheckLength)) = 0 := by
  obtain ⟨htotal, hcrc⟩ := h.checkedSize_of_cut hcut
  rw [← htotal, ← size_checked_eq h hsize, Array.extract_size, ← hcrc, ofBits_checked]

end Segmentation

/-! ## There and back -/

/-- The data bits that are copied from codeblocks one after the other, `limit`
bits in all. -/
def copyData (limit : Nat) (outgoing : List OutgoingBlock) : Bits :=
  outgoing.foldl
    (fun bits x =>
      bits ++ x.message.extract 0 (min x.codeblock.breakdown.2 (limit - bits.size)))
    #[]

/-- The messages of codeblocks give these bits, whether they are copied or come
out of a reception that has decided on them. -/
structure Restores (outgoing : Array OutgoingBlock) (limit : Nat) (bits : Bits) : Prop where
  copied : copyData limit outgoing.toList = bits
  received : ∀ settings crc softBits a a', a.bits = #[] →
    (outgoing.map (·.codeblock)).zipIdx.foldlM (Assembly.addBlock settings crc softBits limit) a =
      .ok a' →
    (∀ i x, outgoing[i]? = some x → (a'.buffer.block i).message = x.message) → a'.bits = bits

/-- What is copied is what the receiver puts together, so one lemma serves for
both. -/
theorem copyData_eq_gather {codeblock : Nat → Codeblock} {message : Nat → Bits}
    {n limit dataLength : Nat} (hlength : ∀ i < n, (codeblock i).breakdown.2 = dataLength) :
    copyData limit ((List.range n).map fun i => ⟨codeblock i, message i⟩) =
      gather dataLength limit message n := by
  induction n with
  | zero => rfl
  | succ n ih =>
    have hih := ih fun i hi => hlength i (Nat.lt_succ_of_lt hi)
    rw [copyData] at hih
    rw [copyData, List.range_succ, List.map_append, List.foldl_append, hih]
    simp only [List.map_cons, List.map_nil, List.foldl_cons, List.foldl_nil, gather,
      hlength n (Nat.lt_succ_self n)]

namespace CodewordFormat

open Segmentation

variable {format : CodewordFormat} {s : Segmentation} {tbs ring : Nat} {whole : Bits}

/-- What is cut is restored, as far as the receiver wants it. The codeblocks may
have been copied, or decided on by a reception. -/
theorem restores (h : s.Sound format.base tbs) (hsize : whole.size = s.checkedSize tbs) :
    Restores
      ((Array.range s.blocks).map fun i => ⟨format.codeblockAt s ring i, s.message whole i⟩)
      (if s.blocks = 1 then tbs else tbs + longCheckLength)
      (whole.extract 0 (if s.blocks = 1 then tbs else tbs + longCheckLength)) := by
  have hlength : ∀ i < s.blocks, (format.codeblockAt s ring i).breakdown.2 =
      if 1 < s.blocks then s.dataLength else tbs := fun i _ => by
    rw [breakdown_codeblockAt h]
  refine ⟨?_, fun settings crc softBits a a' hstart hloop hmessages => ?_⟩
  · rw [Array.toList_map, Array.toList_range, copyData_eq_gather hlength, gather_checked h hsize]
  · rw [Array.map_map, ← Array.foldlM_toList] at hloop
    change (((Array.range s.blocks).map (format.codeblockAt s ring)).zipIdx.toList).foldlM _ _ = _
      at hloop
    rw [Session.zipIdx_codeblocks] at hloop
    have hmessage : ∀ i < s.blocks, (a'.buffer.block i).message = s.message whole i := fun i hi =>
      hmessages i _ (by rw [Array.getElem?_map, Array.getElem?_range, if_pos hi]; rfl)
    rw [(addBlocks_eq_ok hlength hstart hloop).bits_eq, gather_congr hmessage,
      gather_checked h hsize]

/-- What the receiver wants of a transport block with its check. -/
theorem extract_wanted (h : s.Sound format.base tbs) (hsize : whole.size = s.checkedSize tbs) :
    whole.extract 0 (if s.blocks = 1 then tbs else tbs + longCheckLength) =
      if s.blocks = 1 then whole.extract 0 tbs else whole := by
  split
  · rfl
  · rename_i hone
    have hpos := h.blocks_pos
    obtain ⟨htotal, -⟩ := h.checkedSize_of_cut (by omega)
    rw [← htotal, ← hsize, Array.extract_size]

/-- A codeword that cannot be cut cannot be sent. -/
theorem transmitChecked_eq_error {fault : Fault}
    (h : format.receive format.length tbs = .error fault)
    (hsize : whole.size = tbs + (tbCrc tbs).order) :
    format.transmitChecked whole tbs = .error fault := by
  rw [receive, require_of (beq_self_eq_true _), ok_bind] at h
  rw [transmitChecked]
  cases hfound : Segmentation.ofSize format.base tbs with
  | error cause =>
    rw [hfound] at h
    exact congrArg Except.error (Except.error.inj h)
  | ok s =>
    have hchecked : whole.size = s.checkedSize tbs := by
      rw [hsize, checkedSize, (ofSize_eq_ok hfound).tbCheckLength_eq]
    rw [hfound, ok_bind] at h
    rw [ok_bind, require_of (beq_iff_eq.mpr hchecked), ok_bind, h]
    rfl

/-- Bits that carry a check are cut into messages that restore them. -/
theorem transmitChecked_cases (hpos : 0 < tbs) (hlayers : 0 < format.layers)
    (hwhole : format.layers * format.modulation.order ∣ format.length)
    (hsize : whole.size = tbs + (tbCrc tbs).order) :
    (format.transmitChecked whole tbs = .error .arithmetic ∧ format.Beyond tbs) ∨
    ∃ s outgoing, Segmentation.ofSize format.base tbs = .ok s ∧
      format.transmitChecked whole tbs = .ok outgoing ∧
      outgoing.map (·.message) = s.messages whole ∧
      s.Cuts whole (outgoing.map (·.message)) ∧
      Restores outgoing (if s.blocks = 1 then tbs else tbs + longCheckLength)
        (if s.blocks = 1 then whole.extract 0 tbs else whole) := by
  obtain ⟨hreceive, hbeyond⟩ | ⟨codeblocks, hreceive⟩ := format.receive_cases hpos hlayers hwhole
  · exact .inl ⟨transmitChecked_eq_error hreceive hsize, hbeyond⟩
  · obtain ⟨s, ring, -, hsound, hfound, hcodeblocks, -, rfl, -⟩ := format.receive_eq_ok hreceive
    have hchecked : whole.size = s.checkedSize tbs := by
      rw [hsize, checkedSize, hsound.tbCheckLength_eq]
    have hmessages : ((Array.range s.blocks).map fun i =>
        (⟨format.codeblockAt s ring i, s.message whole i⟩ : OutgoingBlock)).map (·.message) =
          s.messages whole := by
      rw [Array.map_map]
      rfl
    refine .inr ⟨s, _, hfound, transmitChecked_eq hfound hcodeblocks hchecked, hmessages, ?_, ?_⟩
    · rw [hmessages]
      exact cuts_messages hsound hchecked
    · rw [← extract_wanted hsound hchecked]
      exact restores hsound hchecked

/-- Bits of whole bytes are packed into exactly these bytes. -/
theorem exists_packExactly {bits : Bits} (h : bits.HasOnly01) {n : Nat} (hsize : bits.size = n * 8) :
    ∃ block, Bits.packExactly n bits = .ok block ∧ Bits.unpack block = bits := by
  refine ⟨bits.pack, ?_, Bits.unpack_pack h (by omega)⟩
  rw [Bits.packExactly, require_of (beq_iff_eq.mpr hsize.symm)]
  rfl

/-- Cutting loses nothing: the messages hold the bits of a transport block and
its check, and the receiver puts them together again, to the same bytes. Bits
that come with a check, right or wrong, are cut like a transport block to which
the check is attached. Only sizes beyond the machine stand against it. -/
theorem transmit_reassembles (hlayers : 0 < format.layers)
    (hwhole : format.layers * format.modulation.order ∣ format.length) :
    (∀ (tbs : Nat) (whole : Bits), 0 < tbs → whole.size = tbs + (tbCrc tbs).order →
      (format.transmitChecked whole tbs = .error .arithmetic ∧ format.Beyond tbs) ∨
      ∃ s outgoing bits, Segmentation.ofSize format.base tbs = .ok s ∧
        format.transmitChecked whole tbs = .ok outgoing ∧
        s.Cuts whole (outgoing.map (·.message)) ∧
        bits = (if s.blocks = 1 then whole.extract 0 tbs else whole) ∧
        Restores outgoing (if s.blocks = 1 then tbs else tbs + longCheckLength) bits ∧
        (whole.HasOnly01 → ∀ n, tbs = n * 8 → ∃ block,
          Bits.packExactly n (bits.extract 0 tbs) = .ok block ∧
            Bits.unpack block = whole.extract 0 tbs)) ∧
    ∀ block : Bytes, block.size ≠ 0 →
      (format.transmit block = .error .arithmetic ∧ format.Beyond (block.size * 8)) ∨
      ∃ s outgoing bits, Segmentation.ofSize format.base (block.size * 8) = .ok s ∧
        format.transmit block = .ok outgoing ∧
        s.Cuts (Bits.unpack block ++ (tbCrc (block.size * 8)).parity (Bits.unpack block))
          (outgoing.map (·.message)) ∧
        (s.blocks = 1 → ∀ x ∈ outgoing,
          (tbCrc (block.size * 8)).ofBits (x.message.extract 0 s.blockLength) = 0) ∧
        bits = (if s.blocks = 1 then Bits.unpack block
          else Bits.unpack block ++ Crc.crc24A.parity (Bits.unpack block)) ∧
        Restores outgoing
          (if s.blocks = 1 then block.size * 8 else block.size * 8 + longCheckLength) bits ∧
        Bits.packExactly block.size (bits.extract 0 (block.size * 8)) = .ok block := by
  -- one codeblock or several, the transport block is what comes first
  have hfront (tbs : Nat) (bits : Bits) (s : Segmentation) :
      (if s.blocks = 1 then bits.extract 0 tbs else bits).extract 0 tbs = bits.extract 0 tbs := by
    split
    · rw [Array.extract_extract, Nat.zero_add, Nat.zero_add, Nat.min_self]
    · rfl
  refine ⟨fun tbs whole hpos hsize => ?_, fun block hblock => ?_⟩
  · obtain hbeyond | ⟨s, outgoing, hfound, hsent, -, hcuts, hrestores⟩ :=
      transmitChecked_cases hpos hlayers hwhole hsize
    · exact .inl hbeyond
    · refine .inr ⟨s, outgoing, _, hfound, hsent, hcuts, rfl, hrestores, fun h01 n hn => ?_⟩
      rw [hfront]
      refine exists_packExactly (h01.extract 0 tbs) ?_
      rw [Array.size_extract, hsize, hn]
      omega
  · have hbits : (Bits.unpack block).size = block.size * 8 := by
      rw [Bits.size_unpack, Nat.mul_comm]
    have hsize : (checked (block.size * 8) (Bits.unpack block)).size =
        block.size * 8 + (tbCrc (block.size * 8)).order := by rw [size_checked, hbits]
    rw [transmit_eq_transmitChecked]
    obtain hbeyond | ⟨s, outgoing, hfound, hsent, hmessages, hcuts, hrestores⟩ :=
      transmitChecked_cases (by omega) hlayers hwhole hsize
    · exact .inl hbeyond
    · have hsound := ofSize_eq_ok hfound
      have hblockBits : (checked (block.size * 8) (Bits.unpack block)).extract 0 (block.size * 8) =
          Bits.unpack block := by
        rw [checked, ← hbits, Array.extract_append_left, Array.extract_size]
      refine .inr ⟨s, outgoing, _, hfound, hsent, hcuts, fun hone x hx => ?_, ?_, hrestores, ?_⟩
      · -- a codeblock that is alone carries the check of the transport block itself
        have hmem : x.message ∈ s.messages (checked (block.size * 8) (Bits.unpack block)) :=
          hmessages ▸ Array.mem_map_of_mem hx
        obtain ⟨i, hi, hmessage⟩ := Array.mem_map.mp hmem
        have hcheck := ofBits_message hsound hbits (Array.mem_range.mp hi)
        rwa [hmessage, blockCrc, if_neg (by omega)] at hcheck
      · rw [hblockBits]
        split
        · rfl
        · rename_i hone
          -- only long transport blocks are cut, so the check over all is the long one
          have hcut : 1 < s.blocks := by
            have := hsound.blocks_pos
            omega
          rw [checked, (hsound.checkedSize_of_cut hcut).2]
          rfl
      · rw [hfront, hblockBits, Bits.packExactly, require_of (beq_iff_eq.mpr hbits.symm),
          ok_bind, Bits.pack_unpack]
        rfl

/-- A block of 500 bytes is cut in two. -/
theorem transmit_reassembles_cut :
    let format : CodewordFormat := ⟨.two, 0, .qam16, 0, 1, 8⟩
    let block : Bytes := Array.replicate 500 0xA5
    0 < format.layers ∧ format.layers * format.modulation.order ∣ format.length ∧
      ∃ (s : Segmentation) (outgoing : Array OutgoingBlock),
        format.transmit block = .ok outgoing ∧ outgoing.size = 2 ∧
        s.Cuts (Bits.unpack block ++ Crc.crc24A.parity (Bits.unpack block))
          (outgoing.map (·.message)) ∧
        Restores outgoing 4024 (Bits.unpack block ++ Crc.crc24A.parity (Bits.unpack block)) := by
  intro format block
  have hlayers : 0 < format.layers := by decide
  have hwhole : format.layers * format.modulation.order ∣ format.length := by decide
  have hsize : block.size = 500 := Array.size_replicate
  have htwo : (Segmentation.ofSize .two 4000).map (·.blocks) = .ok 2 := by decide +kernel
  refine ⟨hlayers, hwhole, ?_⟩
  obtain ⟨-, hbeyond⟩ | ⟨s, outgoing, bits, hfound, hsent, hcuts, -, rfl, hrestores, -⟩ :=
    (format.transmit_reassembles hlayers hwhole).2 block (by omega)
  · rw [Beyond, hsize] at hbeyond
    exact absurd hbeyond (by decide)
  · rw [hsize] at hfound hcuts hrestores
    change Segmentation.ofSize .two 4000 = .ok s at hfound
    rw [hfound] at htwo
    have hblocks : s.blocks = 2 := Except.ok.inj htwo
    rw [hblocks] at hrestores
    refine ⟨s, outgoing, hsent, ?_, hcuts, hrestores⟩
    rw [← hblocks, ← hcuts.count, Array.size_map]

end CodewordFormat

end Uplink
