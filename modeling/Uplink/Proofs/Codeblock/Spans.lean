import Uplink.Proofs.TransportBlock.Sent
import Uplink.Proofs.Segmentation.Exact

/-!
# The spans of codeblocks

Each codeblock has its own part of the codeword. The parts are found one from the other, by a walk
that adds up their lengths, and the lengths by rounding down or up depending on the number of the
codeblock.

- `Codeblock.Tile`: codeblocks cover a stretch of bits, one behind the other.
- `Codeblock.EvenlyCut`: their lengths are whole groups and as equal as possible, longer ones last.
- `CodewordFormat.tile_codeblocks`, `evenlyCut_codeblocks`: the codeblocks of a codeword do both.
- `TransportBlock.Fills`: every codeblock stands in its span of a codeword that is sent.
- `CodewordFormat.receive_cases`: a codeword of whole groups is cut, or its sizes are `Beyond` the
  machine.
- `CodewordFormat.receive_tiles`: the receiver and both ways to send cut every codeword in this way.
-/

namespace Uplink

open Ldpc

namespace Codeblock

/-- The codeblocks cover the bits from `first` up to, not including, `stop`, one
behind the other. -/
def Tile : (first : Nat) → List Codeblock → (stop : Nat) → Prop
  | first, [], stop => first = stop
  | first, c :: rest, stop => c.offset = first ∧ Tile c.stop rest stop

/-- The lengths are whole groups, never decrease and differ by one group at
most. -/
structure EvenlyCut (group : Nat) (codeblocks : List Codeblock) : Prop where
  whole : ∀ c ∈ codeblocks, group ∣ c.matchedLength
  increasing : codeblocks.Pairwise fun c c' => c.matchedLength ≤ c'.matchedLength
  even : codeblocks.Pairwise fun c c' => c'.matchedLength ≤ c.matchedLength + group

end Codeblock

/-! ## Shares of the codeword -/

namespace CodewordFormat

variable (format : CodewordFormat) {blocks i j : Nat}

/-- A codeblock has whole groups, so no symbol belongs to two codeblocks. -/
theorem group_dvd_share (blocks i : Nat) : format.group ∣ format.share blocks i := by
  unfold share
  dsimp only
  split
  · exact Nat.dvd_mul_right _ _
  · exact Nat.dvd_mul_right _ _

/-- Rounded up, a quotient is that rounded down or the next one. -/
theorem div_le_ceil (groups : Nat) (hblocks : 0 < blocks) :
    groups / blocks ≤ (groups + blocks - 1) / blocks ∧
      (groups + blocks - 1) / blocks ≤ groups / blocks + 1 := by
  have hnext : (groups + blocks) / blocks = groups / blocks + 1 := Nat.add_div_right _ hblocks
  constructor
  · exact Nat.div_le_div_right (by omega)
  · rw [← hnext]
    exact Nat.div_le_div_right (by omega)

/-- A later codeblock is not shorter, and not longer by more than one group. -/
theorem share_le_share (hblocks : 0 < blocks) (h : i ≤ j) :
    format.share blocks i ≤ format.share blocks j ∧
      format.share blocks j ≤ format.share blocks i + format.group := by
  obtain ⟨hle, hge⟩ := div_le_ceil (format.length / format.group) hblocks
  have hfloor := Nat.mul_le_mul_left format.group hle
  have hceil := Nat.mul_le_mul_left format.group hge
  rw [Nat.mul_add_one] at hceil
  unfold share
  dsimp only
  -- the codeblocks that get one more group come last
  by_cases hj : j < blocks - format.length / format.group % blocks
  · rw [if_pos hj, if_pos (by omega)]
    omega
  · rw [if_neg hj]
    split <;> omega

variable {s : Segmentation} {ring tbs : Nat}

/-- From codeblock `i` on, `n` codeblocks cover the bits between their starts.
The induction is on the number of codeblocks that are left. -/
theorem tile_range' (s : Segmentation) (ring i n : Nat) :
    Codeblock.Tile (format.start s.blocks i)
      ((List.range' i n).map (format.codeblockAt s ring)) (format.start s.blocks (i + n)) := by
  induction n generalizing i with
  | zero => rfl
  | succ n ih =>
    rw [List.range'_succ, List.map_cons]
    refine ⟨rfl, ?_⟩
    rw [stop_codeblockAt, show i + (n + 1) = i + 1 + n by omega]
    exact ih (i + 1)

theorem toList_codeblocks (s : Segmentation) (ring : Nat) :
    ((Array.range s.blocks).map (format.codeblockAt s ring)).toList =
      (List.range' 0 s.blocks).map (format.codeblockAt s ring) := by
  rw [Array.toList_map, Array.toList_range, List.range_eq_range']

/-- All codeblocks cover the codeword, from its first bit to its last. -/
theorem tile_codeblocks (h : s.Sound format.base tbs)
    (hrest : format.length % format.group = 0) :
    Codeblock.Tile 0 ((Array.range s.blocks).map (format.codeblockAt s ring)).toList
      format.length := by
  have htile := format.tile_range' s ring 0 s.blocks
  rwa [Nat.zero_add, format.start_blocks h.blocks_pos hrest, ← toList_codeblocks] at htile

/-- Their lengths are as equal as whole groups can be. -/
theorem evenlyCut_codeblocks (h : s.Sound format.base tbs) :
    Codeblock.EvenlyCut format.group
      ((Array.range s.blocks).map (format.codeblockAt s ring)).toList := by
  have hsorted : (List.range' 0 s.blocks).Pairwise (· < ·) := List.pairwise_lt_range'
  have hshare {i j : Nat} (hij : i < j) := format.share_le_share h.blocks_pos (Nat.le_of_lt hij)
  rw [toList_codeblocks]
  refine ⟨fun c hc => ?_, ?_, ?_⟩
  · obtain ⟨i, -, rfl⟩ := List.mem_map.mp hc
    exact format.group_dvd_share s.blocks i
  · exact List.pairwise_map.mpr (hsorted.imp fun hij => (hshare hij).1)
  · exact List.pairwise_map.mpr (hsorted.imp fun hij => (hshare hij).2)

end CodewordFormat

/-! ## What is sent -/

namespace TransportBlock

/-- In the span of every codeblock the codeword holds the encoded and matched
message. -/
def Fills (outgoing : List OutgoingBlock) (w : Bits) : Prop :=
  ∀ x ∈ outgoing, ∃ store store' sent,
    Ldpc.encode store x.codeblock.base x.codeblock.liftingSize x.message x.codeblock.sentLength =
      .ok (sent, store') ∧
    x.codeblock.rateMatch sent x.codeblock.matchedLength =
      .ok (w.extract x.codeblock.offset x.codeblock.stop)

variable {x : OutgoingBlock} {outgoing : List OutgoingBlock} {w w' sent bits : Bits}
  {store store' : GraphStore} {first stop : Nat}

/-- Rate matching fills the span of its codeblock, or fails. -/
theorem size_of_rateMatch {c : Codeblock} {n : Nat} (h : c.rateMatch sent n = .ok bits) :
    bits.size = c.matchedLength := by
  unfold Codeblock.rateMatch at h
  simp only [bind_eq_ok] at h
  obtain ⟨-, -, -, -, -, -, selection, -, hloop⟩ := h
  refine foldlM_invariant (fun _ (output : Bits) => output.size = c.matchedLength) hloop
    Array.size_replicate ?_
  rintro - k - output output' - hsize hstep
  obtain ⟨bit, -, hstep⟩ := bind_eq_ok.mp hstep
  rw [← Except.ok.inj hstep, Array.size_setIfInBounds, hsize]

/-- Appended is what the codeblock's message is encoded to, of the length of its
span. What was there before is not touched. -/
theorem appendBlock_eq_ok (h : appendBlock (w, store) x = .ok (w', store')) :
    ∃ sent bits store₁,
      Ldpc.encode store x.codeblock.base x.codeblock.liftingSize x.message x.codeblock.sentLength =
        .ok (sent, store₁) ∧
      x.codeblock.rateMatch sent x.codeblock.matchedLength = .ok bits ∧
      bits.size = x.codeblock.matchedLength ∧ w' = w ++ bits := by
  obtain ⟨⟨sent, store₁⟩, hsent, h⟩ := bind_eq_ok.mp h
  obtain ⟨bits, hbits, h⟩ := bind_eq_ok.mp h
  obtain ⟨rfl, -⟩ := Prod.mk.inj (Except.ok.inj h)
  exact ⟨sent, bits, store₁, hsent, hbits, size_of_rateMatch hbits, rfl⟩

/-- Codeblocks that cover a stretch of bits are each appended where their span
begins, and stay as they were appended when others follow. -/
theorem fills_of_appendBlocks (htile : Codeblock.Tile w.size (outgoing.map (·.codeblock)) stop)
    (h : outgoing.foldlM appendBlock (w, store) = .ok (w', store')) :
    w'.extract 0 w.size = w ∧ Fills outgoing w' := by
  induction outgoing generalizing w store with
  | nil =>
    obtain ⟨rfl, -⟩ := Prod.mk.inj (Except.ok.inj h)
    exact ⟨Array.extract_size, fun x hx => absurd hx List.not_mem_nil⟩
  | cons x outgoing ih =>
    rw [List.foldlM_cons] at h
    obtain ⟨⟨w₁, store₁⟩, happend, hrest⟩ := bind_eq_ok.mp h
    obtain ⟨sent, bits, store₂, hsent, hbits, hsize, rfl⟩ := appendBlock_eq_ok happend
    rw [List.map_cons] at htile
    obtain ⟨hoffset, htile⟩ := htile
    have hstop : x.codeblock.stop = (w ++ bits).size := by
      rw [Codeblock.stop, hoffset, Array.size_append, hsize]
    rw [hstop] at htile
    obtain ⟨hkept, hfills⟩ := ih htile hrest
    -- what was appended before is still there in the end
    have hspan (start stop : Nat) (hle : stop ≤ (w ++ bits).size) :
        w'.extract start stop = (w ++ bits).extract start stop := by
      rw [← hkept, Array.extract_extract, Nat.zero_add, Nat.zero_add, Nat.min_eq_left hle]
    refine ⟨?_, fun y hy => ?_⟩
    · rw [hspan 0 w.size (by rw [Array.size_append]; omega), Array.extract_append_left,
        Array.extract_size]
    · rcases List.mem_cons.mp hy with rfl | hy
      · refine ⟨store, store₂, sent, hsent, ?_⟩
        rw [hbits, hspan _ _ (Nat.le_of_eq hstop), hoffset, hstop]
        simp
      · exact hfills y hy

/-- What is sent are these codeblocks, and each stands in its span of the
codeword. -/
def Sends (outgoing : Checked (Array OutgoingBlock)) (codeblocks : Array Codeblock) (w : Bits) :
    Prop :=
  ∃ blocks, outgoing = .ok blocks ∧ blocks.map (·.codeblock) = codeblocks ∧ Fills blocks.toList w

variable {format : CodewordFormat} {seg : Segmentation} {ring tbs : Nat}

/-- Bits that carry a check are sent in the spans of their codeblocks, which are
those that the receiver cuts. -/
theorem sends_of_encodeChecked {checked : Bits}
    (hfound : Segmentation.ofSize format.base tbs = .ok seg)
    (hcodeblocks : format.codeblocks seg =
      .ok ((Array.range seg.blocks).map (format.codeblockAt seg ring)))
    (hrest : format.length % format.group = 0)
    (h : encodeChecked store format checked tbs = .ok (w, store')) :
    Sends (format.transmitChecked checked tbs)
      ((Array.range seg.blocks).map (format.codeblockAt seg ring)) w := by
  obtain ⟨outgoing, hsent, h⟩ := bind_eq_ok.mp h
  obtain ⟨_, -, hloop⟩ := bind_eq_ok.mp h
  have hsize : checked.size = seg.checkedSize tbs := by
    simp only [CodewordFormat.transmitChecked, hfound, ok_bind, bind_eq_ok, require_eq_ok] at hsent
    obtain ⟨-, hsize, -⟩ := hsent
    simpa using hsize
  have hblocks : outgoing.map (·.codeblock) =
      (Array.range seg.blocks).map (format.codeblockAt seg ring) := by
    rw [CodewordFormat.transmitChecked_eq hfound hcodeblocks hsize] at hsent
    rw [← Except.ok.inj hsent, Array.map_map]
    rfl
  have htile : Codeblock.Tile 0
      ((Array.range seg.blocks).map (format.codeblockAt seg ring)).toList format.length :=
    format.tile_codeblocks (Segmentation.ofSize_eq_ok hfound) hrest
  rw [← hblocks, Array.toList_map] at htile
  rw [← Array.foldlM_toList] at hloop
  exact ⟨outgoing, hsent, hblocks, (fills_of_appendBlocks (w := #[]) htile hloop).2⟩

/-- So is a transport block, whose check is attached first. -/
theorem sends_of_encode {block : Bytes}
    (hfound : Segmentation.ofSize format.base (block.size * 8) = .ok seg)
    (hcodeblocks : format.codeblocks seg =
      .ok ((Array.range seg.blocks).map (format.codeblockAt seg ring)))
    (hrest : format.length % format.group = 0)
    (h : encode store format block = .ok (w, store')) :
    Sends (format.transmit block)
      ((Array.range seg.blocks).map (format.codeblockAt seg ring)) w := by
  rw [encode, CodewordFormat.transmit_eq_transmitChecked] at h
  rw [CodewordFormat.transmit_eq_transmitChecked]
  exact sends_of_encodeChecked hfound hcodeblocks hrest h

end TransportBlock

/-! ## Every codeword -/

namespace CodewordFormat

variable (format : CodewordFormat) {tbs : Nat}

/-- Nothing but the range of machine sizes stops a receiver from cutting a
codeword of whole groups. All requirements on the way hold, and no divisor is
zero. -/
theorem overflowsOnly_receive (hpos : 0 < tbs) (hgroup : format.group ≠ 0)
    (hrest : format.length % format.group = 0) :
    OverflowsOnly (format.receive format.length tbs) := by
  have hbuffer (s : Segmentation) : OverflowsOnly (format.bufferLength s) := by
    unfold bufferLength
    dsimp only
    split
    · exact .of_ok rfl
    · exact .bind (.size_ofNat _) fun _ _ => .of_ok rfl
  have hmatched (blocks i : Nat) : OverflowsOnly (format.matchedLength blocks i) := by
    unfold matchedLength
    refine .bind (.size_ofNat _) fun group hmul => ?_
    obtain ⟨-, rfl⟩ := Size.mul_eq_ok.mp hmul
    have hwhole : require (format.length % format.group == 0)
        s!"Codeword of {format.length} bits is not a multiple of NL * Qm = {format.group}" =
          .ok () := require_of (beq_iff_eq.mpr hrest) _
    refine .bind (.of_ok (Size.mod_of_pos (Nat.pos_of_ne_zero hgroup))) fun rest hmod => ?_
    obtain ⟨-, rfl⟩ := Size.mod_eq_ok.mp hmod
    refine .bind (.of_ok hwhole) fun _ _ => ?_
    dsimp only
    split
    · exact .of_ok rfl
    · exact .of_ok rfl
  -- the receiver cuts the codeword with these, one codeblock after the other
  unfold receive
  refine .bind (.of_ok (require_of (beq_self_eq_true _) _)) fun _ _ => ?_
  refine .bind (Segmentation.overflowsOnly_ofSize format.base hpos) fun s _ => ?_
  unfold codeblocks
  refine .bind (hbuffer s) fun ring _ => .bind (.foldlM (fun state i => ?_) _ _) fun _ _ => .of_ok rfl
  exact .bind (hmatched s.blocks i) fun _ _ => .of_ok rfl

/-- Among the sizes that are found for a transport block of `tbs` bits some may
be beyond the machine. -/
def Beyond (format : CodewordFormat) (tbs : Nat) : Prop :=
  Size.limit ≤ 2 * tbs ∨ Size.limit ≤ format.layers * format.modulation.order ∨
    Size.limit ≤ 3 * format.bufferLimit

/-- A codeword of whole groups is cut, but for sizes beyond the machine. If
those that decide are within it, none of the others leaves it. -/
theorem receive_cases (hpos : 0 < tbs) (hlayers : 0 < format.layers)
    (hwhole : format.layers * format.modulation.order ∣ format.length) :
    (format.receive format.length tbs = .error .arithmetic ∧ format.Beyond tbs) ∨
      ∃ codeblocks, format.receive format.length tbs = .ok codeblocks := by
  have hgroup : format.group ≠ 0 := Nat.ne_of_gt (Nat.mul_pos hlayers format.modulation.order_pos)
  have hrest : format.length % format.group = 0 := Nat.mod_eq_zero_of_dvd hwhole
  cases h : format.receive format.length tbs with
  | error fault =>
    obtain rfl := format.overflowsOnly_receive hpos hgroup hrest fault h
    refine .inl ⟨rfl, ?_⟩
    by_contra hsizes
    simp only [Beyond, not_or, Nat.not_le] at hsizes
    obtain ⟨htbs, hlimit, hbuffer⟩ := hsizes
    obtain ⟨codeblocks, hok⟩ := format.exists_receive hpos htbs hgroup hlimit hrest hbuffer
    exact nomatch h.symm.trans hok
  | ok codeblocks => exact .inr ⟨codeblocks, rfl⟩

/-- A codeword of whole groups is cut into spans that cover it one behind the
other, of lengths that are as equal as whole groups can be, and both ways to
send fill these spans. Only sizes beyond the machine stand against it. -/
theorem receive_tiles (hpos : 0 < tbs) (hlayers : 0 < format.layers)
    (hwhole : format.layers * format.modulation.order ∣ format.length) :
    (format.receive format.length tbs = .error .arithmetic ∧ format.Beyond tbs) ∨
    ∃ s codeblocks, Segmentation.ofSize format.base tbs = .ok s ∧
      format.receive format.length tbs = .ok codeblocks ∧ codeblocks.size = s.blocks ∧
      Codeblock.Tile 0 codeblocks.toList format.length ∧
      Codeblock.EvenlyCut (format.layers * format.modulation.order) codeblocks.toList ∧
      (∀ store checked w store',
        TransportBlock.encodeChecked store format checked tbs = .ok (w, store') →
          TransportBlock.Sends (format.transmitChecked checked tbs) codeblocks w) ∧
      ∀ store block w store', block.size * 8 = tbs →
        TransportBlock.encode store format block = .ok (w, store') →
          TransportBlock.Sends (format.transmit block) codeblocks w := by
  obtain hbeyond | ⟨codeblocks, hreceive⟩ := format.receive_cases hpos hlayers hwhole
  · exact .inl hbeyond
  · obtain ⟨s, ring, -, hsound, hfound, hcodeblocks, -, rfl, hrest⟩ := format.receive_eq_ok hreceive
    refine .inr ⟨s, _, hfound, hreceive, by simp, format.tile_codeblocks hsound hrest,
      format.evenlyCut_codeblocks hsound, ?_, ?_⟩
    · intro store checked w store' hencode
      exact TransportBlock.sends_of_encodeChecked hfound hcodeblocks hrest hencode
    · rintro store block w store' rfl hencode
      exact TransportBlock.sends_of_encode hfound hcodeblocks hrest hencode

/-- Of two groups for three codeblocks the last two get one each. -/
theorem receive_tiles_few :
    let format : CodewordFormat := ⟨.one, 0, .qam16, 0, 1, 8⟩
    0 < 20000 ∧ 0 < format.layers ∧ format.layers * format.modulation.order ∣ format.length ∧
      ∃ codeblocks, format.receive 8 20000 = .ok codeblocks ∧
        codeblocks.map (fun c => (c.offset, c.matchedLength)) = #[(0, 0), (0, 4), (4, 4)] ∧
        Codeblock.Tile 0 codeblocks.toList 8 ∧ Codeblock.EvenlyCut 4 codeblocks.toList := by
  intro format
  have hpos : 0 < 20000 := by decide
  have hlayers : 0 < format.layers := by decide
  have hwhole : format.layers * format.modulation.order ∣ format.length := by decide
  have hspans : (format.receive 8 20000).map (·.map fun c => (c.offset, c.matchedLength)) =
      .ok #[(0, 0), (0, 4), (4, 4)] := by decide +kernel
  obtain ⟨hfault, -⟩ | ⟨s, codeblocks, -, hreceive, -, htile, heven, -⟩ :=
    format.receive_tiles hpos hlayers hwhole
  · exact nomatch (congrArg (Except.map _) hfault).symm.trans hspans
  · change format.receive 8 20000 = .ok codeblocks at hreceive
    rw [hreceive] at hspans
    exact ⟨hpos, hlayers, hwhole, codeblocks, hreceive, Except.ok.inj hspans, htile, heven⟩

end CodewordFormat

end Uplink
