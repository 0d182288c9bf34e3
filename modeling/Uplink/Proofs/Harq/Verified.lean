import Uplink.Proofs.Harq.Combining

/-!
# Verified transport blocks

A history of one size of transport block. A flag vouches for the message beside it, all flags
together for the transport block, and a transport block that was delivered is delivered again by
every retransmission.

- `Trusted`: a flag that is set vouches for a message that passes its check.
- `Segmentation.restored`: the transport block with its check, as the messages hold it.
- `Session.Outcome.restored_eq`: what a verified session writes is what it restored, and the check
  is its own.
- `Delivered`: the buffer of a transport block that was verified; `Session.Outcome.again`: a
  retransmission finds it and leaves it so.
- `History.block_invariant`: all of it, after every session.
- `History.not_delivered_after_newData`: new data end a delivery.
-/

namespace Uplink

open Ldpc

/-! ## Flags -/

/-- A flag that is set vouches for a message of the segmentation that passes its
check. -/
structure Trusted (seg : Segmentation) (tbs : Nat) (b : StoredBlock) : Prop where
  size : b.message.size = seg.messageLength
  bits : b.message.HasOnly01
  check : (Segmentation.blockCrc seg.blocks tbs).ofBits (b.message.extract 0 seg.blockLength) = 0

/-- A session keeps the trust that it finds, and adds what its decoder accepts.
A kept message stays as it is, since it has the length of the segmentation. -/
theorem Session.Outcome.trusted {s : Session} {before combined : HarqBuffer} {seg : Segmentation}
    {ring i : Nat} {result : SchResult} {r : Reception}
    (h : s.Outcome before seg ring combined result r) (hi : i < seg.blocks)
    (hbefore : (before.block i).passed = true → Trusted seg s.tbs (before.block i))
    (hpassed : (combined.block i).passed = true) : Trusted seg s.tbs (combined.block i) := by
  have hadvance := h.advanceAt hi
  have hlength := h.breakdown_eq i
  cases hold : ((s.opened before).block i).passed with
  | true =>
    obtain ⟨hsize, hbits, hcheck⟩ := hbefore (s.passed_opened.mp hold).2
    obtain ⟨-, hmessage⟩ := h.kept hi hold
    rw [if_pos hsize] at hmessage
    exact ⟨by rw [hmessage, hsize], hmessage ▸ hbits, by rw [hmessage, hcheck]⟩
  | false =>
    obtain ⟨decoder, decision, decoder', hdecode, hmessage, -⟩ := hadvance.decided hold
    obtain ⟨hsize, hbits, -⟩ := ReceptionSettings.decodeBlock_eq_ok hdecode
    have hcheck := hadvance.check hold hpassed
    have hsignificant : seg.messageLength - (s.codeblock seg i).fillers = seg.blockLength := by
      rw [← h.sound.blockLength_add_fillers]
      exact Nat.add_sub_cancel _ _
    rw [hlength, hsignificant] at hcheck
    exact ⟨by rw [hmessage, hsize, hlength], hmessage ▸ hbits, hcheck⟩

namespace History

variable {n : Nat} {base : BaseGraph} {tbs : Nat} {past : List Finished} {f : Finished}
  {buffer : HarqBuffer} {seg : Segmentation}

/-- In a history of one size of transport block every flag vouches for its
message, by induction on the sessions. -/
theorem trusted (h : History n past buffer) (hsame : SameBlock base tbs past)
    (hfound : Segmentation.ofSize base tbs = .ok seg) {i : Nat} (hi : i < n)
    (hpassed : (buffer.block i).passed = true) : Trusted seg tbs (buffer.block i) := by
  induction past generalizing buffer with
  | nil =>
    rw [h.start_eq, HarqBuffer.block_ofCount] at hpassed
    cases hpassed
  | cons f past ih =>
    obtain ⟨rfl, ring, combined, houtcome⟩ := h.outcome_of_same hsame hfound
    obtain ⟨hpast, -, rfl⟩ := h.last
    obtain ⟨-, rfl⟩ := hsame f List.mem_cons_self
    have hbefore := ih hpast fun g hg => hsame g (List.mem_cons_of_mem f hg)
    obtain ⟨-, hmessage, hcombined⟩ := houtcome.block_buffer i
    obtain ⟨hsize, hbits, hcheck⟩ := houtcome.trusted hi hbefore (hcombined hpassed)
    exact ⟨by rw [hmessage, hsize], hmessage ▸ hbits, by rw [hmessage, hcheck]⟩

end History

/-! ## The transport block -/

/-- The transport block with its check, as the messages of a buffer hold it. -/
def Segmentation.restored (seg : Segmentation) (tbs : Nat) (buffer : HarqBuffer) : Bits :=
  gather seg.dataLength (seg.checkedSize tbs) (fun i => (buffer.block i).message) seg.blocks

namespace Segmentation.Sound

variable {base : BaseGraph} {tbs : Nat} {seg : Segmentation} {buffer : HarqBuffer}

theorem size_restored (h : seg.Sound base tbs)
    (hsize : ∀ i < seg.blocks, (buffer.block i).message.size = seg.messageLength) :
    (seg.restored tbs buffer).size = seg.checkedSize tbs := by
  have hdata : seg.dataLength ≤ seg.messageLength := Nat.le_trans (Nat.sub_le _ _) h.fits
  rw [restored, size_gather fun i hi => by rw [hsize i hi]; exact hdata]
  exact Nat.min_eq_right h.checkedSize_le

/-- A codeblock that is alone holds the transport block with its check, and no
check of its own. -/
theorem restored_single (h : seg.Sound base tbs) (hone : seg.blocks = 1) :
    seg.restored tbs buffer = (buffer.block 0).message.extract 0 seg.blockLength := by
  have hlength := h.single hone
  have hdata : seg.dataLength = seg.blockLength := by
    rw [dataLength, h.blockCheckLength_eq, if_neg (by omega), Nat.sub_zero]
  rw [restored, hone, hdata, ← hlength]
  simp [gather]

end Segmentation.Sound

namespace Session

variable {s : Session} {seg : Segmentation} {base : BaseGraph}

/-- What a session puts together is the part that it wants of what the messages
hold. -/
theorem assembled_eq (h : seg.Sound base s.tbs) (buffer : HarqBuffer)
    (hsize : ∀ i < seg.blocks, (buffer.block i).message.size = seg.messageLength) :
    s.assembled seg buffer = (seg.restored s.tbs buffer).extract 0 (s.wanted seg) := by
  have hrestored := h.size_restored hsize
  by_cases hone : seg.blocks = 1
  · have hle : s.tbs ≤ seg.blockLength := by
      rw [h.single hone, Segmentation.checkedSize]
      exact Nat.le_add_right _ _
    rw [h.restored_single hone, assembled, takenLength, wanted, if_pos hone, if_neg (by omega),
      hone]
    simp [gather, Nat.min_eq_left hle]
  · have hpos := h.blocks_pos
    have hcut : 1 < seg.blocks := by omega
    obtain ⟨htotal, -⟩ := h.checkedSize_of_cut hcut
    rw [wanted, if_neg hone, ← htotal, ← hrestored, Array.extract_size, assembled, takenLength,
      wanted, if_neg hone, if_pos hcut, ← htotal]
    rfl

namespace Outcome

variable {before combined : HarqBuffer} {ring : Nat} {result : SchResult} {r : Reception}

/-- What is restored after the verification is what the codeblocks held before
it, as it changes flags only. -/
theorem assembled_buffer (h : s.Outcome before seg ring combined result r) :
    s.assembled seg combined = (seg.restored s.tbs r.buffer).extract 0 (s.wanted seg) := by
  rw [← s.assembled_eq h.sound r.buffer fun i hi => h.size_message hi, assembled, assembled]
  exact gather_congr fun i _ => (h.block_buffer i).2.1.symm

/-- Of several codeblocks all of it is wanted. -/
theorem assembled_of_cut (h : s.Outcome before seg ring combined result r) (hcut : seg.blocks ≠ 1) :
    s.assembled seg combined = seg.restored s.tbs r.buffer := by
  have hpos := h.sound.blocks_pos
  obtain ⟨htotal, -⟩ := h.sound.checkedSize_of_cut (by omega)
  rw [h.assembled_buffer, wanted, if_neg hcut, ← htotal,
    ← h.sound.size_restored fun i hi => h.size_message hi, Array.extract_size]

/-- What a session writes is the first part of what it restored; the check
behind it is left out. -/
theorem block_of_verified (h : s.Outcome before seg ring combined result r)
    (hverified : result.verified = true) :
    r.block = Bits.pack ((seg.restored s.tbs r.buffer).extract 0 s.tbs) := by
  rw [h.block, if_pos hverified, h.assembled_buffer, Array.extract_extract, Nat.zero_add,
    Nat.zero_add, Nat.min_eq_left (s.tbs_le_wanted seg)]

/-- The restored bits are those of the transport block that is written, and then
exactly their check. -/
theorem restored_eq (h : s.Outcome before seg ring combined result r)
    (htrusted : ∀ i < seg.blocks, Trusted seg s.tbs (r.buffer.block i))
    (hverified : result.verified = true) :
    seg.restored s.tbs r.buffer = Segmentation.checked s.tbs (Bits.unpack r.block) := by
  set whole := seg.restored s.tbs r.buffer with hwhole
  have hsize : whole.size = s.tbs + (Segmentation.tbCrc s.tbs).order := by
    rw [hwhole, h.sound.size_restored fun i hi => (htrusted i hi).size, Segmentation.checkedSize,
      h.sound.tbCheckLength_eq]
  have hbits : whole.HasOnly01 := forall_mem_gather fun i hi => (htrusted i hi).bits
  -- alone or cut, the check of the transport block was made: by the decoder, or over all messages
  have hzero : (Segmentation.tbCrc s.tbs).ofBits whole = 0 := by
    by_cases hone : seg.blocks = 1
    · have hcheck := (htrusted 0 h.sound.blocks_pos).check
      rw [Segmentation.blockCrc, if_neg (by omega)] at hcheck
      rw [hwhole, h.sound.restored_single hone, hcheck]
    · have hpos := h.sound.blocks_pos
      have htogether := (h.verified.mp hverified).2.resolve_left hone
      rw [h.assembled_of_cut hone] at htogether
      rw [(h.sound.checkedSize_of_cut (by omega)).2, hwhole, htogether]
  have hdata : Bits.unpack r.block = whole.extract 0 s.tbs := by
    have hblock : (whole.extract 0 s.tbs).size = s.tbs := by
      rw [Array.size_extract, hsize]
      omega
    rw [h.block_of_verified hverified]
    refine Bits.unpack_pack (hbits.extract _ _) ?_
    rw [hblock, tbs]
    exact Nat.mul_mod_left _ _
  -- the rest has as many bits as the check, and completes the data to a word that passes
  have hsplit : Bits.unpack r.block ++ whole.extract s.tbs whole.size = whole := by
    rw [hdata, Array.extract_append_extract, Nat.min_eq_left (Nat.zero_le _),
      Nat.max_eq_right (by omega), Array.extract_size]
  have htail : whole.extract s.tbs whole.size =
      (Segmentation.tbCrc s.tbs).parity (Bits.unpack r.block) := by
    refine Crc.eq_parity _ ?_ (hbits.extract _ _) (by rw [hsplit, hzero])
    rw [Array.size_extract, hsize]
    omega
  rw [Segmentation.checked, ← htail, hsplit]

end Outcome

end Session

/-! ## Delivered again -/

/-- The buffer of a transport block that was verified: all flags are set, and
the messages hold the block. -/
structure Delivered (seg : Segmentation) (tbs : Nat) (block : Bytes) (buffer : HarqBuffer) :
    Prop where
  passed : ∀ i < seg.blocks, (buffer.block i).passed = true
  size : ∀ i < seg.blocks, (buffer.block i).message.size = seg.messageLength
  together : seg.blocks = 1 ∨ Segmentation.reassemblyCrc.ofBits (seg.restored tbs buffer) = 0
  block_eq : block = Bits.pack ((seg.restored tbs buffer).extract 0 tbs)

namespace Session.Outcome

variable {s : Session} {seg : Segmentation} {before combined : HarqBuffer} {ring : Nat}
  {result : SchResult} {r : Reception}

/-- A verified session leaves its transport block in the buffer, ready to be
delivered again. -/
theorem delivered (h : s.Outcome before seg ring combined result r)
    (hverified : result.verified = true) : Delivered seg s.tbs r.block r.buffer where
  passed := h.all_passed_iff.mpr hverified
  size := fun i hi => h.size_message hi
  together := by
    by_cases hone : seg.blocks = 1
    · exact .inl hone
    · have htogether := (h.verified.mp hverified).2.resolve_left hone
      rw [h.assembled_of_cut hone] at htogether
      exact .inr htogether
  block_eq := h.block_of_verified hverified

/-- A retransmission of a transport block that was delivered decodes nothing and
delivers it again, whatever its soft bits. -/
theorem again {block : Bytes} (h : s.Outcome before seg ring combined result r)
    (hold : s.settings.newData = false) (hbefore : Delivered seg s.tbs block before) :
    result.verified = true ∧ r.block = block ∧ result.statistics.count = 0 := by
  have hkept : ∀ i < seg.blocks, (combined.block i).message = (before.block i).message ∧
      (combined.block i).passed = true := by
    intro i hi
    obtain ⟨hpassed, hmessage⟩ := h.kept hi (s.passed_opened.mpr ⟨hold, hbefore.passed i hi⟩)
    rw [if_pos (hbefore.size i hi)] at hmessage
    exact ⟨hmessage, hpassed⟩
  -- nothing was decoded, so the messages are the old ones
  have hrestored : seg.restored s.tbs r.buffer = seg.restored s.tbs before :=
    gather_congr fun i hi => (h.block_buffer i).2.1.trans (hkept i hi).1
  have hverified : result.verified = true := by
    refine h.verified.mpr ⟨fun i hi => (hkept i hi).2, ?_⟩
    by_cases hone : seg.blocks = 1
    · exact .inl hone
    · rw [h.assembled_of_cut hone, hrestored]
      exact .inr (hbefore.together.resolve_left hone)
  refine ⟨hverified, ?_, ?_⟩
  · rw [h.block_of_verified hverified, hrestored, ← hbefore.block_eq]
  · rw [h.decoded, List.countP_eq_zero]
    intro i hi
    rw [s.opened_of_old hold, hbefore.passed i (List.mem_range.mp hi)]
    exact Bool.false_ne_true

end Session.Outcome

/-! ## Histories -/

namespace History

variable {n : Nat} {base : BaseGraph} {tbs : Nat} {past later : List Finished} {f : Finished}
  {buffer : HarqBuffer} {seg : Segmentation}

/-- After a verified session all retransmissions deliver the same transport
block, and none of them decodes anything. -/
theorem delivered_again (h : History n (later ++ f :: past) buffer)
    (hsame : SameBlock base tbs (later ++ f :: past))
    (hfound : Segmentation.ofSize base tbs = .ok seg) (hverified : f.result.verified = true)
    (hold : ∀ g ∈ later, g.session.settings.newData = false) :
    Delivered seg tbs f.reception.block buffer ∧
      ∀ g ∈ later, g.result.verified = true ∧ g.reception.block = f.reception.block ∧
        g.result.statistics.count = 0 := by
  induction later generalizing buffer with
  | nil =>
    obtain ⟨-, ring, combined, houtcome⟩ := h.outcome_of_same hsame hfound
    obtain ⟨-, -, rfl⟩ := h.last
    obtain ⟨-, rfl⟩ := hsame f List.mem_cons_self
    exact ⟨houtcome.delivered hverified, fun g hg => absurd hg List.not_mem_nil⟩
  | cons g later ih =>
    obtain ⟨-, ring, combined, houtcome⟩ := h.outcome_of_same hsame hfound
    obtain ⟨hpast, -, rfl⟩ := h.last
    obtain ⟨hbefore, hlater⟩ := ih hpast (fun k hk => hsame k (List.mem_cons_of_mem g hk))
      fun k hk => hold k (List.mem_cons_of_mem g hk)
    obtain ⟨-, rfl⟩ := hsame g List.mem_cons_self
    -- the sessions before this one have left the block, which is all that it needs
    obtain ⟨hagain, hblock, hcount⟩ := houtcome.again (hold g List.mem_cons_self) hbefore
    refine ⟨hblock ▸ houtcome.delivered hagain, fun k hk => ?_⟩
    rcases List.mem_cons.mp hk with rfl | hk
    · exact ⟨hagain, hblock, hcount⟩
    · exact hlater k hk

/-- After every session of one size of transport block: each flag vouches for a
message that passes its check; all flags are set exactly if the session was
verified, and none if all codeblocks were accepted but not together; a verified
session restored the bits of the block that it wrote with their check, and one
that was not verified wrote nothing; and until new data come, a verified
transport block is delivered again without decoding. -/
theorem block_invariant (h : History n (f :: past) buffer)
    (hsame : SameBlock base tbs (f :: past)) :
    ∃ seg, Segmentation.ofSize base tbs = .ok seg ∧ seg.blocks = n ∧
      (∀ i < n, (buffer.block i).passed = true → (Segmentation.blockCrc n tbs).ofBits
        ((buffer.block i).message.extract 0 seg.blockLength) = 0) ∧
      ((∀ i < n, (buffer.block i).passed = true) ↔ f.result.verified = true) ∧
      ((∀ i < n, f.Kept i ∨ ∃ message, f.Accepts i message) → f.result.verified = false →
        ∀ i < n, (buffer.block i).passed = false) ∧
      (f.result.verified = true → seg.restored tbs buffer = Bits.unpack f.reception.block ++
        (Segmentation.tbCrc tbs).parity (Bits.unpack f.reception.block)) ∧
      (f.result.verified = false → f.reception.block = f.session.block) ∧
      (f.result.verified = true → ∀ later after, History n (later ++ f :: past) after →
        SameBlock base tbs later → (∀ g ∈ later, g.session.settings.newData = false) →
        ∀ g ∈ later, g.result.verified = true ∧ g.reception.block = f.reception.block ∧
          g.result.statistics.count = 0) := by
  obtain ⟨seg, ring, combined, houtcome, rfl⟩ := h.outcome
  obtain ⟨-, -, hbuffer⟩ := h.last
  obtain ⟨rfl, rfl⟩ := hsame f List.mem_cons_self
  have htrusted : ∀ i < seg.blocks, (buffer.block i).passed = true →
      Trusted seg f.session.tbs (buffer.block i) := fun i hi =>
    h.trusted hsame houtcome.found hi
  -- what the flags vouch for holds by induction; all the rest is about this session alone
  have hall := h.all_passed_iff
  refine ⟨seg, houtcome.found, rfl, fun i hi hpassed => (htrusted i hi hpassed).check, hall, ?_, ?_,
    ?_, ?_⟩
  · intro haccepted hnot i _
    have hcombined : ∀ j < seg.blocks, (combined.block j).passed = true := by
      intro j hj
      by_cases hkept : f.Kept j
      · exact (houtcome.kept hj hkept).1
      · obtain ⟨message, hmessage⟩ := (haccepted j hj).resolve_left hkept
        exact ((houtcome.accepts_iff hj hkept).mp hmessage).1
    rw [hbuffer, houtcome.buffer, if_pos ⟨hcombined, hnot⟩, HarqBuffer.block_clearPassed]
  · intro hverified
    rw [hbuffer]
    refine houtcome.restored_eq (fun i hi => ?_) hverified
    rw [← hbuffer]
    exact htrusted i hi (hall.mpr hverified i hi)
  · intro hnot
    rw [houtcome.block, hnot]
    rfl
  · intro hverified later after hafter hlater hold
    have hboth : SameBlock f.session.settings.base f.session.tbs (later ++ f :: past) := fun g hg =>
      (List.mem_append.mp hg).elim (hlater g) (hsame g)
    exact (hafter.delivered_again hboth houtcome.found hverified hold).2

/-- One byte that was verified in its first session, and again without any
knowledge of it. -/
theorem block_invariant_byte :
    ∃ (f g : Finished) (seg : Segmentation), History 1 [g, f] g.reception.buffer ∧
      f.result.verified = true ∧ (f.reception.buffer.block 0).passed = true ∧
      seg.restored 8 f.reception.buffer =
        Bits.unpack #[0xA5] ++ (Segmentation.tbCrc 8).parity (Bits.unpack #[0xA5]) ∧
      (∀ a ∈ g.session.softBits, a = SoftBit.erased) ∧ g.result.verified = true ∧
      g.reception.block = #[0xA5] := by
  obtain ⟨f, -, -, -, -, h, hsame, hverified, hblock⟩ := exists_history_byte
  obtain ⟨g, hg, htwo, hboth⟩ :=
    exists_finish_byte false (Array.size_replicate (n := 24) (v := SoftBit.erased)) h hsame
  obtain ⟨seg, -, -, -, hflags, -, hrestored, -, hagain⟩ := h.block_invariant hsame
  have hlater : SameBlock .two 8 [g] := List.forall_mem_singleton.mpr (hboth g List.mem_cons_self)
  have hold : ∀ k ∈ [g], k.session.settings.newData = false :=
    List.forall_mem_singleton.mpr (by rw [hg]; rfl)
  obtain ⟨hverified', hblock', -⟩ :=
    hagain hverified [g] _ htwo hlater hold g List.mem_cons_self
  refine ⟨f, g, seg, htwo, hverified, hflags.mpr hverified 0 Nat.one_pos, ?_, ?_, hverified', ?_⟩
  · rw [hrestored hverified, hblock]
  · rw [hg]
    exact erased_byteSession false
  · rw [hblock', hblock]

/-- A retransmission without any knowledge is not verified after new data
without any knowledge: the new data have cleared the flags, and left nothing to
combine with. -/
theorem not_verified_of_erased {g : Finished} (h : History n (f :: g :: past) buffer)
    (hsame : SameBlock base tbs (f :: g :: past)) (hnew : g.session.settings.newData = true)
    (herased : ∀ a ∈ f.session.softBits, a = SoftBit.erased)
    (herased' : ∀ a ∈ g.session.softBits, a = SoftBit.erased) : f.result.verified = false := by
  obtain ⟨seg, ring, combined, houtcome, hblocks⟩ := h.outcome
  obtain ⟨rfl, rfl⟩ := hsame f List.mem_cons_self
  obtain ⟨hpast, -, -⟩ := h.last
  obtain ⟨-, ring', combined', houtcome'⟩ := hpast.outcome_of_same
    (fun k hk => hsame k (List.mem_cons_of_mem f hk)) houtcome.found
  obtain ⟨-, -, hbefore⟩ := hpast.last
  have hpos := houtcome.sound.blocks_pos
  by_contra hverified
  -- the first codeblock must have been accepted before, by the session with new data
  have hpassed := houtcome.passed_of_verified_erased herased (fun i hi => .inr (.inr ?_))
    (Bool.not_eq_false _ ▸ hverified) hpos
  · obtain ⟨-, hpassed⟩ := f.session.passed_opened.mp hpassed
    rw [hbefore] at hpassed
    have hcombined := (houtcome'.block_buffer 0).2.2 hpassed
    rw [(houtcome'.of_erased hpos herased' (.inl hnew)).1, Session.passed_opened, hnew] at hcombined
    cases hcombined.1
  · rw [hbefore]
    exact (houtcome'.of_erased hi herased' (.inl hnew)).2

/-- New data end a delivery: a retransmission without any knowledge is not
verified after them, although a session before them was. -/
theorem not_delivered_after_newData :
    ∃ (f g k : Finished) (buffer : HarqBuffer), History 1 [k, g, f] buffer ∧
      SameBlock .two 8 [k, g, f] ∧ f.result.verified = true ∧
      k.session.settings.newData = false ∧ k.result.verified = false := by
  have hsize : (Array.replicate 24 SoftBit.erased).size = 24 := Array.size_replicate
  obtain ⟨f, -, -, -, -, hone, hsame, hverified, -⟩ := exists_history_byte
  obtain ⟨g, hg, htwo, hsame⟩ := exists_finish_byte true hsize hone hsame
  obtain ⟨k, hk, hthree, hsame⟩ := exists_finish_byte false hsize htwo hsame
  refine ⟨f, g, k, _, hthree, hsame, hverified, by rw [hk]; rfl, ?_⟩
  refine hthree.not_verified_of_erased hsame (by rw [hg]; rfl) ?_ ?_
  · rw [hk]
    exact erased_byteSession false
  · rw [hg]
    exact erased_byteSession true

end History

end Uplink
