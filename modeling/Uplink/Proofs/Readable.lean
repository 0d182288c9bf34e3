import Uplink.Proofs.Codeblock
import Uplink.Proofs.RateMatching.Adjoint
import Uplink.TransportBlock.Reception

/-!
# Codeblocks that can be read

- `CodewordFormat.ringLength`: the length of the circular buffers in closed form.
- `CodewordFormat.breakdown_codeblockAt`: what the receiver reads off the length of a codeblock.
- `Segmentation.IsFiller`, `CodewordFormat.isFiller_codeblockAt`: the positions that the walk of a
  codeblock steps over.
- `CodewordFormat.Readable`: the codeblocks of a codeword can be read from their circular buffers;
  `selection` and `proper` give their walks.
-/

namespace Uplink

open Ldpc

/-- Position `p` of the sent bits belongs to a filler of the message. -/
def Segmentation.IsFiller (seg : Segmentation) (p : Nat) : Prop :=
  SentWithin seg.liftingSize seg.blockLength seg.messageLength p

/-- Length of the circular buffers with a limit in bits, zero for none. -/
def Segmentation.ringLength (seg : Segmentation) (limit : Nat) : Nat :=
  let full := seg.base.sentLength seg.liftingSize
  if limit = 0 then full else min full (3 * limit / (2 * seg.blocks))

/-- Without a limit there is room for more than the fillers. The buffer then
holds the whole sent word, and no message consists of fillers only. -/
theorem Segmentation.Sound.fillers_lt_ringLength {base : BaseGraph} {tbs : Nat}
    {seg : Segmentation} (h : seg.Sound base tbs) : seg.fillers < seg.ringLength 0 := by
  show seg.fillers < seg.base.sentLength seg.liftingSize
  have hpos := h.blockLength_pos
  have hsum := h.blockLength_add_fillers
  have hrate : 0 < base.inverseRate := by cases base <;> decide
  rw [h.base_eq, BaseGraph.sentLength_eq, ← h.messageLength_eq]
  exact Nat.lt_of_lt_of_le (by omega) (Nat.le_mul_of_pos_left _ hrate)

namespace CodewordFormat

variable {format : CodewordFormat} {seg : Segmentation} {tbs ring i : Nat}

/-! ## Lengths -/

theorem messageLength_codeblockAt (h : seg.Sound format.base tbs) :
    (format.codeblockAt seg ring i).messageLength = seg.messageLength := by
  rw [h.messageLength_eq, ← h.base_eq]
  rfl

/-- Length of the circular buffers in closed form. -/
def ringLength (format : CodewordFormat) (seg : Segmentation) : Nat :=
  seg.ringLength format.bufferLimit

/-- The length is found if the machine can count the limit in thirds of bits. -/
theorem bufferLength_eq_ok_iff :
    format.bufferLength seg = .ok ring ↔
      3 * format.bufferLimit < Size.limit ∧ ring = format.ringLength seg := by
  unfold bufferLength ringLength Segmentation.ringLength
  dsimp only
  split
  · rename_i hfull
    rw [hfull]
    simp [Size.limit, eq_comm]
  · simp only [bind_eq_ok, Size.mul_eq_ok]
    constructor
    · rintro ⟨_, ⟨hlimit, rfl⟩, h⟩
      exact ⟨hlimit, (Except.ok.inj h).symm⟩
    · rintro ⟨hlimit, rfl⟩
      exact ⟨_, ⟨hlimit, rfl⟩, rfl⟩

theorem bufferLength_eq_ok (h : format.bufferLength seg = .ok ring) :
    ring = format.ringLength seg :=
  (bufferLength_eq_ok_iff.mp h).2

/-- The receiver reads off the message length and the data bits of the
segmentation, although it is given the sent length and the fillers only. -/
theorem breakdown_codeblockAt (h : seg.Sound format.base tbs) :
    (format.codeblockAt seg ring i).breakdown =
      (seg.messageLength, if 1 < seg.blocks then seg.dataLength else tbs) := by
  have hbase := h.base_eq
  have hlength :
      seg.base.sentLength seg.liftingSize / seg.base.inverseRate = seg.messageLength := by
    rw [BaseGraph.sentLength_eq, Nat.mul_div_cancel_left _ (by cases seg.base <;> decide),
      h.messageLength_eq, hbase]
  have hfill := h.blockLength_add_fillers
  rw [Codeblock.breakdown]
  simp only [CodewordFormat.codeblockAt, hlength]
  refine Prod.ext rfl ?_
  dsimp only
  by_cases hcut : 1 < seg.blocks
  · rw [if_pos hcut, if_pos hcut, Segmentation.dataLength]
    omega
  · -- a codeblock that is alone ends with the check of the transport block
    have hone : seg.blocks = 1 := by
      have := h.blocks_pos
      omega
    have hsingle := h.single hone
    rw [if_neg hcut, if_neg hcut]
    rw [Segmentation.checkedSize] at hsingle
    omega

/-- The circular buffer is not longer than the sent word, with or without a
limit. -/
theorem bufferLength_le (h : format.bufferLength seg = .ok ring) :
    ring ≤ seg.base.sentLength seg.liftingSize := by
  unfold bufferLength at h
  dsimp only at h
  split at h
  · exact Nat.le_of_eq (Except.ok.inj h).symm
  · rw [bind_eq_ok] at h
    obtain ⟨scaled, -, h⟩ := h
    obtain rfl := Except.ok.inj h
    exact Nat.min_le_left _ _

/-- The codeblocks of a codeword are sound, whatever their place in it. -/
theorem sound_codeblockAt (h : seg.Sound format.base tbs)
    (hring : format.bufferLength seg = .ok ring) (i : Nat) :
    (format.codeblockAt seg ring i).Sound where
  sentLength_eq := rfl
  ring_le := bufferLength_le hring
  punctured_le := by
    rw [messageLength_codeblockAt h, ← h.blockLength_add_fillers, Nat.add_comm seg.blockLength]
    exact Nat.add_le_add_left h.punctured_le _
  liftingSize_mem := h.liftingSize_mem
  matched := format.share_mod_order seg.blocks i

/-- The fillers begin where the data end, the columns that are not sent apart.
-/
theorem fillerStart_codeblockAt (h : seg.Sound format.base tbs) :
    (format.codeblockAt seg ring i).walkOf.fillerStart =
      seg.blockLength - puncturedColumns * seg.liftingSize := by
  have hlength : (format.codeblockAt seg ring i).messageLength - seg.fillers = seg.blockLength := by
    rw [messageLength_codeblockAt h, ← h.blockLength_add_fillers, Nat.add_sub_cancel]
  rw [← hlength]
  rfl

theorem fillerStop_codeblockAt (h : seg.Sound format.base tbs) :
    (format.codeblockAt seg ring i).walkOf.fillerStop =
      seg.messageLength - puncturedColumns * seg.liftingSize := by
  rw [← @messageLength_codeblockAt format seg tbs ring i h]
  rfl

/-- The codeblocks of a segmentation have its fillers: all of them have the
same. -/
theorem isFiller_iff_segmentation (h : seg.Sound format.base tbs) {p : Nat} :
    (format.codeblockAt seg ring i).IsFiller p ↔ seg.IsFiller p := by
  have hlength : (format.codeblockAt seg ring i).messageLength - seg.fillers = seg.blockLength := by
    rw [messageLength_codeblockAt h, ← h.blockLength_add_fillers, Nat.add_sub_cancel]
  rw [Segmentation.IsFiller, ← hlength, ← @messageLength_codeblockAt format seg tbs ring i h]
  rfl

/-- The walk of a codeblock steps over the fillers of the message, and over
nothing else. -/
theorem isFiller_codeblockAt (h : seg.Sound format.base tbs) {p : Nat} :
    (format.codeblockAt seg ring i).walkOf.isFiller p = true ↔ seg.IsFiller p := by
  have hpunctured := h.punctured_le
  rw [Selection.isFiller_eq_true, fillerStart_codeblockAt h, fillerStop_codeblockAt h,
    Segmentation.IsFiller, SentWithin]
  omega

/-! ## Readable codewords -/

/-- The codeblocks of a codeword can be read: the redundancy version exists, and
the circular buffers hold more than the fillers. -/
structure Readable (format : CodewordFormat) (tbs : Nat) (seg : Segmentation) (ring : Nat) :
    Prop where
  sound : seg.Sound format.base tbs
  groups : format.length % format.group = 0
  buffered : format.bufferLength seg = .ok ring
  rv_lt : format.rv < 4
  room : seg.fillers < ring

namespace Readable

theorem soundAt (h : format.Readable tbs seg ring) (i : Nat) :
    (format.codeblockAt seg ring i).Sound :=
  sound_codeblockAt h.sound h.buffered i

theorem messageLength (h : format.Readable tbs seg ring) :
    (format.codeblockAt seg ring i).messageLength = seg.messageLength :=
  messageLength_codeblockAt h.sound

theorem breakdown (h : format.Readable tbs seg ring) :
    (format.codeblockAt seg ring i).breakdown.1 =
      (format.codeblockAt seg ring i).messageLength := by
  rw [h.messageLength, breakdown_codeblockAt h.sound]

theorem fillers_le (h : format.Readable tbs seg ring) :
    (format.codeblockAt seg ring i).fillers ≤ (format.codeblockAt seg ring i).messageLength := by
  rw [h.messageLength, ← h.sound.blockLength_add_fillers]
  exact Nat.le_add_left _ _

/-- The walk of every codeblock is found, as its buffer has room for more than
the fillers. -/
theorem selection (h : format.Readable tbs seg ring) (i : Nat) :
    (format.codeblockAt seg ring i).selection = .ok (format.codeblockAt seg ring i).walkOf :=
  (h.soundAt i).selection_eq ((h.soundAt i).countable (h.soundAt i).liftingSize_mem) h.rv_lt h.room

theorem proper (h : format.Readable tbs seg ring) (i : Nat) :
    (format.codeblockAt seg ring i).walkOf.Proper :=
  (Codeblock.selection_eq_ok (h.selection i)).2.1

/-- The span of a codeblock lies within the soft bits of the codeword. -/
theorem stop_le (h : format.Readable tbs seg ring) {softBits : Array SoftBit}
    (hsize : softBits.size = format.length) (hi : i < seg.blocks) :
    (format.codeblockAt seg ring i).stop ≤ softBits.size := by
  rw [hsize]
  exact format.stop_le h.sound h.groups hi

/-- The soft bits of a codeblock are combined with whatever is stored. Nothing
is asked of the stored values, only that the storage has the size of the
codeblock. -/
theorem exists_rateDematch (h : format.Readable tbs seg ring) {softBits stored : Array SoftBit}
    (hsize : softBits.size = format.length) (hi : i < seg.blocks) (newData : Bool)
    (hstored : stored.size = (format.codeblockAt seg ring i).sentLength) :
    let c := format.codeblockAt seg ring i
    let received := softBits.extract c.offset c.stop
    ∃ soft, c.rateDematch stored received newData = .ok soft ∧ soft.size = c.sentLength ∧
      ∀ p < c.sentLength, soft.getD p SoftBit.erased = c.combined stored received newData p := by
  intro c received
  have hreceived : received.size = c.matchedLength := by
    rw [Array.size_extract, Nat.min_eq_left (h.stop_le hsize hi)]
    exact Nat.add_sub_cancel_left _ _
  exact Codeblock.exists_rateDematch (h.soundAt i).toLaid (h.soundAt i).matched (h.selection i)
    newData hstored hreceived

end Readable

end CodewordFormat

end Uplink
