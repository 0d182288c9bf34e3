import Uplink.Proofs.RateMatching.Adjoint
import Uplink.Proofs.Readable

/-!
# Refused circular buffers

Before a buffer is read its length is compared with the number of fillers, so that a walk is not
begun that would find nothing to read. The comparison leaves out where the fillers lie. It refuses
every buffer that holds only fillers, and also short buffers that the fillers begin behind.

- `Codeblock.refusal`: the fault of a refused buffer; `Laid.selection_refused_iff`: when it is one.
- `Segmentation.not_isFiller_first`: a segmented transport block has data before its fillers.
- `Codeblock.onlyFillers_iff`: the buffers that hold only fillers.
- `Codeblock.Refuses`: neither direction is taken.
- `Codeblock.refused_iff`: which buffers are refused, and that the others have a route.
-/

namespace Uplink

open Ldpc

/-- The columns that are not sent are shorter than the data of a computed
segmentation, so the first sent bit of its codeblocks is a bit of the data. -/
theorem Segmentation.not_isFiller_first {base : BaseGraph} {tbs : Nat} {seg : Segmentation}
    (h : Segmentation.ofSize base tbs = .ok seg) : ¬ seg.IsFiller 0 := by
  have hlonger := (Segmentation.computed_of_ofSize h).punctured_lt
  rintro ⟨hge, -⟩
  exact absurd hge (Nat.not_le.mpr hlonger)

namespace Codeblock

variable {c : Codeblock}

/-- The fault of a buffer that is refused. -/
def refusal (c : Codeblock) : Fault :=
  .requirement s!"Circular buffer of {c.bufferLength} bits holds only filler bits"

/-- Nothing is read from the buffer in either direction. -/
structure Refuses (c : Codeblock) : Prop where
  sends : ∀ sent : Bits, sent.size = c.sentLength →
    c.rateMatch sent c.matchedLength = .error c.refusal
  stores : ∀ (stored received : Array SoftBit) (newData : Bool), stored.size = c.sentLength →
    received.size = c.matchedLength → c.rateDematch stored received newData = .error c.refusal

/-- A buffer is refused exactly when it is not longer than the fillers are many.
Nothing else can go wrong before that with sizes that the machine counts. -/
theorem Laid.selection_refused_iff (h : c.Laid) (hcount : c.Countable) (hrv : c.rv < 4) :
    c.selection = .error c.refusal ↔ c.bufferLength ≤ c.fillers := by
  constructor
  · intro hrefused
    by_contra hroom
    have hselection := h.selection_eq hcount hrv (Nat.lt_of_not_le hroom)
    exact nomatch hselection.symm.trans hrefused
  · intro hshort
    have hless : ¬ c.walkOf.fillerStop - c.walkOf.fillerStart < c.bufferLength := by
      rw [h.length_fillers]
      omega
    rw [selection, h.fillerSpan_eq hcount, ok_bind]
    dsimp only
    rw [decide_eq_false hless, require_false]
    rfl

/-- The fillers begin behind the data, so a buffer holds only fillers when there
are no data in it. An empty buffer does. -/
theorem Laid.onlyFillers_iff (h : c.Laid) :
    (∀ p < c.bufferLength, c.IsFiller p) ↔
      c.bufferLength = 0 ∨ c.bufferLength ≤ c.fillers ∧
        c.messageLength = c.fillers + puncturedColumns * c.liftingSize := by
  have hpunctured := h.punctured_le
  unfold IsFiller SentWithin
  constructor
  · intro hall
    by_cases hempty : c.bufferLength = 0
    · exact .inl hempty
    · -- the first and the last position are fillers
      have hfirst := hall 0 (by omega)
      have hlast := hall (c.bufferLength - 1) (by omega)
      exact .inr ⟨by omega, by omega⟩
  · intro hcases p hp
    omega

/-- Both directions find the walk before they touch a bit, so the fault of the
walk is the fault of both. -/
theorem refuses (hmatched : c.matchedLength % c.modulation.order = 0)
    (hrefused : c.selection = .error c.refusal) : c.Refuses := by
  constructor
  · intro sent hsent
    rw [rateMatch, require_of (beq_self_eq_true _), ok_bind, require_of (by simpa using hsent),
      ok_bind, require_of (by simpa using hmatched), ok_bind, hrefused]
    rfl
  · intro stored received newData hstored hreceived
    rw [rateDematch, require_of (by simpa using hreceived), ok_bind,
      require_of (by simpa using hstored), ok_bind, require_of (by simpa using hmatched), ok_bind,
      hrefused]
    rfl

/-- The buffers that are refused are those that are not longer than the fillers
are many. All that hold only fillers are among them, and of the others those
that are not empty and have data before the fillers. A buffer that is not
refused is read in both directions. No codeblock of a segmented transport block
has a buffer of fillers only, so of those every refusal of a buffer that is not
empty is one too many. -/
theorem refused_iff (h : c.Laid) (hcount : c.Countable) (hrv : c.rv < 4) :
    (c.selection = .error c.refusal ↔ c.bufferLength ≤ c.fillers) ∧
    ((∀ p < c.bufferLength, c.IsFiller p) → c.selection = .error c.refusal) ∧
    ((c.selection = .error c.refusal ∧ ∃ p < c.bufferLength, ¬ c.IsFiller p) ↔
      0 < c.bufferLength ∧ c.bufferLength ≤ c.fillers ∧
        c.fillers + puncturedColumns * c.liftingSize < c.messageLength) ∧
    (c.matchedLength % c.modulation.order = 0 →
      c.selection = .error c.refusal ∧ c.Refuses ∨
        c.selection = .ok c.walkOf ∧ c.Route c.walkOf) ∧
    (∀ (format : CodewordFormat) (tbs : Nat) (seg : Segmentation) (ring i : Nat),
      Segmentation.ofSize format.base tbs = .ok seg → c = format.codeblockAt seg ring i →
      0 < c.bufferLength → ∃ p < c.bufferLength, ¬ c.IsFiller p) := by
  have hrefused := h.selection_refused_iff hcount hrv
  have honly := h.onlyFillers_iff
  have hpunctured := h.punctured_le
  refine ⟨hrefused, fun hall => ?_, ?_, fun hmatched => ?_, ?_⟩
  · rw [hrefused]
    rcases honly.mp hall with hempty | ⟨hshort, -⟩
    · rw [hempty]
      exact Nat.zero_le _
    · exact hshort
  · -- the two conditions exclude each other only if no data precede the fillers
    have hsome : (∃ p < c.bufferLength, ¬ c.IsFiller p) ↔ ¬ ∀ p < c.bufferLength, c.IsFiller p := by
      simp only [not_forall, exists_prop]
    rw [hrefused, hsome, honly]
    omega
  · rcases Nat.lt_or_ge c.fillers c.bufferLength with hroom | hshort
    · have hselection := h.selection_eq hcount hrv hroom
      exact .inr ⟨hselection, h.route hmatched hselection⟩
    · have hselection := hrefused.mpr hshort
      exact .inl ⟨hselection, refuses hmatched hselection⟩
  · -- a computed segmentation has data before its fillers, and the buffer begins with them
    rintro format tbs seg ring i hseg rfl hpos
    refine ⟨0, hpos, ?_⟩
    rw [CodewordFormat.isFiller_iff_segmentation (Segmentation.ofSize_eq_ok hseg)]
    exact Segmentation.not_isFiller_first hseg

/-- A buffer that ends before the first filler is refused: sixteen fillers begin
at its end, and it has fifteen bits. -/
theorem refused_without_fillers :
    let c : Codeblock := ⟨.two, 4, 0, .qpsk, 15, 200, 16, 16, 24, 0⟩
    c.Laid ∧ c.Countable ∧ c.rv < 4 ∧ c.Refuses ∧ ∀ p < c.bufferLength, ¬ c.IsFiller p := by
  intro c
  have hlaid : c.Laid := ⟨rfl, by decide, by decide⟩
  have hcount : c.Countable := ⟨by decide, by decide⟩
  have hrv : c.rv < 4 := by decide
  have hread : ∀ p < c.bufferLength, ¬ c.IsFiller p := by
    unfold IsFiller SentWithin
    decide
  obtain ⟨hrefused, -, -, hboth, -⟩ := refused_iff hlaid hcount hrv
  rcases hboth (by decide) with ⟨-, hrefuses⟩ | ⟨hselection, -⟩
  · exact ⟨hlaid, hcount, hrv, hrefuses, hread⟩
  · exact nomatch hselection.symm.trans (hrefused.mpr (by decide))

end Codeblock

end Uplink
