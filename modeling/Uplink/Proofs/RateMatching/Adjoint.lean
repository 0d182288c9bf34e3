import Uplink.Proofs.RateMatching
import Uplink.Proofs.Selection.Rounds

/-!
# Rate matching and its reverse are adjoint

What rate matching takes from a position goes to one place of its output, and what comes back from
that place is added to the same position. Soft bits that favour the output therefore give soft bits
that favour the word, at the positions that were read.

- `Codeblock.existsUnique_interleaved`: every place of the output is taken once.
- `Ldpc.SentWithin`, `Codeblock.IsFiller`: the positions that the walk steps over.
- `Codeblock.Restored`: what stands at each position afterwards; `restored_of_combined`: it comes
  back from soft bits that favour the output.
- `Codeblock.Route`: both directions for every word and all soft bits.
- `Codeblock.exists_selection_route`: every codeblock whose buffer has room for its fillers has a
  route, and reads its buffer evenly.
-/

namespace Uplink

open Ldpc

/-- Position `p` of the sent bits comes from the bits `start` to `stop` of the
codeword. The sent bits leave out the first columns of the codeword. -/
def Ldpc.SentWithin (liftingSize start stop p : Nat) : Prop :=
  start ≤ puncturedColumns * liftingSize + p ∧ puncturedColumns * liftingSize + p < stop

namespace Codeblock

variable {c : Codeblock}

theorem existsUnique_interleaved (h : c.matchedLength % c.modulation.order = 0) :
    ∀ j < c.matchedLength, ∃! k, k < c.matchedLength ∧ c.interleaved k = j := by
  intro j hj
  refine ⟨c.deinterleaved j, ⟨deinterleaved_lt h hj, interleaved_deinterleaved h hj⟩, ?_⟩
  rintro k ⟨hk, rfl⟩
  exact (deinterleaved_interleaved h hk).symm

/-- Position `p` of the sent bits belongs to a filler of the message. -/
def IsFiller (c : Codeblock) (p : Nat) : Prop :=
  SentWithin c.liftingSize (c.messageLength - c.fillers) c.messageLength p

/-- The walk steps over the fillers of the message. -/
theorem Laid.isFiller_iff (h : c.Laid) (p : Nat) :
    c.walkOf.isFiller p = true ↔ c.IsFiller p := by
  have hpunctured := h.punctured_le
  rw [Selection.isFiller_eq_true, IsFiller, SentWithin]
  show c.messageLength - c.fillers - puncturedColumns * c.liftingSize ≤ p ∧
    p < c.messageLength - puncturedColumns * c.liftingSize ↔ _
  omega

/-! ## What comes back -/

/-- The soft bits that come back of a word: certain zeros at the fillers, the
side of the bit wherever one was read, and nothing elsewhere. -/
structure Restored (c : Codeblock) (s : Selection) (sent : Bits) (soft : Array SoftBit) : Prop where
  size : soft.size = c.sentLength
  filler : ∀ p < c.sentLength, s.isFiller p = true →
    soft.getD p SoftBit.erased = SoftBit.certainZero
  zero : ∀ k < c.matchedLength, sent.getD (s.position k) 0 = 0 →
    0 < (soft.getD (s.position k) SoftBit.erased).value.toInt
  one : ∀ k < c.matchedLength, sent.getD (s.position k) 0 ≠ 0 →
    (soft.getD (s.position k) SoftBit.erased).value.toInt < 0
  unread : ∀ p < c.sentLength, s.isFiller p = false → (∀ k < c.matchedLength, s.position k ≠ p) →
    soft.getD p SoftBit.erased = SoftBit.erased

/-- Something comes back to every position that was read. -/
theorem arrivals_ne_nil (received : Array SoftBit) {k : Nat} (hk : k < c.matchedLength) :
    c.arrivals received (c.walkOf.position k) ≠ [] := by
  refine List.ne_nil_of_mem (List.mem_map_of_mem (a := k) ?_)
  rw [List.mem_filter, List.mem_range, decide_eq_true_iff]
  exact ⟨hk, rfl⟩

/-- Nothing comes back to a position that was never read. -/
theorem arrivals_eq_nil (received : Array SoftBit) {p : Nat}
    (h : ∀ k < c.matchedLength, c.walkOf.position k ≠ p) : c.arrivals received p = [] := by
  rw [arrivals, arrivalsUpTo, List.map_eq_nil_iff, List.filter_eq_nil_iff]
  intro k hk
  rw [decide_eq_true_iff]
  exact h k (List.mem_range.mp hk)

variable {sent bits : Bits} {stored received soft : Array SoftBit}

/-- The soft bits that come back to a position favour the bit that was taken
from it, all of them, since they all were sent for that one bit. -/
theorem favour_arrivals (hmatched : c.matchedLength % c.modulation.order = 0)
    (hsize : bits.size = c.matchedLength)
    (hbits : ∀ k < c.matchedLength,
      bits.getD (c.interleaved k) 0 = sent.getD (c.walkOf.position k) 0)
    (hsoft : Faithful bits received) {p : Nat} :
    ∀ a ∈ c.arrivals received p, a.InReach ∧
      a.favour = if sent.getD p 0 = 0 then 1 else -1 := by
  intro a ha
  obtain ⟨k, hk, rfl⟩ := List.mem_map.mp ha
  rw [List.mem_filter, List.mem_range, decide_eq_true_iff] at hk
  obtain ⟨hk, rfl⟩ := hk
  have hplace : c.interleaved k < bits.size := by
    rw [hsize]
    exact interleaved_lt hmatched hk
  rw [← hbits k hk]
  by_cases hbit : bits.getD (c.interleaved k) 0 = 0
  · rw [if_pos hbit]
    exact hsoft.of_zero hplace hbit
  · rw [if_neg hbit]
    exact hsoft.of_one hplace hbit

/-- A word comes back from soft bits that favour the output of rate matching.
What was stored before is replaced, as the reception is of new data. -/
theorem restored_of_combined (h : c.Laid) (hmatched : c.matchedLength % c.modulation.order = 0)
    (hproper : c.walkOf.Proper) (hsize : bits.size = c.matchedLength)
    (hbits : ∀ k < c.matchedLength,
      bits.getD (c.interleaved k) 0 = sent.getD (c.walkOf.position k) 0)
    (hsoft : Faithful bits received) (hlength : soft.size = c.sentLength)
    (hcombined : ∀ p < c.sentLength,
      soft.getD p SoftBit.erased = c.combined stored received true p) :
    c.Restored c.walkOf sent soft := by
  have hsum : ∀ p < c.sentLength, c.walkOf.isFiller p = false →
      soft.getD p SoftBit.erased = (c.arrivals received p).foldl (· + ·) SoftBit.erased := by
    intro p hp hread
    rw [hcombined p hp, combined, hread, if_neg Bool.false_ne_true, if_pos rfl]
  -- where something was read, soft bits of one side are added up
  have hfavour : ∀ k < c.matchedLength,
      (soft.getD (c.walkOf.position k) SoftBit.erased).favour =
        if sent.getD (c.walkOf.position k) 0 = 0 then 1 else -1 := by
    intro k hk
    rw [hsum _ (Nat.lt_of_lt_of_le (Selection.position_lt hproper k) h.ring_le)
      (c.walkOf.not_filler_position k)]
    exact SoftBit.favour_foldl (favour_arrivals hmatched hsize hbits hsoft)
      (arrivals_ne_nil received hk)
  refine ⟨hlength, fun p hp hfiller => ?_, fun k hk hbit => ?_, fun k hk hbit => ?_,
    fun p hp hread hnever => ?_⟩
  · rw [hcombined p hp, combined, if_pos hfiller]
  · have hside := hfavour k hk
    rw [if_pos hbit] at hside
    exact SoftBit.favour_eq_one_iff.mp hside
  · have hside := hfavour k hk
    rw [if_neg hbit] at hside
    exact SoftBit.favour_eq_neg_one_iff.mp hside
  · rw [hsum p hp hread, arrivals_eq_nil received hnever]
    rfl

/-! ## Routes -/

/-- Both directions follow one route: the bit read `k`-th goes to a place of its
own, the soft bit of that place comes back to the same position, and so a word
comes back from soft bits that favour its output. -/
structure Route (c : Codeblock) (s : Selection) : Prop where
  places : ∀ j < c.matchedLength, ∃! k, k < c.matchedLength ∧ c.interleaved k = j
  sends : ∀ sent : Bits, sent.size = c.sentLength →
    ∃ bits, c.rateMatch sent c.matchedLength = .ok bits ∧ bits.size = c.matchedLength ∧
      ∀ k < c.matchedLength, bits.getD (c.interleaved k) 0 = sent.getD (s.position k) 0
  stores : ∀ (stored received : Array SoftBit) (newData : Bool), stored.size = c.sentLength →
    received.size = c.matchedLength →
      ∃ soft, c.rateDematch stored received newData = .ok soft ∧ soft.size = c.sentLength ∧
        ∀ p < c.sentLength, soft.getD p SoftBit.erased = c.combined stored received newData p
  restores : ∀ (sent bits : Bits) (stored received soft : Array SoftBit),
    c.rateMatch sent c.matchedLength = .ok bits → Faithful bits received →
      c.rateDematch stored received true = .ok soft → c.Restored s sent soft

/-- A codeblock whose walk is admitted has a route. Each direction alone needs
no more than the walk; the way back is one to one because the interleaver is. -/
theorem Laid.route (h : c.Laid) (hmatched : c.matchedLength % c.modulation.order = 0)
    (hselection : c.selection = .ok c.walkOf) : c.Route c.walkOf := by
  have hproper := (selection_eq_ok hselection).2.1
  refine ⟨existsUnique_interleaved hmatched, fun sent => exists_rateMatch h hmatched hselection,
    fun stored received newData => exists_rateDematch h hmatched hselection newData, ?_⟩
  intro sent bits stored received soft hmatch hsoft hdematch
  have hsent : sent.size = c.sentLength := by
    have hconditions := hmatch
    unfold rateMatch at hconditions
    simp only [bind_eq_ok, require_eq_ok] at hconditions
    obtain ⟨-, -, -, hsent, -⟩ := hconditions
    simpa using hsent
  obtain ⟨bits', hmatch', hsize, hbits⟩ := exists_rateMatch h hmatched hselection hsent
  obtain rfl := Except.ok.inj (hmatch'.symm.trans hmatch)
  obtain ⟨-, -, -, -, hlength, hcombined⟩ := rateDematch_eq_ok h hdematch
  exact restored_of_combined h hmatched hproper hsize hbits hsoft hlength hcombined

/-- A codeblock whose buffer has room for its fillers starts within the buffer,
reads it evenly, and has a route in both directions. -/
theorem exists_selection_route (h : c.Laid) (hcount : c.Countable) (hrv : c.rv < 4)
    (hroom : c.fillers < c.bufferLength) (hmatched : c.matchedLength % c.modulation.order = 0) :
    ∃ s, c.selection = .ok s ∧ s.length = c.bufferLength ∧ s.start < c.bufferLength ∧
      (∀ p, s.isFiller p = true ↔ c.IsFiller p) ∧ s.ReadsEvenly c.matchedLength ∧ c.Route s := by
  have hselection := h.selection_eq hcount hrv hroom
  have hproper := (selection_eq_ok hselection).2.1
  exact ⟨c.walkOf, hselection, rfl, hproper.start, h.isFiller_iff,
    Selection.readsEvenly hproper _, h.route hmatched hselection⟩

/-- A limited buffer is read two and a half times, from a start among its
fillers, so that the walk begins behind them. -/
theorem exists_selection_route_limited :
    let c : Codeblock := ⟨.two, 2, 2, .qpsk, 30, 100, 6, 16, 60, 0⟩
    c.Laid ∧ c.Countable ∧ c.rv < 4 ∧ c.fillers < c.bufferLength ∧
      c.matchedLength % c.modulation.order = 0 ∧
      c.selection = .ok ⟨30, 10, 16, 14⟩ ∧ Selection.ReadsEvenly ⟨30, 10, 16, 14⟩ 60 ∧
      c.Route ⟨30, 10, 16, 14⟩ := by
  intro c
  have hlaid : c.Laid := ⟨rfl, by decide, by decide⟩
  have hcount : c.Countable := ⟨by decide, by decide⟩
  have hrv : c.rv < 4 := by decide
  have hroom : c.fillers < c.bufferLength := by decide
  have hmatched : c.matchedLength % c.modulation.order = 0 := by decide
  have hfound : c.selection = .ok ⟨30, 10, 16, 14⟩ := by decide
  obtain ⟨s, hs, -, -, -, heven, hroute⟩ := exists_selection_route hlaid hcount hrv hroom hmatched
  obtain rfl := Except.ok.inj (hs.symm.trans hfound)
  exact ⟨hlaid, hcount, hrv, hroom, hmatched, hfound, heven, hroute⟩

end Codeblock

end Uplink
