import Uplink.CircularBuffer
import Uplink.Proofs.Checked
import Uplink.Proofs.Ldpc.Graph

/-!
# The walk around a circular buffer

Rate matching reads a circular buffer one position after the other and steps over the filler
positions. The closed form of the model counts the positions that are not stepped over.

- `Selection.walk`: the walk itself, one step at a time.
- `Selection.position_eq_walk`: the closed form is the walk.
- `Selection.rank_unrank`, `unrank_rank`: counting positions and finding them again.
- `Codeblock.selection_eq_ok`, `Codeblock.Laid.selection_eq`: the walk of a codeblock.
-/

namespace Uplink

open Ldpc

namespace Selection

variable {s : Selection}

/-- The filler positions leave something to read, and the walk starts within the
buffer. -/
structure Proper (s : Selection) : Prop where
  span : s.fillerStart ≤ s.fillerStop
  room : s.fillerStop - s.fillerStart < s.length
  start : s.start < s.length

theorem isFiller_eq_true {p : Nat} :
    s.isFiller p = true ↔ s.fillerStart ≤ p ∧ p < s.fillerStop := by
  rw [isFiller, Bool.and_eq_true, decide_eq_true_iff, decide_eq_true_iff]

theorem isFiller_eq_false {p : Nat} :
    s.isFiller p = false ↔ ¬ (s.fillerStart ≤ p ∧ p < s.fillerStop) := by
  rw [← isFiller_eq_true, Bool.not_eq_true]

/-! ## Counting positions -/

/-- The rank of a position in closed form: positions before the fillers count as
they are, those after them without the fillers. -/
theorem rank_eq (hs : s.fillerStart ≤ s.fillerStop) (p : Nat) :
    s.rank p =
      if p ≤ s.fillerStart then p
      else if p ≤ s.fillerStop then s.fillerStart
      else p - (s.fillerStop - s.fillerStart) := by
  unfold rank
  split
  · omega
  · split <;> omega

/-- The walk comes round after at least one step, as the fillers leave something
to read. -/
theorem period_pos (h : s.Proper) : 0 < s.period := by
  have := h.room
  have := h.span
  rw [period, rank]
  omega

/-- Ranks number the positions that are read: every number is the rank of the
position found from it. -/
theorem rank_unrank (hs : s.fillerStart ≤ s.fillerStop) (r : Nat) : s.rank (s.unrank r) = r := by
  rw [rank_eq hs, unrank]
  split
  · rw [if_pos (by omega)]
  · split
    · omega
    · split <;> omega

theorem not_filler_unrank (r : Nat) : s.isFiller (s.unrank r) = false := by
  rw [isFiller_eq_false, unrank]
  split <;> omega

/-- A position that is read is found again from its rank. Fillers share the rank
of the position after them, so they are not. -/
theorem unrank_rank (hs : s.fillerStart ≤ s.fillerStop) {p : Nat} (h : s.isFiller p = false) :
    s.unrank (s.rank p) = p := by
  rw [isFiller_eq_false] at h
  rw [rank_eq hs, unrank]
  split
  · split <;> omega
  · split
    · split <;> omega
    · rw [if_neg (by omega)]
      omega

/-- The first `period` ranks are of positions within the buffer. -/
theorem unrank_lt (hs : s.fillerStart ≤ s.fillerStop) {r : Nat} (h : r < s.period) :
    s.unrank r < s.length := by
  rw [period, rank_eq hs] at h
  rw [unrank]
  split at h
  · rw [if_pos (by omega)]
    exact h
  · split at h
    · rw [if_pos h]
      omega
    · split <;> omega

/-- A position that is read and lies in the buffer has one of the first `period`
ranks. -/
theorem rank_lt (hs : s.fillerStart ≤ s.fillerStop) {p : Nat} (h : s.isFiller p = false)
    (hp : p < s.length) : s.rank p < s.period := by
  rw [isFiller_eq_false] at h
  rw [period, rank_eq hs, rank_eq hs]
  split
  · split
    · exact hp
    · split <;> omega
  · split
    · split
      · omega
      · split <;> omega
    · split
      · omega
      · split <;> omega

/-- Ranks grow by one at each position that is read. -/
theorem rank_succ (hs : s.fillerStart ≤ s.fillerStop) {p : Nat} (h : s.isFiller p = false) :
    s.rank (p + 1) = s.rank p + 1 := by
  rw [isFiller_eq_false] at h
  rw [rank, rank]
  omega

/-! ## The walk -/

/-- The first position from `p` on, around the buffer, that is not stepped over.
-/
def settle (s : Selection) (p : Nat) : Nat :=
  if s.isFiller p then (if s.fillerStop < s.length then s.fillerStop else 0) else p

/-- The positions of the walk, one after the other. -/
def walk (s : Selection) : Nat → Nat
  | 0 => s.settle s.start
  | k + 1 => s.settle ((walk s k + 1) % s.length)

/-- Where the walk settles, found by counting. A filler has the rank of the
first position after the fillers, and at the end of the buffer the rank wraps to
the front. -/
theorem unrank_rank_mod (h : s.Proper) {p : Nat} (hp : p < s.length) :
    s.unrank (s.rank p % s.period) = s.settle p := by
  have hs := h.span
  rw [settle]
  by_cases hfiller : s.isFiller p = true
  · -- a filler: everything up to the end of the fillers has the rank of their first position
    rw [if_pos hfiller]
    rw [isFiller_eq_true] at hfiller
    have hroom := h.room
    have hrank : s.rank p = s.fillerStart := by
      rw [rank]
      omega
    rw [hrank]
    split
    · rename_i hstop
      have hperiod : s.fillerStart < s.period := by
        rw [period, rank]
        omega
      rw [Nat.mod_eq_of_lt hperiod, unrank, if_neg (by omega)]
      omega
    · -- nothing is left after the fillers: the walk goes on at the front
      have hperiod : s.period = s.fillerStart := by
        rw [period, rank]
        omega
      rw [hperiod, Nat.mod_self, unrank, if_pos (by omega)]
  · -- a position that is read is settled on
    have hread := Bool.eq_false_iff.mpr hfiller
    rw [if_neg hfiller, Nat.mod_eq_of_lt (rank_lt hs hread hp), unrank_rank hs hread]

theorem not_filler_position (s : Selection) (k : Nat) : s.isFiller (s.position k) = false :=
  not_filler_unrank _

theorem position_lt (h : s.Proper) (k : Nat) : s.position k < s.length :=
  unrank_lt h.span (Nat.mod_lt _ (period_pos h))

theorem position_zero (h : s.Proper) : s.position 0 = s.settle s.start :=
  unrank_rank_mod h h.start

/-- One step of the walk: the next position after the last one, around the
buffer, that is not stepped over. This is the step of the loop that the closed
form replaces. -/
theorem position_succ (h : s.Proper) (k : Nat) :
    s.position (k + 1) = s.settle ((s.position k + 1) % s.length) := by
  have hlength : 0 < s.length := Nat.lt_of_le_of_lt (Nat.zero_le _) h.start
  have hread := s.not_filler_position k
  have hrank : s.rank (s.position k) = (s.rank s.start + k) % s.period := rank_unrank h.span _
  rw [← unrank_rank_mod h (Nat.mod_lt _ hlength)]
  -- one more position is counted, and at the end of the buffer the count begins anew
  have hcount : s.rank ((s.position k + 1) % s.length) % s.period =
      (s.rank s.start + (k + 1)) % s.period := by
    rw [← Nat.add_assoc, Nat.add_mod (s.rank s.start + k) 1, ← hrank, Nat.add_mod_mod]
    have hsucc := rank_succ h.span hread
    rcases Nat.lt_or_ge (s.position k + 1) s.length with hlt | hge
    · rw [Nat.mod_eq_of_lt hlt, hsucc]
    · -- the walk wraps around
      have hend : s.position k + 1 = s.length := by
        have := position_lt h k
        omega
      have hperiod : s.rank (s.position k) + 1 = s.period := by rw [← hsucc, hend, period]
      rw [hend, Nat.mod_self, hperiod, Nat.mod_self]
      simp [rank]
  rw [hcount, position]

/-- The closed form is the walk, position by position. -/
theorem position_eq_walk (h : s.Proper) (k : Nat) : s.position k = s.walk k := by
  induction k with
  | zero => exact position_zero h
  | succ k ih => rw [position_succ h, ih, walk]

/-- From the front of the buffer, a position is read once those before it are.
Its number in the walk is then its rank. -/
theorem position_rank (h : s.Proper) (hstart : s.start = 0) {p : Nat}
    (hread : s.isFiller p = false) (hp : p < s.length) : s.position (s.rank p) = p := by
  have hzero : s.rank 0 = 0 := by simp [rank]
  rw [position, hstart, hzero, Nat.zero_add, Nat.mod_eq_of_lt (rank_lt h.span hread hp),
    unrank_rank h.span hread]

end Selection

/-! ## The walk of a codeblock -/

namespace Codeblock

variable {c : Codeblock} {sel : Selection}

/-- Where the walk of a redundancy version starts. -/
def startPosition (c : Codeblock) : Nat :=
  let (numerators, denominator) := startFractions c.base
  numerators.getD c.rv 0 * c.bufferLength / (denominator * c.liftingSize) * c.liftingSize

/-- Every start is a proper fraction of the buffer. There are eight of them,
four for each graph. -/
theorem startFractions_lt (base : BaseGraph) (rv : Nat) :
    (startFractions base).1.getD rv 0 < (startFractions base).2 ∧ (startFractions base).2 ≤ 66 := by
  have hall : ∀ n ∈ (startFractions base).1, n < (startFractions base).2 := by
    cases base <;> decide
  refine ⟨?_, by cases base <;> decide⟩
  rw [List.getD_eq_getElem?_getD]
  cases h : (startFractions base).1[rv]? with
  | none => cases base <;> decide
  | some n => exact hall n (List.mem_of_getElem? h)

/-- A redundancy version starts before the end of the buffer, because its start
is a proper fraction of the buffer's length. -/
theorem startPosition_lt (hbuffer : 0 < c.bufferLength) : c.startPosition < c.bufferLength := by
  have hlt := (startFractions_lt c.base c.rv).1
  rw [startPosition]
  dsimp only
  -- rounding down to a whole column does not pass the fraction itself
  rw [← Nat.div_div_eq_div_mul]
  refine Nat.lt_of_le_of_lt (Nat.div_mul_le_self _ _) (Nat.div_lt_of_lt_mul ?_)
  exact Nat.mul_lt_mul_of_pos_right hlt hbuffer

/-- The walk of a codeblock in closed form. -/
def walkOf (c : Codeblock) : Selection :=
  ⟨c.bufferLength, c.messageLength - c.fillers - puncturedColumns * c.liftingSize,
    c.messageLength - puncturedColumns * c.liftingSize, c.startPosition⟩

/-- The start is found for the four redundancy versions only. -/
theorem startingPosition_eq_ok {n : Nat} (h : c.startingPosition = .ok n) :
    c.rv < 4 ∧ n = c.startPosition := by
  unfold startingPosition at h
  simp only [bind_eq_ok, require_eq_ok, Size.mul_eq_ok, Size.div_eq_ok] at h
  obtain ⟨-, hrv, _, ⟨-, rfl⟩, _, ⟨-, rfl⟩, _, ⟨-, rfl⟩, h⟩ := h
  exact ⟨by simpa using hrv, (Except.ok.inj h).symm⟩

/-- A codeblock that is read leaves room for its fillers, and its walk is
proper. All checks that were passed on the way are listed with it. -/
theorem selection_eq_ok (h : c.selection = .ok sel) :
    sel = c.walkOf ∧ c.walkOf.Proper ∧ c.rv < 4 ∧ c.fillers < c.bufferLength ∧
      c.fillers + puncturedColumns * c.liftingSize ≤ c.messageLength := by
  unfold selection fillerSpan at h
  simp only [bind_eq_ok, require_eq_ok, Size.mul_eq_ok, Size.sub_eq_ok] at h
  obtain ⟨_, ⟨_, ⟨-, rfl⟩, _, ⟨-, rfl⟩, _, ⟨hfillers, rfl⟩, _, ⟨hpunctured, rfl⟩, hspan⟩, -, hroom,
    _, hstart, h⟩ := h
  obtain rfl := Except.ok.inj hspan
  obtain rfl := Except.ok.inj h
  obtain ⟨hrv, rfl⟩ := startingPosition_eq_ok hstart
  change c.fillers ≤ c.messageLength at hfillers
  change puncturedColumns * c.liftingSize ≤ c.messageLength - c.fillers at hpunctured
  have hroom : c.messageLength - puncturedColumns * c.liftingSize -
      (c.messageLength - c.fillers - puncturedColumns * c.liftingSize) < c.bufferLength :=
    of_decide_eq_true hroom
  refine ⟨rfl, ⟨?_, hroom, startPosition_lt (by omega)⟩, hrv, by omega, by omega⟩
  show c.messageLength - c.fillers - puncturedColumns * c.liftingSize ≤
    c.messageLength - puncturedColumns * c.liftingSize
  omega

/-! ## Codeblocks that are read -/

/-- The fillers lie in the message, behind the columns that are not sent, and
the buffer is part of the sent word. -/
structure Laid (c : Codeblock) : Prop where
  sentLength_eq : c.sentLength = c.base.sentLength c.liftingSize
  ring_le : c.bufferLength ≤ c.sentLength
  punctured_le : c.fillers + puncturedColumns * c.liftingSize ≤ c.messageLength

/-- The products that the start of the walk is found from are machine sizes. -/
structure Countable (c : Codeblock) : Prop where
  sent_lt : c.sentLength < Size.limit
  scaled_lt : (startFractions c.base).1.getD c.rv 0 * c.bufferLength < Size.limit

/-- The denominator of the starts counts the columns that are sent, so the start
of a full buffer is a whole number of columns. -/
theorem startFractions_mul (base : BaseGraph) (z : Nat) :
    (startFractions base).2 * z = base.sentLength z := by
  cases base <;> rfl

theorem Laid.messageLength_le (h : c.Laid) : c.messageLength ≤ c.sentLength := by
  rw [h.sentLength_eq, BaseGraph.sentLength_eq]
  exact Nat.le_mul_of_pos_left _ (by cases c.base <;> decide)

/-- None of the differences that the range of the fillers is found from falls
below zero. -/
theorem Laid.fillerSpan_eq (h : c.Laid) (hcount : c.Countable) :
    c.fillerSpan = .ok (c.walkOf.fillerStart, c.walkOf.fillerStop) := by
  have hpunctured := h.punctured_le
  have hmessage := h.messageLength_le
  have hlimit := hcount.sent_lt
  have hcolumns : Size.mul c.base.systematicColumns c.liftingSize = .ok c.messageLength :=
    Size.mul_of_lt (show c.messageLength < Size.limit by omega)
  have hfirst : Size.mul puncturedColumns c.liftingSize =
      .ok (puncturedColumns * c.liftingSize) := Size.mul_of_lt (by omega)
  rw [fillerSpan, hcolumns, ok_bind, hfirst, ok_bind, Size.sub_of_le (by omega), ok_bind,
    Size.sub_of_le (by omega)]
  rfl

theorem Laid.length_fillers (h : c.Laid) :
    c.walkOf.fillerStop - c.walkOf.fillerStart = c.fillers := by
  have hpunctured := h.punctured_le
  show c.messageLength - _ - (c.messageLength - c.fillers - _) = _
  omega

/-- The start is found with products that the machine can count, and never
divides by zero. -/
theorem Laid.startingPosition_eq (h : c.Laid) (hcount : c.Countable) (hrv : c.rv < 4)
    (hpos : 0 < c.bufferLength) : c.startingPosition = .ok c.startPosition := by
  have hparts := startFractions_mul c.base c.liftingSize
  rw [← h.sentLength_eq] at hparts
  have hscaled := hcount.scaled_lt
  have hsent := hcount.sent_lt
  have hring := h.ring_le
  rw [startingPosition, startPosition, require_of (by simpa using hrv), ok_bind]
  generalize startFractions c.base = fractions at *
  obtain ⟨numerators, denominator⟩ := fractions
  dsimp only at *
  rw [Size.mul_of_lt hscaled, ok_bind, Size.mul_of_lt (by omega), ok_bind,
    Size.div_of_pos (by omega), ok_bind]
  rfl

/-- A codeblock can be read if its buffer has room for the fillers. This is the
only condition that is checked apart from the redundancy version. -/
theorem Laid.selection_eq (h : c.Laid) (hcount : c.Countable) (hrv : c.rv < 4)
    (hroom : c.fillers < c.bufferLength) : c.selection = .ok c.walkOf := by
  rw [selection, h.fillerSpan_eq hcount, ok_bind]
  dsimp only
  rw [require_of (decide_eq_true (by rwa [h.length_fillers])), ok_bind,
    h.startingPosition_eq hcount hrv (by omega)]
  rfl

/-- The products of an admitted size are machine sizes, since the largest
lifting size is 384. -/
theorem Laid.countable (h : c.Laid) (hz : c.liftingSize ∈ liftingSizes) : c.Countable := by
  constructor
  · rw [h.sentLength_eq]
    exact (c.base.lengths_lt_limit hz).2
  · -- both factors are far below the limit of machine sizes
    obtain ⟨hnumerator, hdenominator⟩ := startFractions_lt c.base c.rv
    have hsent := (c.base.lengths_le hz).2
    rw [← h.sentLength_eq] at hsent
    have hscaled := Nat.mul_le_mul
      (show (startFractions c.base).1.getD c.rv 0 ≤ 66 by omega)
      (Nat.le_trans h.ring_le hsent)
    have hlimit : 2000000 < Size.limit := by decide
    omega

end Codeblock

end Uplink
