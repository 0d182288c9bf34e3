import Uplink.Proofs.Selection
import Mathlib.Data.Int.CardIntervalMod

/-!
# Rounds of a circular buffer

The walk goes from position to position and counts those that it does not step over. A loop that
does so comes to its end because every round leaves something to read, and it reads the positions
of a round in turns.

- `Selection.scan`: the loop, position by position, cut off after a number of steps.
- `Selection.exists_scan`: it ends, and has read the positions of the closed form.
- `Selection.free`, `Selection.turn`: how many positions are read in a round, and how many of them
  come before a position.
- `Selection.position_eq_iff`: a position is read once in every round, when its turn comes.
- `Selection.ReadsEvenly`, `readsEvenly`: how often every position is read.
-/

namespace Uplink

namespace Selection

variable {s : Selection}

/-! ## The loop -/

/-- The position after `p`, around the buffer. -/
def next (s : Selection) (p : Nat) : Nat := if p + 1 = s.length then 0 else p + 1

/-- The positions read from `p` on until `wanted` of them are found; nothing if
the loop is not done after so many steps. -/
def scan (s : Selection) : (steps wanted p : Nat) → Option (List Nat)
  | _, 0, _ => some []
  | 0, _ + 1, _ => none
  | steps + 1, wanted + 1, p =>
    if s.isFiller p then s.scan steps (wanted + 1) (s.next p)
    else (s.scan steps wanted (s.next p)).map (p :: ·)

@[simp] theorem scan_zero (steps p : Nat) : s.scan steps 0 p = some [] := by
  cases steps <;> rfl

/-- One step of the loop at a filler reads nothing and goes on. -/
theorem scan_of_filler {p : Nat} (h : s.isFiller p = true) (steps wanted : Nat) :
    s.scan (steps + 1) (wanted + 1) p = s.scan steps (wanted + 1) (s.next p) :=
  if_pos h

/-- One step of the loop at any other position reads it. -/
theorem scan_of_read {p : Nat} (h : s.isFiller p = false) (steps wanted : Nat) :
    s.scan (steps + 1) (wanted + 1) p = (s.scan steps wanted (s.next p)).map (p :: ·) := by
  rw [scan, if_neg (by rw [h]; exact Bool.false_ne_true)]

/-- Within the buffer, the position that comes next is the one after it, around
the end. -/
theorem next_eq_mod {p : Nat} (hp : p < s.length) : s.next p = (p + 1) % s.length := by
  rw [next]
  split
  · rename_i hend
    rw [hend, Nat.mod_self]
  · rw [Nat.mod_eq_of_lt (by omega)]

theorem next_lt {p : Nat} (hp : p < s.length) : s.next p < s.length := by
  rw [next_eq_mod hp]
  exact Nat.mod_lt _ (Nat.lt_of_le_of_lt (Nat.zero_le p) hp)

/-- From a filler on, the loop settles where it settles from the next position,
because the fillers are one piece. -/
theorem settle_next (h : s.Proper) {p : Nat} (hp : p < s.length) (hfiller : s.isFiller p = true) :
    s.settle (s.next p) = s.settle p := by
  have hroom := h.room
  obtain ⟨hge, hlt⟩ := isFiller_eq_true.mp hfiller
  have hsettled : s.settle p = if s.fillerStop < s.length then s.fillerStop else 0 := if_pos hfiller
  rw [hsettled, settle, next]
  split
  · -- the fillers reach the end of the buffer, so they do not begin at its front
    have hfront : ¬ s.isFiller 0 = true := by
      rw [isFiller_eq_true]
      omega
    rw [if_neg hfront, if_neg (by omega)]
  · by_cases hagain : s.isFiller (p + 1) = true
    · rw [if_pos hagain]
    · rw [isFiller_eq_true] at hagain
      rw [if_neg (by rw [isFiller_eq_true]; exact hagain), if_pos (by omega)]
      omega

/-- The loop steps over fillers until it settles. How many steps that takes is
left open, as the loop itself counts only reads. -/
theorem exists_scan_settle (h : s.Proper) {p : Nat} (hp : p < s.length) :
    ∃ skipped, ∀ steps wanted,
      s.scan (skipped + steps) (wanted + 1) p = s.scan steps (wanted + 1) (s.settle p) := by
  -- the fillers that are left grow fewer with every step, until the end of the buffer at the latest
  induction hleft : s.fillerStop - p generalizing p with
  | zero =>
    have hread : ¬ s.isFiller p = true := by
      rw [isFiller_eq_true]
      omega
    exact ⟨0, fun steps wanted => by rw [Nat.zero_add, settle, if_neg hread]⟩
  | succ left ih =>
    by_cases hfiller : s.isFiller p = true
    · obtain ⟨skipped, hskipped⟩ : ∃ skipped, ∀ steps wanted,
          s.scan (skipped + steps) (wanted + 1) (s.next p) =
            s.scan steps (wanted + 1) (s.settle (s.next p)) := by
        by_cases hend : p + 1 = s.length
        · have hfront : s.next p = 0 := if_pos hend
          have hread : ¬ s.isFiller 0 = true := by
            have hroom := h.room
            obtain ⟨hge, hlt⟩ := isFiller_eq_true.mp hfiller
            rw [isFiller_eq_true]
            omega
          exact ⟨0, fun steps wanted => by rw [Nat.zero_add, hfront, settle, if_neg hread]⟩
        · have hnext : s.next p = p + 1 := if_neg hend
          rw [hnext]
          exact ih (by omega) (by omega)
      refine ⟨skipped + 1, fun steps wanted => ?_⟩
      rw [Nat.add_right_comm, scan_of_filler hfiller, hskipped, settle_next h hp hfiller]
    · exact ⟨0, fun steps wanted => by rw [Nat.zero_add, settle, if_neg hfiller]⟩

/-- From a position that settles where the `k`-th read is, the loop goes on in
the closed form. The induction is on the number of reads that are left. -/
theorem exists_scan_from (h : s.Proper) (n : Nat) {p k : Nat} (hp : p < s.length)
    (hsettle : s.settle p = s.position k) :
    ∃ steps, s.scan steps n p = some ((List.range n).map fun i => s.position (k + i)) := by
  induction n generalizing p k with
  | zero => exact ⟨0, rfl⟩
  | succ n ih =>
    have hlt := position_lt h k
    obtain ⟨steps, hsteps⟩ := ih (k := k + 1) (next_lt hlt)
      (by rw [next_eq_mod hlt, ← position_succ h])
    obtain ⟨skipped, hskipped⟩ := exists_scan_settle h hp
    refine ⟨skipped + (steps + 1), ?_⟩
    rw [hskipped, hsettle, scan_of_read (s.not_filler_position k), hsteps, List.range_succ_eq_map,
      List.map_cons, List.map_map]
    have hshift : (fun i => s.position (k + 1 + i)) = (fun i => s.position (k + i)) ∘ Nat.succ := by
      funext i
      show s.position (k + 1 + i) = s.position (k + (i + 1))
      rw [Nat.add_right_comm, Nat.add_assoc]
    rw [Option.map_some, hshift, Nat.add_zero]

/-- The loop ends, and has read the positions of the closed form. There is no
bound on the number of reads. -/
theorem exists_scan (h : s.Proper) (n : Nat) :
    ∃ steps, s.scan steps n s.start = some ((List.range n).map s.position) := by
  obtain ⟨steps, hsteps⟩ := exists_scan_from h n h.start (position_zero h).symm
  simp only [Nat.zero_add] at hsteps
  exact ⟨steps, hsteps⟩

/-! ## Turns -/

/-- Number of positions of the buffer that are not stepped over. -/
def free (s : Selection) : Nat := Nat.count (fun p => s.isFiller p = false) s.length

/-- Number of positions that are read on the way from the start of the walk to
`p`. -/
def turn (s : Selection) (p : Nat) : Nat :=
  Nat.count (fun i => s.isFiller ((s.start + i) % s.length) = false)
    ((p + s.length - s.start) % s.length)

/-- The rank of a position counts the reads before it. -/
theorem count_read (hs : s.fillerStart ≤ s.fillerStop) (p : Nat) :
    Nat.count (fun p => s.isFiller p = false) p = s.rank p := by
  induction p with
  | zero => simp [rank]
  | succ p ih =>
    rw [Nat.count_succ, ih]
    by_cases hread : s.isFiller p = false
    · rw [if_pos hread, rank_succ hs hread]
    · rw [if_neg hread, Nat.add_zero]
      obtain ⟨hge, hlt⟩ := isFiller_eq_true.mp (Bool.eq_true_of_not_eq_false hread)
      rw [rank, rank]
      omega

/-- A round of the walk has as many reads as the buffer has positions that are
not stepped over. -/
theorem free_eq_period (h : s.Proper) : s.free = s.period := count_read h.span _

theorem free_pos (h : s.Proper) : 0 < s.free := by
  rw [free_eq_period h]
  exact period_pos h

/-- Reads counted on the way around the buffer, from its front on. Within the
first round nothing is counted twice. -/
theorem count_around (hs : s.fillerStart ≤ s.fillerStop) {p : Nat} (hp : p ≤ s.length) :
    Nat.count (fun i => s.isFiller (i % s.length) = false) p = s.rank p := by
  rw [← count_read hs]
  refine Nat.le_antisymm (Nat.count_mono_left fun i hi hread => ?_)
    (Nat.count_mono_left fun i hi hread => ?_)
  · rwa [Nat.mod_eq_of_lt (by omega)] at hread
  · rwa [Nat.mod_eq_of_lt (by omega)]

/-- The turn of a position is what lies between it and the start, or what a
whole round has left when the position lies before the start. -/
theorem rank_add_turn (h : s.Proper) {p : Nat} (hp : p < s.length) :
    s.rank s.start + s.turn p = s.rank p + if p < s.start then s.period else 0 := by
  have hstart := h.start
  rw [turn, ← count_around h.span (Nat.le_of_lt hstart), ← Nat.count_add]
  split
  · have hway : s.start + (p + s.length - s.start) % s.length = s.length + p := by
      rw [Nat.mod_eq_of_lt (by omega)]
      omega
    rw [hway, Nat.count_add, count_around h.span (Nat.le_refl _)]
    simp only [Nat.add_mod_left]
    rw [count_around h.span (Nat.le_of_lt hp), Nat.add_comm, period]
  · have hway : s.start + (p + s.length - s.start) % s.length = p := by
      rw [Nat.sub_add_comm (by omega), Nat.add_mod_right, Nat.mod_eq_of_lt (by omega)]
      omega
    rw [hway, count_around h.span (Nat.le_of_lt hp), Nat.add_zero]

/-- The turn of a position comes in the first round. -/
theorem turn_lt (h : s.Proper) {p : Nat} (hp : p < s.length) (hread : s.isFiller p = false) :
    s.turn p < s.free := by
  have hsum := rank_add_turn h hp
  have hrank := rank_lt h.span hread hp
  rw [free_eq_period h]
  split at hsum
  · rename_i hbefore
    -- the position itself is read before the walk is back at its start
    have hfewer : s.rank p < s.rank s.start := by
      rw [← count_read h.span, ← count_read h.span]
      exact Nat.count_strict_mono hread hbefore
    omega
  · omega

/-- The walk is at a position when its turn comes. -/
theorem position_turn (h : s.Proper) {p : Nat} (hp : p < s.length) (hread : s.isFiller p = false) :
    s.position (s.turn p) = p := by
  have hwhole : (s.rank p + if p < s.start then s.period else 0) % s.period = s.rank p := by
    have hrank := Nat.mod_eq_of_lt (rank_lt h.span hread hp)
    split
    · rw [Nat.add_mod_right, hrank]
    · rw [Nat.add_zero, hrank]
  rw [position, rank_add_turn h hp, hwhole, unrank_rank h.span hread]

/-- A position is read once in every round, when its turn comes. Ranks within a
round are different, and so are the positions found from them. -/
theorem position_eq_iff (h : s.Proper) {p : Nat} (hp : p < s.length)
    (hread : s.isFiller p = false) (k : Nat) : s.position k = p ↔ k ≡ s.turn p [MOD s.free] := by
  rw [free_eq_period h]
  constructor
  · intro hk
    have hrank : ∀ k, s.rank (s.position k) = (s.rank s.start + k) % s.period := fun k =>
      rank_unrank h.span _
    have heq : (s.rank s.start + k) % s.period = (s.rank s.start + s.turn p) % s.period := by
      rw [← hrank, ← hrank, hk, position_turn h hp hread]
    exact Nat.ModEq.add_left_cancel' (s.rank s.start) heq
  · intro hk
    have heq : (s.rank s.start + k) % s.period = (s.rank s.start + s.turn p) % s.period :=
      Nat.ModEq.add_left (s.rank s.start) hk
    rw [← position_turn h hp hread, position, position, heq]

/-- How often a position is read: once in every round, and once more if its turn
comes in the round that is not completed. -/
theorem count_position (h : s.Proper) {p : Nat} (hp : p < s.length)
    (hread : s.isFiller p = false) (n : Nat) :
    Nat.count (fun k => s.position k = p) n =
      n / s.free + if s.turn p < n % s.free then 1 else 0 := by
  simp only [position_eq_iff h hp hread]
  rw [Nat.count_modEq_card n (free_pos h), Nat.mod_eq_of_lt (turn_lt h hp hread)]

/-! ## Even reading -/

/-- A walk of `n` reads ends, reads nothing that is stepped over or lies outside
of the buffer, and reads every other position as often as there are whole
rounds, and those whose turn comes first once more. -/
structure ReadsEvenly (s : Selection) (n : Nat) : Prop where
  ends : ∃ steps, s.scan steps n s.start = some ((List.range n).map s.position)
  within : ∀ k, s.position k < s.length ∧ s.isFiller (s.position k) = false
  times : ∀ p < s.length, s.isFiller p = false → Nat.count (fun k => s.position k = p) n =
    n / s.free + if s.turn p < n % s.free then 1 else 0

/-- Every proper walk reads evenly, whatever the number of its reads. -/
theorem readsEvenly (h : s.Proper) (n : Nat) : s.ReadsEvenly n where
  ends := exists_scan h n
  within k := ⟨position_lt h k, s.not_filler_position k⟩
  times _ hp hread := count_position h hp hread n

/-- Two rounds of a buffer of seven with two fillers, from position five on. -/
example : let s : Selection := ⟨7, 2, 4, 5⟩
    s.scan 14 10 s.start = some [5, 6, 0, 1, 4, 5, 6, 0, 1, 4] ∧ s.turn 1 = 3 := by decide

end Selection

end Uplink
