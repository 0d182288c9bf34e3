import Uplink.Proofs.Ldpc.CheckVisit
import Uplink.Proofs.Single.Order

/-!
# What a check tells an edge

A check passes over its incoming values once and keeps the two least magnitudes and the parity of
the negative values. That is enough to tell every edge what the *other* values alone say: their least
magnitude, scaled, and negative if an odd number of them is.

- `CheckNode.Least`: the least magnitude on a set of edges.
- `CheckNode.Seen`: what one pass knows of the values seen so far; `seen_absorb`, `seen_minima`.
- `CheckNode.IsExtrinsic`: the message that the values on other edges determine, and
  `IsExtrinsic.unique`.
- `Workspace.message_isExtrinsic`: the messages that a visit to a check leaves.
-/

namespace Uplink

namespace Ldpc

open Single Finset

namespace CheckNode

variable {q : Nat → Float32} {S : Finset Nat} {x : Float32} {n : Nat} {m : Minima}

/-! ## The least magnitude on a set of edges -/

/-- The least magnitude of the values on the edges of a set, infinite if there
are none. -/
def Least (q : Nat → Float32) (S : Finset Nat) (x : Float32) : Prop :=
  S = ∅ ∧ x = infinity ∨ ∃ j ∈ S, x = (q j).abs ∧ ∀ k ∈ S, magnitude (q j) ≤ magnitude (q k)

namespace Least

/-- A value below the least one is the new least one. -/
theorem insert_of_lt (hq : ∀ k, (q k).isFinite = true) (h : Least q S x) (hlt : (q n).abs < x) :
    Least q (insert n S) (q n).abs := by
  refine .inr ⟨n, mem_insert_self n S, rfl, fun k hk => ?_⟩
  rcases mem_insert.mp hk with rfl | hk
  · exact le_rfl
  · rcases h with ⟨rfl, -⟩ | ⟨j, -, rfl, hleast⟩
    · exact absurd hk (notMem_empty k)
    · exact ((abs_lt_iff (hq n) (hq j)).mp hlt).le.trans (hleast k hk)

/-- Any other value leaves it the least one; on no edges every value is below.
-/
theorem insert_of_not_lt (hq : ∀ k, (q k).isFinite = true) (h : Least q S x)
    (hlt : ¬ (q n).abs < x) : Least q (insert n S) x := by
  rcases h with ⟨-, rfl⟩ | ⟨j, hj, rfl, hleast⟩
  · exact absurd (abs_lt_infinity (hq n)) hlt
  · refine .inr ⟨j, mem_insert_of_mem hj, rfl, fun k hk => ?_⟩
    rcases mem_insert.mp hk with rfl | hk
    · exact not_lt.mp fun h => hlt ((abs_lt_iff (hq k) (hq j)).mpr h)
    · exact hleast k hk

/-- Where the least magnitude is attained, the other edges do not matter. -/
theorem erase (hq : ∀ k, (q k).isFinite = true) {j e : Nat} (h : Least q S (q j).abs) (hj : j ∈ S)
    (hne : j ≠ e) : Least q (S.erase e) (q j).abs := by
  refine .inr ⟨j, mem_erase.mpr ⟨hne, hj⟩, rfl, fun k hk => ?_⟩
  rcases h with ⟨rfl, -⟩ | ⟨i, -, heq, hleast⟩
  · exact absurd hj (notMem_empty j)
  · have hle : (q j).abs ≤ (q j).abs := (abs_le_iff (hq j) (hq j)).mpr le_rfl
    have hji : magnitude (q j) ≤ magnitude (q i) :=
      (abs_le_iff (hq j) (hq i)).mp (heq ▸ hle)
    exact hji.trans (hleast k (mem_of_mem_erase hk))

end Least

/-! ## One pass -/

/-- The number of negative values on the edges of a set. -/
def negatives (q : Nat → Float32) (S : Finset Nat) : Nat := #{k ∈ S | q k < 0}

/-- One more value turns the parity over if it is negative. -/
theorem odd_negatives_insert (hn : n ∉ S) :
    decide (Odd (negatives q (insert n S))) =
      (decide (Odd (negatives q S)) != decide (q n < 0)) := by
  have hnotin : n ∉ S.filter fun k => q k < 0 := fun h => hn (mem_filter.mp h).1
  unfold negatives
  rw [filter_insert]
  by_cases hneg : q n < 0
  · rw [if_pos hneg, card_insert_of_notMem hnotin, decide_eq_true hneg]
    simp only [Nat.odd_add_one, decide_not, Bool.bne_true]
  · rw [if_neg hneg, decide_eq_false hneg, Bool.bne_false]

/-- What a pass knows of the first `n` values: the least magnitude and where it
is attained, the least one of the other edges, and the parity of the negative
values. -/
structure Seen (q : Nat → Float32) (n : Nat) (m : Minima) : Prop where
  least : Least q (range n) m.least
  second : Least q ((range n).erase m.place) m.second
  negative : m.negative = decide (Odd (negatives q (range n)))
  attained : 0 < n → m.place < n ∧ m.least = (q m.place).abs

theorem seen_start (q : Nat → Float32) : Seen q 0 Minima.start where
  least := .inl ⟨rfl, rfl⟩
  second := .inl ⟨rfl, rfl⟩
  negative := rfl
  attained := fun h => absurd h (lt_irrefl 0)

/-- Taking in one more value: it becomes the least one, or the least one of the
other edges, or neither. -/
theorem seen_absorb (hq : ∀ k, (q k).isFinite = true) (h : Seen q n m) :
    Seen q (n + 1) (m.absorb n (q n)) := by
  have hnotin : n ∉ range n := notMem_range_self
  have hneg : (m.negative != decide (q n < 0)) = decide (Odd (negatives q (range (n + 1)))) := by
    rw [range_add_one, odd_negatives_insert hnotin, h.negative]
  rw [Minima.absorb]
  by_cases hlt : (q n).abs < m.least
  · -- the least one so far is the second now
    rw [if_pos hlt]
    refine ⟨?_, ?_, hneg, fun _ => ⟨Nat.lt_succ_self n, rfl⟩⟩
    · rw [range_add_one]
      exact h.least.insert_of_lt hq hlt
    · rw [range_add_one, erase_insert hnotin]
      exact h.least
  rw [if_neg hlt]
  -- the least one is attained before
  have hpos : 0 < n := by
    rw [Nat.pos_iff_ne_zero]
    rintro rfl
    rcases h.least with ⟨-, heq⟩ | ⟨j, hj, -⟩
    · exact hlt (heq ▸ abs_lt_infinity (hq 0))
    · exact absurd hj (notMem_empty j)
  obtain ⟨hplace, hat⟩ := h.attained hpos
  have hleast : Least q (range (n + 1)) m.least := by
    rw [range_add_one]
    exact h.least.insert_of_not_lt hq hlt
  have herase : (range (n + 1)).erase m.place = insert n ((range n).erase m.place) := by
    rw [range_add_one, erase_insert_of_ne hplace.ne']
  have hattained : 0 < n + 1 → m.place < n + 1 ∧ m.least = (q m.place).abs :=
    fun _ => ⟨Nat.lt_succ_of_lt hplace, hat⟩
  by_cases hlt' : (q n).abs < m.second
  · rw [if_pos hlt']
    refine ⟨hleast, ?_, hneg, hattained⟩
    rw [herase]
    exact h.second.insert_of_lt hq hlt'
  · rw [if_neg hlt']
    refine ⟨hleast, ?_, hneg, hattained⟩
    rw [herase]
    exact h.second.insert_of_not_lt hq hlt'

/-- One pass over all values, one after the other. -/
theorem seen_minima {incoming : Array Float32}
    (hfinite : ∀ k, (incoming.getD k 0).isFinite = true) :
    Seen (incoming.getD · 0) incoming.size (minima incoming) := by
  unfold minima
  refine (Array.foldl_induction
    (fun n (state : Minima × Nat) => Seen (incoming.getD · 0) n state.1 ∧ state.2 = n)
    ⟨seen_start _, rfl⟩ ?_).1
  rintro ⟨n, hn⟩ ⟨m, e⟩ ⟨hm, rfl⟩
  have hget : incoming.getD e 0 = incoming[e] := Buffer.getD_of_lt hn 0
  have := seen_absorb hfinite hm
  rw [hget] at this
  exact ⟨this, rfl⟩

/-! ## The messages -/

/-- The message that the values on other edges determine: their least magnitude,
scaled, turned over if an odd number of them is negative. -/
def IsExtrinsic (scale : Float32) (q : Nat → Float32) (others : Finset Nat) (message : Float32) :
    Prop :=
  ∃ j ∈ others, (∀ k ∈ others, (q j).abs ≤ (q k).abs) ∧
    message = if Odd (negatives q others) then -(scale * (q j).abs) else scale * (q j).abs

/-- Nothing but those values determines it, so the value of the edge itself does
not enter its message. -/
theorem IsExtrinsic.unique {q' : Nat → Float32} {scale message message' : Float32}
    (h : IsExtrinsic scale q S message) (h' : IsExtrinsic scale q' S message')
    (hfinite : ∀ k ∈ S, (q k).isFinite = true) (heq : ∀ k ∈ S, q' k = q k) :
    message' = message := by
  obtain ⟨j, hj, hleast, rfl⟩ := h
  obtain ⟨i, hi, hleast', rfl⟩ := h'
  have hnegatives : negatives q' S = negatives q S :=
    congrArg card (filter_congr fun k hk => by rw [heq k hk])
  have hij := (abs_le_iff (hfinite i hi) (hfinite j hj)).mp
    (by simpa only [heq i hi, heq j hj] using hleast' j hj)
  have hji := (abs_le_iff (hfinite j hj) (hfinite i hi)).mp (hleast i hi)
  have habs : (q i).abs = (q j).abs :=
    abs_eq_of_magnitude_eq (hfinite i hi) (hfinite j hj) (le_antisymm hij hji)
  rw [hnegatives, heq i hi, habs]

/-- What a pass has seen is enough for every edge: the edge of the least value
gets the least of the others, all other edges the least of all. -/
theorem Seen.isExtrinsic (hq : ∀ k, (q k).isFinite = true) (h : Seen q n m) (hn : 2 ≤ n) {e : Nat}
    (he : e < n) (scale : Float32) :
    IsExtrinsic scale q ((range n).erase e) (m.message scale e (q e)) := by
  have hmem : e ∈ range n := mem_range.mpr he
  obtain ⟨hplace, hat⟩ := h.attained (by omega)
  -- the magnitude is the least one of the other edges
  have hleast : Least q ((range n).erase e) (if e = m.place then m.second else m.least) := by
    by_cases hown : e = m.place
    · rw [if_pos hown, hown]
      exact h.second
    · rw [if_neg hown, hat]
      exact (hat ▸ h.least).erase hq (mem_range.mpr hplace) (Ne.symm hown)
  -- the sign counts all values, and the edge's own once more
  have hodd : (m.negative != decide (q e < 0)) =
      decide (Odd (negatives q ((range n).erase e))) := by
    rw [h.negative, ← insert_erase hmem, odd_negatives_insert (notMem_erase e _),
      insert_erase hmem, Bool.bne_assoc, bne_self_eq_false, Bool.bne_false]
  rcases hleast with ⟨hempty, -⟩ | ⟨j, hj, heq, hle⟩
  · have hcard := card_erase_of_mem hmem
    rw [hempty, card_empty, card_range] at hcard
    omega
  · refine ⟨j, hj, fun k hk => (abs_le_iff (hq j) (hq k)).mpr (hle k hk), ?_⟩
    rw [Minima.message, hodd, heq]
    exact if_congr decide_eq_true_iff rfl rfl

/-- So every message of a check is extrinsic. -/
theorem messages_isExtrinsic {incoming : Array Float32} (hsize : 2 ≤ incoming.size)
    (hfinite : ∀ k, (incoming.getD k 0).isFinite = true) {e : Nat} (he : e < incoming.size)
    (scale : Float32) :
    IsExtrinsic scale (incoming.getD · 0) ((range incoming.size).erase e)
      ((messages scale incoming).getD e 0) := by
  have hget : (messages scale incoming).getD e 0 =
      (minima incoming).message scale e (incoming.getD e 0) := by
    simp [messages, Array.getD, he]
  rw [hget]
  exact (seen_minima hfinite).isExtrinsic hfinite hsize he scale

end CheckNode

/-! ## Visits to checks -/

namespace Workspace

variable {z : Nat} {scale : Float32} {row : Array Edge} {firstEdge : Nat} {w w' : Workspace}
  {i e : Nat}

/-- The value that a check takes from the variable of an edge. -/
abbrev taken (z : Nat) (row : Array Edge) (firstEdge : Nat) (w : Workspace) (i e : Nat) : Float32 :=
  (incoming z row firstEdge w i).getD e 0

/-- A visit leaves its messages at the places of its edges. -/
theorem messages_updateCheck (hi : i < z)
    (hroom : (firstEdge + row.size) * z ≤ w.messages.size) (he : e < row.size) :
    (updateCheck z scale row firstEdge w i).messages.getD ((firstEdge + e) * z + i) 0 =
      (outgoing z scale row firstEdge w i).getD e 0 := by
  rw [updateCheck_eq]
  refine Buffer.getD_scatter he (fun a _ b _ hab => ?_) ?_
  · have hmul : (firstEdge + a) * z = (firstEdge + b) * z := Nat.add_right_cancel hab
    have := Nat.eq_of_mul_eq_mul_right (by omega) hmul
    omega
  · calc (firstEdge + e) * z + i < (firstEdge + e) * z + z := Nat.add_lt_add_left hi _
      _ = (firstEdge + e + 1) * z := (Nat.succ_mul _ _).symm
      _ ≤ (firstEdge + row.size) * z := Nat.mul_le_mul_right _ (by omega)
      _ ≤ w.messages.size := hroom

theorem updateCheck_isExtrinsic (hi : i < z) (hrow : 2 ≤ row.size)
    (hroom : (firstEdge + row.size) * z ≤ w.messages.size)
    (hfinite : ∀ j < row.size, (taken z row firstEdge w i j).isFinite = true) (he : e < row.size) :
    CheckNode.IsExtrinsic scale (taken z row firstEdge w i) ((range row.size).erase e)
      ((updateCheck z scale row firstEdge w i).messages.getD ((firstEdge + e) * z + i) 0) := by
  have hsize : (incoming z row firstEdge w i).size = row.size := size_incoming
  have hall : ∀ j, ((incoming z row firstEdge w i).getD j 0).isFinite = true := by
    intro j
    rcases Nat.lt_or_ge j row.size with hj | hj
    · exact hfinite j hj
    · rw [Array.getD_eq_getD_getElem?, Array.getElem?_eq_none (by omega)]
      rfl
  rw [messages_updateCheck hi hroom he, ← hsize]
  exact CheckNode.messages_isExtrinsic (by omega) hall (by omega) scale

/-- A visit to a check whose values are finite leaves on every edge the message
that the values of the other edges determine; whatever finite value the edge
itself has, its message is the same. -/
theorem message_isExtrinsic (hi : i < z) (hrow : 2 ≤ row.size)
    (hroom : (firstEdge + row.size) * z ≤ w.messages.size)
    (hfinite : ∀ j < row.size, (taken z row firstEdge w i j).isFinite = true) (he : e < row.size) :
    CheckNode.IsExtrinsic scale (taken z row firstEdge w i) ((range row.size).erase e)
      ((updateCheck z scale row firstEdge w i).messages.getD ((firstEdge + e) * z + i) 0) ∧
    ∀ w' : Workspace, (firstEdge + row.size) * z ≤ w'.messages.size →
      (taken z row firstEdge w' i e).isFinite = true →
      (∀ j < row.size, j ≠ e → taken z row firstEdge w' i j = taken z row firstEdge w i j) →
      (updateCheck z scale row firstEdge w' i).messages.getD ((firstEdge + e) * z + i) 0 =
        (updateCheck z scale row firstEdge w i).messages.getD ((firstEdge + e) * z + i) 0 := by
  have hmessage : CheckNode.IsExtrinsic scale _ _ _ :=
    updateCheck_isExtrinsic hi hrow hroom hfinite he
  refine ⟨hmessage, fun w' hroom' hown hothers => ?_⟩
  have hfinite' : ∀ j < row.size, (taken z row firstEdge w' i j).isFinite = true := by
    intro j hj
    rcases eq_or_ne j e with rfl | hne
    · exact hown
    · rw [hothers j hj hne]
      exact hfinite j hj
  refine hmessage.unique (updateCheck_isExtrinsic hi hrow hroom' hfinite' he)
    (fun k hk => ?_) fun k hk => ?_
  · exact hfinite k (mem_range.mp (mem_of_mem_erase hk))
  · exact hothers k (mem_range.mp (mem_of_mem_erase hk)) (mem_erase.mp hk).1

/-- A check of three edges with the values 2, -1 and -1: the least magnitude is
attained twice. -/
theorem message_isExtrinsic_tie :
    CheckNode.IsExtrinsic 0.8 (taken 1 #[⟨0, 0⟩, ⟨1, 0⟩, ⟨2, 0⟩] 0 ⟨#[2, -1, -1], #[0, 0, 0]⟩ 0)
      ((range 3).erase 1)
      ((updateCheck 1 0.8 #[⟨0, 0⟩, ⟨1, 0⟩, ⟨2, 0⟩] 0 ⟨#[2, -1, -1], #[0, 0, 0]⟩ 0).messages.getD 1
        0) :=
  (@message_isExtrinsic 1 0.8 #[⟨0, 0⟩, ⟨1, 0⟩, ⟨2, 0⟩] 0 ⟨#[2, -1, -1], #[0, 0, 0]⟩ 0 1 (by decide)
    (by decide) (by decide) (by decide) (by decide)).1

end Workspace

end Ldpc

end Uplink
