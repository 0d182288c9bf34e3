import Uplink.Proofs.Ldpc.CheckVisit

/-!
# Sweeps

A sweep visits every check once, and so finds every message as the start left it. From the
visits it follows that a sweep keeps the agreement with a word and forgets nothing, and that it
recovers the two punctured columns: all other variables of the first two rows are among those sent.

- `Fresh`: the messages that a sweep has not replaced yet have no side.
- `Agrees.visits`, `Agrees.recovers`: the checks of one row.
- `Agrees.sweep`: all rows; the systematic variables are settled at the end.
- `Knows.sweep`, `unhelpful_of_erased`: a sweep over checks that each meet two variables without a
  side changes no side; erased parity bits make all checks such.
-/

namespace Uplink

namespace Ldpc

open Single Finset

variable {word : Bits} {n z : Nat} {row : Array Edge} {scale : Float32} {firstEdge : Nat}
  {w : Workspace}

/-! ## The checks of a row -/

namespace Workspace

/-- The workspace after the first `k` checks of a row. -/
def visits (z : Nat) (scale : Float32) (row : Array Edge) (firstEdge : Nat) (w : Workspace)
    (k : Nat) : Workspace :=
  (List.range k).foldl (updateCheck z scale row firstEdge) w

theorem visits_succ (k : Nat) :
    visits z scale row firstEdge w (k + 1) =
      updateCheck z scale row firstEdge (visits z scale row firstEdge w k) k := by
  simp [visits, List.range_succ]

@[simp] theorem size_posterior_visits (k : Nat) :
    (visits z scale row firstEdge w k).posterior.size = w.posterior.size := by
  induction k with
  | zero => rfl
  | succ k ih => rw [visits_succ, size_posterior_updateCheck, ih]

theorem updateRow_eq : updateRow z scale row firstEdge w = visits z scale row firstEdge w z := rfl

end Workspace

open Workspace (visits visits_succ updateRow_eq)

/-- The messages of the checks from `i` on, and those of later rows, have no
side. -/
def Fresh (z degree firstEdge i : Nat) (w : Workspace) : Prop :=
  ∀ e j, j < z → degree ≤ e ∨ i ≤ j → side (w.messages.getD ((firstEdge + e) * z + j) 0) = some 0

namespace Fresh

/-- A visit replaces the messages of its own check only. -/
theorem updateCheck {i : Nat} (h : Fresh z row.size firstEdge i w) (hi : i < z) :
    Fresh z row.size firstEdge (i + 1) (Workspace.updateCheck z scale row firstEdge w i) := by
  intro e j hj hlater
  rw [Workspace.messages_updateCheck_of_ne]
  · exact h e j hj (by omega)
  · intro e' he' heq
    have hz : 0 < z := by omega
    -- place and check are read back from the number of the message
    have hplace := congrArg (· / z) heq
    simp only [Nat.mul_comm _ z, Nat.mul_add_div hz, Nat.div_eq_of_lt hi, Nat.div_eq_of_lt hj]
      at hplace
    obtain rfl : e = e' := by omega
    omega

theorem message {i : Nat} (h : Fresh z row.size firstEdge i w) (hi : i < z) :
    ∀ e < row.size, side (w.messages.getD ((firstEdge + e) * z + i) 0) = some 0 :=
  fun e _ => h e i hi (.inr (Nat.le_refl i))

/-- Before a sweep no message has a side. -/
theorem of_all (h : ∀ k, side (w.messages.getD k 0) = some 0) (z degree firstEdge i : Nat) :
    Fresh z degree firstEdge i w :=
  fun _ _ _ _ => h _

/-- Once all checks of a row are visited, the next row is fresh. -/
theorem next {degree : Nat} (h : Fresh z degree firstEdge z w) (degree' : Nat) :
    Fresh z degree' (firstEdge + degree) 0 w := by
  intro e j hj _
  rw [Nat.add_assoc]
  exact h (degree + e) j hj (.inl (Nat.le_add_right _ _))

end Fresh

namespace Agrees

/-- The first checks of a row keep the agreement, one after the other, and their
messages are the only new ones. -/
theorem visits (hscale : KeepsSide scale) (h : Agrees word n w) (hmet : Met word n z row)
    (hfresh : Fresh z row.size firstEdge 0 w) {k : Nat} (hk : k ≤ z) :
    Agrees word n (visits z scale row firstEdge w k) ∧
      Fresh z row.size firstEdge k (Workspace.visits z scale row firstEdge w k) := by
  induction k with
  | zero => exact ⟨h, hfresh⟩
  | succ k ih =>
    -- the check number `k` is still fresh when its turn comes
    obtain ⟨hagrees, hfresh⟩ := ih (by omega)
    rw [visits_succ]
    exact ⟨hagrees.updateCheck hscale hmet (hfresh.message hk) hk, hfresh.updateCheck hk⟩

/-- A variable that is settled after some checks of a row stays settled through
the others. -/
theorem settled_visits (hscale : KeepsSide scale) (h : Agrees word n w) (hmet : Met word n z row)
    (hfresh : Fresh z row.size firstEdge 0 w) {i k v : Nat} (hik : i ≤ k) (hk : k ≤ z)
    (hv : Settled word (Workspace.visits z scale row firstEdge w i) v) :
    Settled word (Workspace.visits z scale row firstEdge w k) v := by
  induction k, hik using Nat.le_induction with
  | base => exact hv
  | succ k hik ih =>
    obtain ⟨hagrees, hfresh⟩ := h.visits hscale hmet hfresh (show k ≤ z by omega)
    rw [visits_succ]
    exact hagrees.settled_updateCheck hscale hmet (hfresh.message hk) hk (ih (by omega))

/-- A row settles the column of one of its edges if all other variables that it
meets are. -/
theorem recovers (hscale : KeepsSide scale) (h : Agrees word n w) (hmet : Met word n z row)
    (hfresh : Fresh z row.size firstEdge 0 w) {e : Nat} (he : e < row.size)
    (hothers : ∀ i < z, ∀ j < row.size, j ≠ e → Settled word w (Workspace.neighbour z row i j))
    {i : Nat} (hi : i < z) :
    Settled word (Workspace.updateRow z scale row firstEdge w) (Workspace.neighbour z row i e) := by
  -- check `i` settles the variable, and the checks after it keep it settled
  obtain ⟨hagrees, hfresh'⟩ := h.visits hscale hmet hfresh (show i ≤ z by omega)
  have hsettled : Settled word (Workspace.visits z scale row firstEdge w (i + 1))
      (Workspace.neighbour z row i e) := by
    rw [visits_succ]
    refine hagrees.settled_of_others hscale hmet (hfresh'.message hi) hi he fun j hj hne => ?_
    exact h.settled_visits hscale hmet hfresh (Nat.zero_le i) (by omega) (hothers i hi j hj hne)
  rw [updateRow_eq]
  exact h.settled_visits hscale hmet hfresh hi (Nat.le_refl z) hsettled

/-- All checks of a row keep the agreement and forget nothing. -/
theorem updateRow (hscale : KeepsSide scale) (h : Agrees word n w) (hmet : Met word n z row)
    (hfresh : Fresh z row.size firstEdge 0 w) :
    Agrees word n (Workspace.updateRow z scale row firstEdge w) ∧
      Fresh z row.size firstEdge z (Workspace.updateRow z scale row firstEdge w) ∧
      ∀ v, Settled word w v → Settled word (Workspace.updateRow z scale row firstEdge w) v := by
  obtain ⟨hagrees, hfresh'⟩ := h.visits hscale hmet hfresh (Nat.le_refl z)
  exact ⟨hagrees, hfresh', fun v hv =>
    h.settled_visits hscale hmet hfresh (Nat.zero_le z) (Nat.le_refl z) hv⟩

end Agrees

/-! ## All rows -/

namespace Workspace

/-- Visit all checks of row `r`; the second component numbers the row's first
edge. -/
def sweepRow (graph : LiftedGraph) (scale : Float32) (state : Workspace × Nat) (r : Nat) :
    Workspace × Nat :=
  (updateRow graph.liftingSize scale (graph.edges r) state.2 state.1,
    state.2 + (graph.edges r).size)

/-- The state of a sweep after the first `r` rows. -/
def rowsSwept (graph : LiftedGraph) (scale : Float32) (w : Workspace) (r : Nat) : Workspace × Nat :=
  (List.range r).foldl (sweepRow graph scale) (w, 0)

theorem rowsSwept_succ (graph : LiftedGraph) (r : Nat) :
    rowsSwept graph scale w (r + 1) = sweepRow graph scale (rowsSwept graph scale w r) r := by
  simp [rowsSwept, List.range_succ]

theorem sweep_eq (graph : LiftedGraph) :
    w.sweep graph scale = (rowsSwept graph scale w graph.base.rows).1 := by
  rw [sweep, ← Array.foldl_toList, graph.rows_eq_map, List.foldl_map]
  rfl

/-- A sweep writes values, but adds and removes none. -/
@[simp] theorem size_posterior_sweep (graph : LiftedGraph) (scale : Float32) (w : Workspace) :
    (w.sweep graph scale).posterior.size = w.posterior.size := by
  rw [sweep_eq]
  generalize graph.base.rows = r
  induction r with
  | zero => rfl
  | succ r ih => rw [rowsSwept_succ, sweepRow, updateRow_eq, size_posterior_visits, ih]

end Workspace

open Workspace (rowsSwept rowsSwept_succ sweepRow sweep_eq)

/-- Every row of the graph is met by the word. -/
def MetBy (graph : LiftedGraph) (word : Bits) : Prop :=
  ∀ r < graph.base.rows, Met word graph.variableCount graph.liftingSize (graph.edges r)

/-- The word of a message meets the rows of its graph. -/
theorem metBy_codeword (graph : LiftedGraph) {message : Bits} (hbits : message.HasOnly01)
    (hsize : message.size = graph.base.messageLength graph.liftingSize) :
    MetBy graph (graph.codeword message) := fun r hr =>
  { pos := graph.liftingSize_pos
    bits := graph.onlyBits_codeword hbits
    injective := fun _ _ => graph.edges_injective hr
    bound := fun i e he => by
      rw [Workspace.neighbour_eq he]
      exact Edge.target_lt graph.liftingSize_pos (graph.column_lt hr (Array.getElem_mem he))
    sum := fun _ hi => graph.checkSum_codeword hsize hr hi }

/-- Every variable of the columns from `a` on below `b` is settled. -/
def ColumnsSettled (graph : LiftedGraph) (word : Bits) (w : Workspace) (a b : Nat) : Prop :=
  ∀ v, a * graph.liftingSize ≤ v → v < b * graph.liftingSize → Settled word w v

/-- A variable of a column is met through the row's edge of that column. -/
theorem exists_neighbour (graph : LiftedGraph) {r column v : Nat}
    (hedge : ∃ edge ∈ graph.edges r, edge.column = column)
    (hle : column * graph.liftingSize ≤ v) (hlt : v < (column + 1) * graph.liftingSize) :
    ∃ (e : Nat) (he : e < (graph.edges r).size), (graph.edges r)[e].column = column ∧
      ∃ i < graph.liftingSize, Workspace.neighbour graph.liftingSize (graph.edges r) i e = v := by
  obtain ⟨edge, hmem, hcolumn⟩ := hedge
  obtain ⟨e, he, rfl⟩ := Array.getElem_of_mem hmem
  rw [Nat.succ_mul] at hlt
  obtain ⟨i, hi, htarget⟩ :=
    (graph.edges r)[e].exists_target (z := graph.liftingSize) (j := v - column * graph.liftingSize)
      (by omega)
  refine ⟨e, he, hcolumn, i, hi, ?_⟩
  rw [Workspace.neighbour_eq he, htarget, hcolumn]
  omega

/-- A row of the first two settles the punctured column of its number, if the
columns that are sent are settled up to the second parity column. -/
theorem recovers_punctured (graph : LiftedGraph) (hscale : KeepsSide scale)
    (hmet : MetBy graph word) (h : Agrees word graph.variableCount w) {p : Nat}
    (hp : p < puncturedColumns)
    (hfresh : Fresh graph.liftingSize (graph.edges p).size firstEdge 0 w)
    (hsent : ColumnsSettled graph word w puncturedColumns (graph.base.systematicColumns + 2)) :
    ColumnsSettled graph word
      (Workspace.updateRow graph.liftingSize scale (graph.edges p) firstEdge w) p (p + 1) := by
  intro v hle hlt
  obtain ⟨hown, hothers⟩ := graph.punctured_row hp
  obtain ⟨e, he, hcolumn, i, hi, rfl⟩ := exists_neighbour graph hown hle hlt
  have hrow : p < graph.base.rows := Nat.lt_of_lt_of_le hp (by cases graph.base <;> decide)
  refine h.recovers hscale (hmet p hrow) hfresh he (fun i _ j hj hne => ?_) hi
  -- every other edge is of another column, and so of one that was sent
  have hcol : (graph.edges p)[j].column ≠ p := fun hj' =>
    hne (graph.edges_injective hrow hj he (hj'.trans hcolumn.symm))
  obtain ⟨hlo, hhi⟩ := hothers _ (Array.getElem_mem hj) hcol
  rw [Workspace.neighbour_eq hj]
  exact hsent _ (Edge.le_target hlo) (Edge.target_lt graph.liftingSize_pos hhi)

/-- After the first rows of a sweep the values agree with the word as before,
nothing is forgotten, and the punctured columns of these rows are settled. -/
theorem rowsSwept_agrees (graph : LiftedGraph) (hscale : KeepsSide scale)
    (hmet : MetBy graph word) (h : Agrees word graph.variableCount w)
    (hmessages : ∀ k, side (w.messages.getD k 0) = some 0)
    (hsent : ColumnsSettled graph word w puncturedColumns (graph.base.systematicColumns + 2))
    {r : Nat} (hr : r ≤ graph.base.rows) :
    let state := rowsSwept graph scale w r
    Agrees word graph.variableCount state.1 ∧
      (∀ degree, Fresh graph.liftingSize degree state.2 0 state.1) ∧
      (∀ v, Settled word w v → Settled word state.1 v) ∧
      ColumnsSettled graph word state.1 0 (min r puncturedColumns) := by
  induction r with
  | zero =>
    refine ⟨h, fun degree => Fresh.of_all hmessages _ _ _ _, fun v hv => hv, fun v _ hv => ?_⟩
    rw [Nat.zero_min, Nat.zero_mul] at hv
    omega
  | succ r ih =>
    obtain ⟨hagrees, hfresh, hkept, hpunctured⟩ := ih (by omega)
    dsimp only
    rw [rowsSwept_succ]
    set state := rowsSwept graph scale w r
    -- the messages of row `r` are fresh because no earlier row has written them
    obtain ⟨hagrees', hfresh', hkept'⟩ := hagrees.updateRow hscale (hmet r hr) (hfresh _)
    refine ⟨hagrees', fun degree => hfresh'.next degree, fun v hv => hkept' v (hkept v hv), ?_⟩
    intro v hlo hv
    rcases Nat.lt_or_ge v (min r puncturedColumns * graph.liftingSize) with hlt | hge
    · exact hkept' v (hpunctured v hlo hlt)
    · -- only the first two rows have a column of their own to recover
      have hp : r < puncturedColumns := by
        by_contra hp
        rw [Nat.min_eq_right (by omega)] at hv hge
        omega
      rw [Nat.min_eq_left (by omega)] at hv hge
      exact recovers_punctured graph hscale hmet hagrees hp (hfresh _)
        (fun v hlo hhi => hkept v (hsent v hlo hhi)) v hge hv

/-- One sweep keeps the agreement and settles every systematic variable. The
first two rows recover the punctured columns, and all others forget nothing. -/
theorem Agrees.sweep (graph : LiftedGraph) (hscale : KeepsSide scale)
    (hmet : MetBy graph word) (h : Agrees word graph.variableCount w)
    (hmessages : ∀ k, side (w.messages.getD k 0) = some 0)
    (hsent : ColumnsSettled graph word w puncturedColumns (graph.base.systematicColumns + 2)) :
    Agrees word graph.variableCount (w.sweep graph scale) ∧
      ColumnsSettled graph word (w.sweep graph scale) 0 graph.base.systematicColumns := by
  obtain ⟨hagrees, -, hkept, hpunctured⟩ :=
    rowsSwept_agrees graph hscale hmet h hmessages hsent (Nat.le_refl _)
  rw [sweep_eq]
  refine ⟨hagrees, fun v hlo hv => ?_⟩
  have hmin : min graph.base.rows puncturedColumns = puncturedColumns := by
    cases graph.base <;> decide
  rw [hmin] at hpunctured
  -- punctured variables were recovered, the others were known from the start
  rcases Nat.lt_or_ge v (puncturedColumns * graph.liftingSize) with hlt | hge
  · exact hpunctured v hlo hlt
  · refine hkept v (hsent v hge (Nat.lt_of_lt_of_le hv ?_))
    exact Nat.mul_le_mul_right _ (Nat.le_add_right _ _)

/-! ## Sweeps that learn nothing -/

/-- The values lie on the sides `s`, and the messages on none. -/
structure Knows (s : Nat → SignType) (n : Nat) (w : Workspace) : Prop where
  size : w.posterior.size = n
  value : ∀ v < n, side (w.posterior.getD v 0) = some (s v)
  message : ∀ k, side (w.messages.getD k 0) = some 0

/-- Check `i` of the row meets two variables without a side. -/
def Unhelpful (s : Nat → SignType) (z : Nat) (row : Array Edge) (i : Nat) : Prop :=
  ∃ e < row.size, ∃ e' < row.size, e ≠ e' ∧
    s (Workspace.neighbour z row i e) = 0 ∧ s (Workspace.neighbour z row i e') = 0

/-- One of the two is among the others of every edge, and makes their product
zero. -/
theorem Unhelpful.otherSides {s : Nat → SignType} {i : Nat} (h : Unhelpful s z row i) (e : Nat) :
    Workspace.otherSides s z row i e = 0 := by
  obtain ⟨a, ha, b, hb, hne, hsa, hsb⟩ := h
  by_cases hae : a = e
  · exact prod_eq_zero (mem_erase.mpr ⟨fun hbe => hne (hae.trans hbe.symm), mem_range.mpr hb⟩) hsb
  · exact prod_eq_zero (mem_erase.mpr ⟨hae, mem_range.mpr ha⟩) hsa

namespace Knows

variable {s : Nat → SignType}

/-- A visit to an unhelpful check changes no side, since all its messages have
none. -/
theorem updateCheck (hscale : KeepsSide scale) (h : Knows s n w) {i : Nat}
    (hinj : ∀ e < row.size, ∀ e' < row.size,
      Workspace.neighbour z row i e = Workspace.neighbour z row i e' → e = e')
    (hbound : ∀ e < row.size, Workspace.neighbour z row i e < n)
    (hunhelpful : Unhelpful s z row i) :
    Knows s n (Workspace.updateCheck z scale row firstEdge w i) := by
  have hmeets : Workspace.Meets s z row firstEdge w i :=
    ⟨fun e he => h.value _ (hbound e he), fun e _ => h.message _⟩
  refine ⟨by rw [Workspace.size_posterior_updateCheck, h.size], fun v hv => ?_, ?_⟩
  · by_cases hmet : ∃ e < row.size, Workspace.neighbour z row i e = v
    · obtain ⟨e, he, rfl⟩ := hmet
      have hother := hunhelpful.otherSides e
      rw [Workspace.side_updateCheck hscale hinj hmeets he (by rwa [h.size])
        (.inr (.inl hother)), hother]
      split
      · rename_i hs
        rw [hs]
      · rfl
    · rw [Workspace.posterior_updateCheck_of_ne fun e he heq => hmet ⟨e, he, heq⟩]
      exact h.value v hv
  · -- all messages that are written have no side
    rw [Workspace.updateCheck_eq]
    refine Buffer.scatter_induction (fun x => side x = some 0) h.message fun e he => ?_
    rw [Workspace.side_outgoing hscale hmeets he, hunhelpful.otherSides e]

/-- The checks of an unhelpful row change no side, one after the other. -/
theorem visits (hscale : KeepsSide scale) (h : Knows s n w)
    (hinj : ∀ i, ∀ e < row.size, ∀ e' < row.size,
      Workspace.neighbour z row i e = Workspace.neighbour z row i e' → e = e')
    (hbound : ∀ i, ∀ e < row.size, Workspace.neighbour z row i e < n)
    (hunhelpful : ∀ i < z, Unhelpful s z row i) {k : Nat} (hk : k ≤ z) :
    Knows s n (Workspace.visits z scale row firstEdge w k) := by
  induction k with
  | zero => exact h
  | succ k ih =>
    rw [visits_succ]
    exact (ih (Nat.le_of_succ_le hk)).updateCheck hscale (hinj k) (hbound k) (hunhelpful k hk)

/-- A sweep over unhelpful checks changes no side, so no number of sweeps does.
-/
theorem sweep (graph : LiftedGraph) (hscale : KeepsSide scale)
    (h : Knows s graph.variableCount w)
    (hunhelpful : ∀ r < graph.base.rows, ∀ i < graph.liftingSize,
      Unhelpful s graph.liftingSize (graph.edges r) i) :
    Knows s graph.variableCount (w.sweep graph scale) := by
  have hz := graph.liftingSize_pos
  rw [sweep_eq]
  suffices ∀ r ≤ graph.base.rows, Knows s graph.variableCount (rowsSwept graph scale w r).1 from
    this _ (Nat.le_refl _)
  intro r hr
  induction r with
  | zero => exact h
  | succ r ih =>
    rw [rowsSwept_succ, sweepRow, updateRow_eq]
    refine (ih (Nat.le_of_succ_le hr)).visits hscale
      (fun i => Workspace.neighbour_injective hz fun _ _ => graph.edges_injective hr)
      (fun i e he => ?_) (hunhelpful r hr) (Nat.le_refl _)
    rw [Workspace.neighbour_eq he]
    exact Edge.target_lt hz (graph.column_lt hr (Array.getElem_mem he))

end Knows

/-- If the first column and all parity columns have no side, every check is
unhelpful: each row has two edges to these columns. -/
theorem unhelpful_of_erased (graph : LiftedGraph) {s : Nat → SignType}
    (hfirst : ∀ v < graph.liftingSize, s v = 0)
    (hparity : ∀ v, graph.base.messageLength graph.liftingSize ≤ v → s v = 0) {r : Nat}
    (hr : r < graph.base.rows) (i : Nat) : Unhelpful s graph.liftingSize (graph.edges r) i := by
  obtain ⟨e, e', he, he', hne, hcolumn, hcolumn'⟩ := graph.exists_unknown_edges hr
  refine ⟨e, he, e', he', hne, ?_, ?_⟩
  · rw [Workspace.neighbour_eq he]
    rcases hcolumn with h0 | hle
    · refine hfirst _ (Nat.lt_of_lt_of_eq (Edge.target_lt graph.liftingSize_pos (n := 1) ?_) ?_)
      · omega
      · exact Nat.one_mul _
    · exact hparity _ (Edge.le_target hle)
  · rw [Workspace.neighbour_eq he']
    exact hparity _ (Edge.le_target hcolumn')

end Ldpc

end Uplink
