import Uplink.Ldpc.LiftedGraph
import Uplink.Proofs.Checked
import Mathlib.Data.List.Nodup

/-!
# The shape of the graphs

What encoding and decoding need to know of a graph. The shifts do not matter, only which columns a
row meets.

- `BaseGraph.matrixRow_eq`: a row is its entries in earlier columns, followed by its own parity
  column.
- `BaseGraph.punctured_row`: the first two rows meet one punctured column each, and beside
  it only columns that are sent among the systematic ones and the first two parity columns.
- `BaseGraph.exists_unknown_entry`: beside its own parity column a row meets another one of parity
  bits, or the first column.
- `LiftedGraph.edges`: the edges of a row, one per column (`edges_injective`).
- `Edge.column_eq_of_target_eq`: edges of different columns never meet the same variable.
-/

namespace Uplink

namespace Ldpc

namespace BaseGraph

variable {g : BaseGraph} {set row : Nat}

/-- The entries of a row in the parity columns before its own. -/
def earlierParity (g : BaseGraph) (set row : Nat) : List Entry :=
  if row < coreRows then
    if row = 0 then [] else [diagonal (g.systematicColumns + row - 1)]
  else
    [⟨g.systematicColumns + row % 4, g.shiftValue set row (g.systematicColumns + row % 4)⟩]

/-- The entries of a row outside its own parity column. -/
def otherEntries (g : BaseGraph) (set row : Nat) : List Entry :=
  g.systematicEntries set row ++ g.earlierParity set row

/-- The parity column of a row is its last entry, behind all others. -/
theorem matrixRow_eq (g : BaseGraph) (set row : Nat) :
    g.matrixRow set row = g.otherEntries set row ++ [diagonal (g.systematicColumns + row)] := by
  simp only [matrixRow, otherEntries, parityEntries, earlierParity]
  split
  · simp
  · simp

theorem mem_systematicEntries {e : Entry} (h : e ∈ g.systematicEntries set row) :
    e.column < g.systematicColumns ∧ g.connected row e.column = true := by
  obtain ⟨column, hc, rfl⟩ := List.mem_map.mp h
  rw [List.mem_filter, List.mem_range] at hc
  exact hc

/-- Parity columns that a row meets before its own belong to earlier rows. -/
theorem mem_earlierParity {e : Entry} (h : e ∈ g.earlierParity set row) :
    g.systematicColumns ≤ e.column ∧ e.column < g.systematicColumns + row := by
  unfold earlierParity at h
  split at h
  · split at h
    · cases h
    · obtain rfl := List.mem_singleton.mp h
      simp only [diagonal]
      omega
  · rename_i hcore
    obtain rfl := List.mem_singleton.mp h
    simp only [coreRows] at hcore
    show g.systematicColumns ≤ g.systematicColumns + row % 4 ∧
      g.systematicColumns + row % 4 < g.systematicColumns + row
    omega

/-- All other columns come before the row's own parity column, so parity bits
can be found row by row. -/
theorem column_lt_of_mem_otherEntries {e : Entry} (h : e ∈ g.otherEntries set row) :
    e.column < g.systematicColumns + row := by
  rcases List.mem_append.mp h with h | h
  · have := (mem_systematicEntries h).1
    omega
  · exact (mem_earlierParity h).2

/-- A row meets no column twice, and so a check no variable. -/
theorem nodup_columns (g : BaseGraph) (set row : Nat) :
    ((g.matrixRow set row).map (·.column)).Nodup := by
  have hsys : ((g.systematicEntries set row).map (·.column)).Nodup := by
    rw [systematicEntries, List.map_map]
    exact (List.nodup_range.filter _).map fun _ _ h => h
  have hpar : ((g.earlierParity set row).map (·.column)).Nodup := by
    unfold earlierParity
    split
    · split <;> simp
    · simp
  rw [matrixRow_eq, otherEntries, List.map_append, List.map_append]
  refine List.Nodup.append (List.Nodup.append hsys hpar ?_) (by simp) ?_
  · -- systematic columns come before the parity columns
    intro c hc hc'
    obtain ⟨e, he, rfl⟩ := List.mem_map.mp hc
    obtain ⟨e', he', heq⟩ := List.mem_map.mp hc'
    have := (mem_systematicEntries he).1
    have := (mem_earlierParity he').1
    omega
  · -- the own parity column comes after all others
    intro c hc hc'
    rw [← List.map_append] at hc
    obtain ⟨e, he, rfl⟩ := List.mem_map.mp hc
    have := column_lt_of_mem_otherEntries he
    have : e.column = g.systematicColumns + row := by simpa [diagonal] using hc'
    omega

/-- Of the punctured columns a row of the first two meets the one of its own
number. -/
theorem connected_punctured (g : BaseGraph) {p c : Nat} (hp : p < puncturedColumns)
    (hc : c < puncturedColumns) : g.connected p c = (c == p) := by
  simp only [puncturedColumns] at hp hc
  have hp' : p = 0 ∨ p = 1 := by omega
  have hc' : c = 0 ∨ c = 1 := by omega
  rcases hp' with rfl | rfl <;> rcases hc' with rfl | rfl <;> rfl

/-- The first two rows meet one punctured column each, and beside it only
columns that are sent among the systematic ones and the first two parity
columns. -/
theorem punctured_row (g : BaseGraph) (set : Nat) {p : Nat} (hp : p < puncturedColumns) :
    (∃ e ∈ g.matrixRow set p, e.column = p) ∧
      ∀ e ∈ g.matrixRow set p, e.column ≠ p →
        puncturedColumns ≤ e.column ∧ e.column < g.systematicColumns + 2 := by
  have hcolumns : puncturedColumns ≤ g.systematicColumns := by cases g <;> decide
  constructor
  · refine ⟨⟨p, g.shiftValue set p p⟩, ?_, rfl⟩
    -- the column of the row's own number is among the systematic ones
    rw [matrixRow_eq, otherEntries]
    refine List.mem_append_left _ (List.mem_append_left _ (List.mem_map.mpr ⟨p, ?_, rfl⟩))
    rw [List.mem_filter, List.mem_range, connected_punctured g hp hp]
    exact ⟨by omega, beq_self_eq_true p⟩
  · intro e he hne
    rw [matrixRow_eq, List.mem_append, List.mem_singleton] at he
    simp only [puncturedColumns] at hp hcolumns ⊢
    rcases he with he | rfl
    · rcases List.mem_append.mp he with he | he
      · -- of the systematic columns only its own is punctured
        obtain ⟨hlt, hcon⟩ := mem_systematicEntries he
        refine ⟨?_, by omega⟩
        by_contra hc
        rw [connected_punctured g hp (by simpa [puncturedColumns] using hc)] at hcon
        exact hne (by simpa using hcon)
      · obtain ⟨hle, hlt⟩ := mem_earlierParity he
        omega
    · simp only [diagonal]
      omega

/-- Beside its own parity column every row meets another one that erased soft
bits say nothing about: the first column, or an earlier parity column. No check
can tell a variable then. -/
theorem exists_unknown_entry (g : BaseGraph) (set row : Nat) :
    ∃ e ∈ g.otherEntries set row, e.column = 0 ∨ g.systematicColumns ≤ e.column := by
  by_cases h0 : row = 0
  · subst h0
    refine ⟨⟨0, g.shiftValue set 0 0⟩, List.mem_append_left _ (List.mem_map.mpr ⟨0, ?_, rfl⟩),
      .inl rfl⟩
    rw [List.mem_filter, List.mem_range]
    exact ⟨by cases g <;> decide, rfl⟩
  · -- only the first row has no parity column before its own
    have hne : g.earlierParity set row ≠ [] := by
      unfold earlierParity
      rw [if_neg h0]
      split <;> exact List.cons_ne_nil _ _
    obtain ⟨e, he⟩ := List.exists_mem_of_ne_nil _ hne
    exact ⟨e, List.mem_append_right _ he, .inr (mem_earlierParity he).1⟩

end BaseGraph

/-! ## Lifting -/

theorem liftingSet_eq_ok {z set : Nat} (h : liftingSet z = .ok set) : z ∈ liftingSizes := by
  rw [liftingSet, bind_eq_ok] at h
  obtain ⟨u, hu, -⟩ := h
  simpa using require_eq_ok.mp hu

theorem liftingSize_pos {z : Nat} (h : z ∈ liftingSizes) : 0 < z :=
  (by decide : ∀ z ∈ liftingSizes, 0 < z) z h

theorem le_of_mem_liftingSizes {z : Nat} (h : z ∈ liftingSizes) : z ≤ 384 :=
  (by decide : ∀ z ∈ liftingSizes, z ≤ 384) z h

/-- The longest message and the longest sent word, at the largest lifting size.
-/
theorem BaseGraph.lengths_le (g : BaseGraph) {z : Nat} (h : z ∈ liftingSizes) :
    g.messageLength z ≤ 8448 ∧ g.sentLength z ≤ 25344 := by
  have hz := le_of_mem_liftingSizes h
  rw [messageLength, sentLength, columns, puncturedColumns]
  cases g with
  | one =>
    simp only [systematicColumns, rows]
    omega
  | two =>
    simp only [systematicColumns, rows]
    omega

/-- All lengths of a graph are machine sizes. -/
theorem BaseGraph.lengths_lt_limit (g : BaseGraph) {z : Nat} (h : z ∈ liftingSizes) :
    g.messageLength z < Size.limit ∧ g.sentLength z < Size.limit := by
  obtain ⟨hmessage, hsent⟩ := g.lengths_le h
  have hlimit : 25344 < Size.limit := by decide
  exact ⟨by omega, by omega⟩

namespace Edge

theorem target_lt {edge : Edge} {z n i : Nat} (hz : 0 < z) (h : edge.column < n) :
    edge.target z i < n * z := by
  have hmod := Nat.mod_lt (i + edge.shift) hz
  have := Nat.mul_le_mul_right z (Nat.succ_le_of_lt h)
  rw [Nat.succ_mul] at this
  rw [target]
  omega

theorem le_target {edge : Edge} {z n i : Nat} (h : n ≤ edge.column) :
    n * z ≤ edge.target z i :=
  Nat.le_trans (Nat.mul_le_mul_right z h) (Nat.le_add_right _ _)

/-- The column is read back from the variable. -/
theorem target_div (edge : Edge) {z : Nat} (hz : 0 < z) (i : Nat) :
    edge.target z i / z = edge.column := by
  rw [target, Nat.mul_comm, Nat.mul_add_div hz, Nat.div_eq_of_lt (Nat.mod_lt _ hz), Nat.add_zero]

theorem column_eq_of_target_eq {a b : Edge} {z i j : Nat} (hz : 0 < z)
    (h : a.target z i = b.target z j) : a.column = b.column := by
  rw [← target_div a hz i, h, target_div b hz j]

/-- Every variable of its column is met by some check of the row: the shift is
undone around the column. -/
theorem exists_target (edge : Edge) {z j : Nat} (hj : j < z) :
    ∃ i < z, edge.target z i = edge.column * z + j := by
  have hz : 0 < z := by omega
  -- the check that comes to `j` once it is shifted
  refine ⟨(j + (z - edge.shift % z)) % z, Nat.mod_lt _ hz, ?_⟩
  have hshift := Nat.mod_lt edge.shift hz
  rw [target, Nat.mod_add_mod, ← Nat.add_mod_mod]
  congr 1
  rw [show j + (z - edge.shift % z) + edge.shift % z = j + z by omega, Nat.add_mod_right,
    Nat.mod_eq_of_lt hj]

end Edge

namespace LiftedGraph

variable (graph : LiftedGraph)

theorem liftingSize_mem : graph.liftingSize ∈ liftingSizes := liftingSet_eq_ok graph.set_eq

theorem liftingSize_pos : 0 < graph.liftingSize := Ldpc.liftingSize_pos graph.liftingSize_mem

/-- A graph is known by its base graph and its lifting size, as everything else
of it is found from these. -/
theorem eq_of_size {graph graph' : LiftedGraph} (hbase : graph.base = graph'.base)
    (hz : graph.liftingSize = graph'.liftingSize) : graph = graph' := by
  obtain ⟨base, z, set, rows, hset, hrows⟩ := graph
  obtain ⟨base', z', set', rows', hset', hrows'⟩ := graph'
  dsimp only at hbase hz
  subst hbase hz
  obtain rfl : set = set' := Except.ok.inj (hset.symm.trans hset')
  subst hrows hrows'
  rfl

/-- The edges of row `r`. -/
def edges (r : Nat) : Array Edge := graph.rows.getD r #[]

theorem size_rows : graph.rows.size = graph.base.rows := by
  simp [graph.rows_eq, liftRows, BaseGraph.matrix]

theorem edges_eq {r : Nat} (h : r < graph.base.rows) :
    graph.edges r = ((graph.base.matrixRow graph.set r).map fun entry =>
      (⟨entry.column, entry.value % graph.liftingSize⟩ : Edge)).toArray := by
  simp [edges, graph.rows_eq, liftRows, BaseGraph.matrix, Array.getD, h]

theorem rows_eq_map : graph.rows.toList = (List.range graph.base.rows).map graph.edges := by
  apply List.ext_getElem
  · simp [graph.size_rows]
  · intro r h₁ h₂
    simp at h₁
    simp [edges, Array.getD, h₁]

/-- The edges outside the row's own parity column. -/
def otherEdges (r : Nat) : List Edge :=
  (graph.base.otherEntries graph.set r).map fun entry =>
    ⟨entry.column, entry.value % graph.liftingSize⟩

/-- The edge of the row's own parity column. -/
def parityEdge (r : Nat) : Edge := ⟨graph.base.systematicColumns + r, 0⟩

theorem toList_edges {r : Nat} (h : r < graph.base.rows) :
    (graph.edges r).toList = graph.otherEdges r ++ [graph.parityEdge r] := by
  rw [edges_eq graph h, BaseGraph.matrixRow_eq]
  simp [otherEdges, parityEdge, BaseGraph.diagonal]

theorem column_lt_of_mem_otherEdges {r : Nat} {edge : Edge} (h : edge ∈ graph.otherEdges r) :
    edge.column < graph.base.systematicColumns + r := by
  obtain ⟨e, he, rfl⟩ := List.mem_map.mp h
  exact BaseGraph.column_lt_of_mem_otherEntries he

/-- A row meets no column twice. -/
theorem edges_injective {r : Nat} (h : r < graph.base.rows) {e e' : Nat}
    (he : e < (graph.edges r).size) (he' : e' < (graph.edges r).size)
    (heq : (graph.edges r)[e].column = (graph.edges r)[e'].column) : e = e' := by
  have hnodup := BaseGraph.nodup_columns graph.base graph.set r
  have hcolumns : (graph.base.matrixRow graph.set r).map (·.column) =
      (graph.edges r).toList.map (·.column) := by
    rw [edges_eq graph h]
    simp
  rw [hcolumns] at hnodup
  have := @List.nodup_iff_injective_getElem.mp hnodup ⟨e, by simpa using he⟩
    ⟨e', by simpa using he'⟩ (by simpa using heq)
  simpa using this

/-- An edge meets a variable of the word. -/
theorem column_lt {r : Nat} (h : r < graph.base.rows) {edge : Edge} (he : edge ∈ graph.edges r) :
    edge.column < graph.base.columns := by
  rw [← Array.mem_toList_iff, toList_edges graph h, List.mem_append, List.mem_singleton] at he
  rw [BaseGraph.columns]
  rcases he with he | rfl
  · have := graph.column_lt_of_mem_otherEdges he
    omega
  · simp only [parityEdge]
    omega

/-- The first two rows meet one punctured column each, and beside it only
columns that are sent among the systematic ones and the first two parity
columns. -/
theorem punctured_row {r : Nat} (h : r < puncturedColumns) :
    (∃ edge ∈ graph.edges r, edge.column = r) ∧
      ∀ edge ∈ graph.edges r, edge.column ≠ r →
        puncturedColumns ≤ edge.column ∧ edge.column < graph.base.systematicColumns + 2 := by
  have hr : r < graph.base.rows := Nat.lt_of_lt_of_le h (by cases graph.base <;> decide)
  rw [edges_eq graph hr]
  obtain ⟨⟨e, he, hcol⟩, hothers⟩ := graph.base.punctured_row graph.set h
  constructor
  · exact ⟨⟨e.column, e.value % graph.liftingSize⟩, by simpa using ⟨e, he, rfl, rfl⟩, hcol⟩
  · intro edge hedge hne
    obtain ⟨e, he, rfl⟩ := List.mem_map.mp (List.mem_toArray.mp hedge)
    exact hothers e he hne

/-- Every row has two edges to columns that erased soft bits say nothing about.
One of them is its own parity column. -/
theorem exists_unknown_edges {r : Nat} (h : r < graph.base.rows) :
    ∃ (e e' : Nat) (he : e < (graph.edges r).size) (he' : e' < (graph.edges r).size), e ≠ e' ∧
      ((graph.edges r)[e].column = 0 ∨
        graph.base.systematicColumns ≤ (graph.edges r)[e].column) ∧
      graph.base.systematicColumns ≤ (graph.edges r)[e'].column := by
  have hrow : graph.edges r = (graph.otherEdges r ++ [graph.parityEdge r]).toArray :=
    Array.toList_inj.mp (graph.toList_edges h)
  -- one of the other edges, and the parity edge at the end of the row
  obtain ⟨entry, hentry, hcolumn⟩ := graph.base.exists_unknown_entry graph.set r
  obtain ⟨e, he, hget⟩ := List.getElem_of_mem
    (List.mem_map_of_mem (f := fun entry : Entry =>
      (⟨entry.column, entry.value % graph.liftingSize⟩ : Edge)) hentry)
  change e < (graph.otherEdges r).length at he
  change (graph.otherEdges r)[e] = _ at hget
  simp only [hrow, List.size_toArray, List.length_append, List.length_singleton,
    List.getElem_toArray]
  refine ⟨e, (graph.otherEdges r).length, by omega, by omega, by omega, ?_, ?_⟩
  · rw [List.getElem_append_left he, hget]
    exact hcolumn
  · rw [List.getElem_append_right (Nat.le_refl _)]
    simp [parityEdge]

/-- A graph that is built has the size that was asked for. -/
theorem build_eq_ok {base : BaseGraph} {z : Nat} {graph : LiftedGraph}
    (h : build base z = .ok graph) : graph.base = base ∧ graph.liftingSize = z := by
  unfold build at h
  split at h
  · cases h
    exact ⟨rfl, rfl⟩
  · cases h

/-- A graph of an admitted size can be built; only the choice of its set can
fail. -/
theorem exists_build (base : BaseGraph) {z : Nat} (hz : z ∈ liftingSizes) :
    ∃ graph, build base z = .ok graph := by
  have hset : liftingSet z = .ok (liftingGenerators.findIdx (isDoublingOf z)) := by
    rw [liftingSet, require_of (by simpa using hz)]
    rfl
  unfold build
  split
  · exact ⟨_, rfl⟩
  · rename_i fault hfault
    rw [hset] at hfault
    cases hfault

end LiftedGraph

/-! ## Graphs that were built before -/

namespace GraphStore

/-- A fetched graph has the size that was asked for, whether it was kept or has
just been built. -/
theorem fetch_eq_ok {store store' : GraphStore} {base : BaseGraph} {z : Nat} {graph : LiftedGraph}
    (h : store.fetch base z = .ok (graph, store')) :
    graph.base = base ∧ graph.liftingSize = z := by
  unfold fetch at h
  split at h
  · -- a graph that was built before is found by its sizes
    rename_i found hfound
    have := List.find?_some hfound
    obtain rfl : found = graph := by
      have := Except.ok.inj h
      exact congrArg Prod.fst this
    simpa using this
  · rw [bind_eq_ok] at h
    obtain ⟨built, hbuilt, h⟩ := h
    obtain rfl : built = graph := congrArg Prod.fst (Except.ok.inj h)
    exact LiftedGraph.build_eq_ok hbuilt

/-- A graph of an admitted size can always be fetched, whatever is kept. -/
theorem exists_fetch (store : GraphStore) (base : BaseGraph) {z : Nat} (hz : z ∈ liftingSizes) :
    ∃ graph store', store.fetch base z = .ok (graph, store') := by
  unfold fetch
  split
  · exact ⟨_, _, rfl⟩
  · obtain ⟨graph, hbuild⟩ := LiftedGraph.exists_build base hz
    rw [hbuild]
    exact ⟨_, _, rfl⟩

/-- A graph that exists is what a fetch of its size finds, so what is kept never
makes a difference. -/
theorem fetch_of_graph (store : GraphStore) (graph : LiftedGraph) :
    ∃ store', store.fetch graph.base graph.liftingSize = .ok (graph, store') := by
  obtain ⟨graph', store', hfetch⟩ := store.exists_fetch graph.base graph.liftingSize_mem
  obtain ⟨hbase, hz⟩ := fetch_eq_ok hfetch
  obtain rfl : graph' = graph := LiftedGraph.eq_of_size hbase hz
  exact ⟨store', hfetch⟩

/-- There is a graph of every admitted size. -/
theorem exists_graph (base : BaseGraph) {z : Nat} (hz : z ∈ liftingSizes) :
    ∃ graph : LiftedGraph, graph.base = base ∧ graph.liftingSize = z := by
  obtain ⟨graph, store', hfetch⟩ := empty.exists_fetch base hz
  exact ⟨graph, fetch_eq_ok hfetch⟩

end GraphStore

end Ldpc

end Uplink
