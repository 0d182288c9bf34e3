import Mathlib
import Uplink.Placement
import Uplink.Proofs.Checked

/-!
# The elements of a symbol

Placement moves elements from one state to another. An element's state is what it carries together
with whether it is reserved; a row is described by how many of its elements are in each state.

- `Placement.Cell`, `Row.cell`, `Row.count`: states, and the elements in a state.
- `Placement.Marks`: a mark changes the state of one element.
- `Placement.Row.Marked`: some elements of a row go from one state to another; `Row.marked_foldl`.
- `Row.count_use`: the elements with a use are those in one of two states.
-/

namespace Uplink

namespace Placement

/-- What an element carries, and whether it is reserved. -/
abbrev Cell := ElementUse × Bool

/-- The state of every element at the start. -/
def fresh : Cell := (.sch, false)

namespace Row

/-- The state of element `k`. -/
def cell (row : Row) (k : Nat) : Cell := (row.uses.getD k .harqAck, row.reserved.getD k false)

/-- Number of elements in a state. -/
def count (row : Row) (c : Cell) : Nat :=
  ((Finset.range row.uses.size).filter fun k => row.cell k = c).card

/-- Number of elements of a plain symbol that are as at the start. -/
def free (row : Row) : Nat := if row.plain then row.count fresh else 0

/-- Every element has both a use and a flag. -/
def Even (row : Row) : Prop := row.reserved.size = row.uses.size

theorem card_filter_range (n : Nat) (p : Nat → Prop) [DecidablePred p] :
    ((Finset.range n).filter p).card = ((List.range n).filter fun k => decide (p k)).length := rfl

end Row

/-- A mark changes the state of one element by `f` and nothing else. -/
structure Marks (mark : Row → Nat → Row) (f : Cell → Cell) : Prop where
  symbol : ∀ row k, (mark row k).symbol = row.symbol
  plain : ∀ row k, (mark row k).plain = row.plain
  size : ∀ row k, (mark row k).uses.size = row.uses.size
  even : ∀ row k, row.Even → (mark row k).Even
  cell : ∀ row k j, row.Even → k < row.uses.size →
    (mark row k).cell j = if j = k then f (row.cell j) else row.cell j

/-- Reserving changes the flag of one element. -/
theorem marks_reserve : Marks Row.reserve fun c => (c.1, true) where
  symbol _ _ := rfl
  plain _ _ := rfl
  size _ _ := rfl
  even row k h := by rw [Row.Even, Row.reserve, Array.size_setIfInBounds]; exact h
  cell row k j h hk := by
    rw [Row.cell, Row.reserve]
    simp only [Buffer.getD_setIfInBounds, show row.reserved.size = row.uses.size from h]
    by_cases hj : j = k
    · rw [if_pos ⟨hj.symm, hk⟩, if_pos hj, Row.cell]
    · rw [if_neg fun h => hj h.1.symm, if_neg hj, Row.cell]

/-- Assigning changes the use of one element. -/
theorem marks_assign (use : ElementUse) : Marks (Row.assign use) fun c => (use, c.2) where
  symbol _ _ := rfl
  plain _ _ := rfl
  size row k := by rw [Row.assign, Array.size_setIfInBounds]
  even row k h := by rw [Row.Even, Row.assign, Array.size_setIfInBounds]; exact h
  cell row k j h hk := by
    rw [Row.cell, Row.assign]
    simp only [Buffer.getD_setIfInBounds]
    by_cases hj : j = k
    · rw [if_pos ⟨hj.symm, hk⟩, if_pos hj, Row.cell]
    · rw [if_neg fun h => hj h.1.symm, if_neg hj, Row.cell]

namespace Row

variable {row row' : Row} {c c' : Cell}

/-- `n` elements of a row go from state `c` to state `c'`. -/
structure Marked (c c' : Cell) (n : Nat) (row row' : Row) : Prop where
  symbol : row'.symbol = row.symbol
  plain : row'.plain = row.plain
  size : row'.uses.size = row.uses.size
  even : row'.Even
  cell : ∀ j, row'.cell j = row.cell j ∨ row.plain = true ∧ row.cell j = c ∧ row'.cell j = c'
  count : ∀ x, row'.count x + (if c = x then n else 0) = row.count x + (if c' = x then n else 0)
  /-- Symbols with reference signals hold data only. -/
  plain_of_pos : 0 < n → row.plain = true

theorem Marked.refl (h : row.Even) : Marked c c' 0 row row where
  symbol := rfl
  plain := rfl
  size := rfl
  even := h
  cell _ := .inl rfl
  count x := by rw [ite_self, ite_self]
  plain_of_pos h := absurd h (Nat.lt_irrefl 0)

/-- Marks on different elements act on each of them, and on nothing else of the
row. -/
theorem foldl_marks {mark : Row → Nat → Row} {f : Cell → Cell} (hmark : Marks mark f) :
    ∀ {ks : List Nat} {row : Row}, row.Even → ks.Nodup → (∀ k ∈ ks, k < row.uses.size) →
      (ks.foldl mark row).symbol = row.symbol ∧ (ks.foldl mark row).plain = row.plain ∧
      (ks.foldl mark row).uses.size = row.uses.size ∧ (ks.foldl mark row).Even ∧
      ∀ j, (ks.foldl mark row).cell j = if j ∈ ks then f (row.cell j) else row.cell j
  | [], row, h, _, _ => ⟨rfl, rfl, rfl, h, fun j => (if_neg List.not_mem_nil).symm⟩
  | k :: ks, row, h, hnodup, hlt => by
    obtain ⟨hk, hnodup⟩ := List.nodup_cons.mp hnodup
    have hsize := hmark.size row k
    obtain ⟨h₁, h₂, h₃, h₄, h₅⟩ := foldl_marks hmark (hmark.even row k h) hnodup
      fun i hi => hsize ▸ hlt i (List.mem_cons_of_mem k hi)
    refine ⟨h₁.trans (hmark.symbol row k), h₂.trans (hmark.plain row k), h₃.trans hsize, h₄,
      fun j => ?_⟩
    rw [List.foldl_cons, h₅ j, hmark.cell row k j h (hlt k List.mem_cons_self)]
    by_cases hj : j = k
    · rw [hj, if_neg hk, if_pos rfl, if_pos List.mem_cons_self]
    · simp only [hj, if_false, List.mem_cons, false_or]

/-- Marks on different elements in state `c` move that many elements. Counts are
therefore known without saying which elements they are. -/
theorem marked_foldl {mark : Row → Nat → Row} {f : Cell → Cell} (hmark : Marks mark f)
    {ks : List Nat} (h : row.Even) (hnodup : ks.Nodup)
    (hks : ∀ k ∈ ks, k < row.uses.size ∧ row.cell k = c)
    (hplain : 0 < ks.length → row.plain = true) :
    Marked c (f c) ks.length row (ks.foldl mark row) := by
  obtain ⟨hsymbol, hrow, hsize, heven, hcell⟩ :=
    foldl_marks hmark h hnodup fun k hk => (hks k hk).1
  refine ⟨hsymbol, hrow, hsize, heven, fun j => ?_, fun x => ?_, hplain⟩
  · by_cases hj : j ∈ ks
    · rw [hcell j, if_pos hj, (hks j hj).2]
      exact .inr ⟨hplain (List.length_pos_of_mem hj), rfl, rfl⟩
    · exact .inl (by rw [hcell j, if_neg hj])
  · -- outside `ks` nothing changes, and on `ks` all states are `c` before and `f c` after
    have hsub : ks.toFinset ⊆ Finset.range row.uses.size := fun k hk =>
      Finset.mem_range.mpr (hks k (List.mem_toFinset.mp hk)).1
    have hcard : ks.toFinset.card = ks.length := List.toFinset_card_of_nodup hnodup
    have hon : ∀ (s : Cell) (g : Nat → Cell), (∀ k ∈ ks, g k = s) →
        ∑ k ∈ ks.toFinset, (if g k = x then 1 else 0) = if s = x then ks.length else 0 := by
      intro s g hg
      rw [Finset.sum_congr rfl fun k hk => by rw [hg k (List.mem_toFinset.mp hk)],
        Finset.sum_const, hcard]
      split <;> simp
    have hoff : ∑ k ∈ Finset.range row.uses.size \ ks.toFinset,
          (if (ks.foldl mark row).cell k = x then 1 else 0) =
        ∑ k ∈ Finset.range row.uses.size \ ks.toFinset, (if row.cell k = x then 1 else 0) := by
      refine Finset.sum_congr rfl fun k hk => ?_
      rw [hcell k, if_neg fun hmem => (Finset.mem_sdiff.mp hk).2 (List.mem_toFinset.mpr hmem)]
    rw [count, count, hsize, Finset.card_filter, Finset.card_filter, ← Finset.sum_sdiff hsub,
      ← Finset.sum_sdiff hsub, hoff, hon c row.cell fun k hk => (hks k hk).2,
      hon (f c) (ks.foldl mark row).cell fun k hk => by rw [hcell k, if_pos hk, (hks k hk).2]]
    omega

/-- The elements with a use are reserved or not. -/
theorem count_use (row : Row) (use : ElementUse) :
    row.uses.count use = row.count (use, false) + row.count (use, true) := by
  have hlist : row.uses.toList = (List.range row.uses.size).map (row.uses.getD · .harqAck) := by
    refine List.ext_getElem (by simp) fun k hk hk' => ?_
    rw [List.getElem_map, List.getElem_range, Buffer.getD_of_lt (by simpa using hk)]
    exact Array.getElem_toList _
  have hcount : row.uses.count use =
      ((Finset.range row.uses.size).filter fun k => (row.cell k).1 = use).card := by
    rw [card_filter_range, ← Array.count_toList, hlist, List.count, List.countP_map,
      List.countP_eq_length_filter]
    congr 1
  rw [hcount, count, count, ← Finset.card_union_of_disjoint]
  · congr 1
    ext k
    cases hcell : row.cell k with
    | mk u b => cases b <;> simp [hcell]
  · refine Finset.disjoint_filter.mpr fun k _ h => ?_
    rw [h]
    simp

end Row

end Placement

end Uplink
