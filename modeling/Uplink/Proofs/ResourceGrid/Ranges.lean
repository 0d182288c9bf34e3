import Mathlib.Data.Nat.Find
import Uplink.Proofs.ResourceGrid

/-!
# Two ways of reading a range

A range of a grid can be checked and read as one, or read element by element, each element checked
when its turn comes.

- `ResourceGrid.readEach_of_contains`, `readEach_of_not_contains`: the elements one after the other,
  up to the first one outside the grid.
- `ResourceGrid.readRange_readEach`: both ways read the same elements or fail; only an empty range
  outside the grid is refused by the one and read by the other.
-/

namespace Uplink

namespace ResourceGrid

variable {grid : ResourceGrid} {length port symbol start i k : Nat}

/-- The text of a range that does not lie in the grid. -/
def rangeText (grid : ResourceGrid) (length port symbol start : Nat) : String :=
  s!"Range read ({port}, {symbol}, {start}..{start + length}) out of grid bounds {grid.extent}"

/-- The text of an element that does not lie in the grid. -/
def elementText (grid : ResourceGrid) (port symbol k : Nat) : String :=
  s!"Resource element ({port}, {symbol}, {k}) out of grid bounds {grid.extent}"

/-- Reading an element outside the grid fails with the coordinates of the
element. -/
theorem element_of_not_contains (h : ¬ grid.Contains port symbol k) :
    grid.element port symbol k = .error (.requirement (grid.elementText port symbol k)) := by
  rw [element, decide_eq_false h, require_false]
  rfl

/-! ## Reading a range as one -/

/-- Reading a range as one fails if its last element lies outside, with the
coordinates of the range. -/
theorem readRange_of_not_spans (hlimit : start + length < Size.limit)
    (h : ¬ grid.Spans (start + length) port symbol) :
    grid.readRange length port symbol start =
      .error (.requirement (grid.rangeText length port symbol start)) := by
  rw [readRange, Size.add_of_lt hlimit, ok_bind]
  cases hcheck : grid.checkRange port symbol start (start + length) with
  | error e => rfl
  | ok _ => exact absurd (checkRange_eq_ok_iff.mp hcheck) h

/-! ## Reading element by element -/

theorem readEach_zero : grid.readEach 0 port symbol start = .ok #[] := rfl

/-- The last element is read after the others, so the first one outside is the
one that is reported. -/
theorem readEach_succ (length : Nat) : grid.readEach (length + 1) port symbol start = (do
    let values ← grid.readEach length port symbol start
    let k ← Size.add start length
    let x ← grid.element port symbol k
    return values.push x) := by
  rw [readEach, List.range_succ, List.foldlM_append]
  simp only [List.foldlM_cons, List.foldlM_nil, bind_pure]
  rfl

/-- Element by element, only the elements themselves must lie in the grid. -/
theorem readEach_of_contains (hlimit : start + length < Size.limit)
    (h : ∀ i < length, grid.Contains port symbol (start + i)) :
    grid.readEach length port symbol start =
      .ok (Array.ofFn fun i : Fin length => grid.elementD port symbol (start + i)) := by
  induction length with
  | zero => exact readEach_zero.trans (congrArg _ Array.ofFn_zero.symm)
  | succ length ih =>
    rw [readEach_succ, ih (by omega) fun i hi => h i (by omega), ok_bind,
      Size.add_of_lt (by omega), ok_bind, element_of_contains (h length (Nat.lt_succ_self _)),
      ok_bind, Array.ofFn_succ]
    rfl

/-- The first element outside the grid ends the reading, whatever comes after
it. -/
theorem readEach_of_not_contains (hlimit : start + length < Size.limit) (hi : i < length)
    (hbefore : ∀ j < i, grid.Contains port symbol (start + j))
    (h : ¬ grid.Contains port symbol (start + i)) :
    grid.readEach length port symbol start =
      .error (.requirement (grid.elementText port symbol (start + i))) := by
  induction length with
  | zero => exact absurd hi (Nat.not_lt_zero _)
  | succ length ih =>
    rw [readEach_succ]
    rcases Nat.lt_or_eq_of_le (Nat.le_of_lt_succ hi) with hearlier | rfl
    · rw [ih (by omega) hearlier]
      rfl
    · rw [readEach_of_contains (by omega) hbefore, ok_bind, Size.add_of_lt (by omega), ok_bind,
        element_of_not_contains h]
      rfl

/-! ## Both ways -/

/-- A range that is not empty lies in the grid if its last element does. -/
theorem spans_of_contains (h : ∀ i < length, grid.Contains port symbol (start + i))
    (hpos : 0 < length) : grid.Spans (start + length) port symbol := by
  obtain ⟨hport, hsymbol, hlast⟩ := h (length - 1) (by omega)
  exact ⟨hport, hsymbol, by omega⟩

/-- A range that is not empty and does not lie in the grid has a first element
outside. -/
theorem exists_first_outside (hpos : 0 < length)
    (h : ¬ grid.Spans (start + length) port symbol) :
    ∃ i < length, ¬ grid.Contains port symbol (start + i) ∧
      ∀ j < i, grid.Contains port symbol (start + j) := by
  have hexists : ∃ i, i < length ∧ ¬ grid.Contains port symbol (start + i) := by
    by_contra hnone
    refine h (spans_of_contains (fun i hi => ?_) hpos)
    by_contra hout
    exact hnone ⟨i, hi, hout⟩
  obtain ⟨hlt, hout⟩ := Nat.find_spec hexists
  refine ⟨Nat.find hexists, hlt, hout, fun j hj => ?_⟩
  by_contra hout'
  exact Nat.find_min hexists hj ⟨Nat.lt_trans hj hlt, hout'⟩

/-- A range in the grid is read alike both ways. Outside the grid both ways
fail, each with its own text, unless there is nothing to read: an empty range is
still checked as one, and never element by element. -/
theorem readRange_readEach (grid : ResourceGrid) (length port symbol start : Nat)
    (hlimit : start + length < Size.limit) :
    (grid.Spans (start + length) port symbol → ∃ values : Array Complex,
      grid.readRange length port symbol start = .ok values ∧
      grid.readEach length port symbol start = .ok values ∧ values.size = length ∧
      ∀ i < length, ∃ x, grid.element port symbol (start + i) = .ok x ∧ values[i]? = some x) ∧
    (¬ grid.Spans (start + length) port symbol → 0 < length →
      grid.readRange length port symbol start =
        .error (.requirement (grid.rangeText length port symbol start)) ∧
      ∃ i < length, ¬ grid.Contains port symbol (start + i) ∧
        (∀ j < i, grid.Contains port symbol (start + j)) ∧
        grid.readEach length port symbol start =
          .error (.requirement (grid.elementText port symbol (start + i)))) ∧
    (¬ grid.Spans (start + length) port symbol → length = 0 →
      grid.readRange length port symbol start =
        .error (.requirement (grid.rangeText length port symbol start)) ∧
      grid.readEach length port symbol start = .ok #[]) := by
  refine ⟨fun hin => ?_, fun hout hpos => ?_, fun hout hempty => ?_⟩
  · have hcontains : ∀ i < length, grid.Contains port symbol (start + i) :=
      fun i hi => hin.contains (Nat.add_lt_add_left hi _)
    refine ⟨_, readRange_of_spans hlimit hin, readEach_of_contains hlimit hcontains, by simp,
      fun i hi => ⟨_, element_of_contains (hcontains i hi), ?_⟩⟩
    rw [Array.getElem?_ofFn, dif_pos hi]
  · obtain ⟨i, hi, hfirst, hbefore⟩ := exists_first_outside hpos hout
    exact ⟨readRange_of_not_spans hlimit hout, i, hi, hfirst, hbefore,
      readEach_of_not_contains hlimit hi hbefore hfirst⟩
  · subst hempty
    exact ⟨readRange_of_not_spans hlimit hout, readEach_zero⟩

/-- A range that runs over the edge of a grid of twelve subcarriers. -/
theorem readRange_readEach_over_edge :
    (∃ text, (zeros 1 2 1).readRange 3 0 1 10 = .error (.requirement text)) ∧
      (zeros 1 2 1).readEach 3 0 1 10 =
        .error (.requirement ((zeros 1 2 1).elementText 0 1 12)) := by
  obtain ⟨-, hout, -⟩ := readRange_readEach (zeros 1 2 1) 3 0 1 10 (by decide)
  obtain ⟨hrange, i, hi, hfirst, hbefore, heach⟩ := hout (by decide) (by decide)
  obtain rfl : i = 2 := by
    rcases i with _ | _ | _ | i
    · exact absurd (by decide) hfirst
    · exact absurd (by decide) hfirst
    · rfl
    · omega
  exact ⟨⟨_, hrange⟩, heach⟩

/-- Nothing can be read element by element from a place where nothing can be
read as one. -/
theorem readEach_empty_outside :
    (zeros 1 2 1).readEach 0 0 0 13 = .ok #[] ∧
      (zeros 1 2 1).readRange 0 0 0 13 =
        .error (.requirement "Range read (0, 0, 13..13) out of grid bounds (1, 2, 12)") :=
  ⟨readEach_zero, readRange_of_not_spans (by decide) (by decide)⟩

end ResourceGrid

end Uplink
