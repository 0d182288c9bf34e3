import Uplink.Proofs.Checked
import Uplink.ResourceGrid

/-!
# Elements of a grid

A grid is an array over ports, symbols and subcarriers: a row that is written shows on its own port,
symbol and subcarriers and nowhere else, and every way of reading finds the elements there.

- `ResourceGrid.SameExtent`, `ResourceGrid.Spans`: the dimensions, and rows within them.
- `ResourceGrid.elementD_overwrite`: what a row changes of a grid.
- `ResourceGrid.checkRange_eq_ok_iff`, `write_of_spans`: a row is written exactly if it lies in the
  grid.
- `ResourceGrid.readRange_of_spans`, `readMasked_of_contains`: what is read of a row.
-/

namespace Uplink

/-- A buffer that is written up to a place is what was written and the rest of
what it held. -/
theorem Buffer.setIfInBounds_append_extract {α : Type*} {done buffer : Array α}
    (h : done.size < buffer.size) (x : α) :
    (done ++ buffer.extract done.size buffer.size).setIfInBounds done.size x =
      done.push x ++ buffer.extract (done.size + 1) buffer.size := by
  refine Array.ext ?_ fun i hi hi' => ?_
  · simp only [Array.size_setIfInBounds, Array.size_append, Array.size_extract, Array.size_push]
    omega
  · rw [Array.size_setIfInBounds] at hi
    rw [Array.getElem_setIfInBounds hi]
    simp only [Array.getElem_append, Array.getElem_push, Array.getElem_extract, Array.size_push]
    rcases Nat.lt_trichotomy i done.size with hlt | rfl | hgt
    · rw [if_neg (by omega), dif_pos hlt, dif_pos (by omega), dif_pos hlt]
    · rw [if_pos rfl, dif_pos (by omega), dif_neg (by omega)]
    · rw [if_neg (by omega), dif_neg (by omega), dif_neg (by omega)]
      congr 1
      omega

namespace ResourceGrid

variable {grid grid' grid'' : ResourceGrid} {n port symbol start k : Nat} {values : Array Complex}

/-! ## Extents -/

/-- Two grids have the same ports, symbols and blocks. -/
structure SameExtent (grid' grid : ResourceGrid) : Prop where
  ports_eq : grid'.ports = grid.ports
  symbols_eq : grid'.symbols = grid.symbols
  blocks_eq : grid'.blocks = grid.blocks

/-- The first `n` subcarriers of a port and symbol lie in the grid. -/
structure Spans (grid : ResourceGrid) (n port symbol : Nat) : Prop where
  port_lt : port < grid.ports
  symbol_lt : symbol < grid.symbols
  length_le : n ≤ grid.subcarriers

theorem Spans.contains (h : grid.Spans n port symbol) (hk : k < n) :
    grid.Contains port symbol k := ⟨h.port_lt, h.symbol_lt, Nat.lt_of_lt_of_le hk h.length_le⟩

instance (grid : ResourceGrid) (n port symbol : Nat) : Decidable (grid.Spans n port symbol) :=
  decidable_of_iff (port < grid.ports ∧ symbol < grid.symbols ∧ n ≤ grid.subcarriers)
    ⟨fun h => ⟨h.1, h.2.1, h.2.2⟩, fun h => ⟨h.port_lt, h.symbol_lt, h.length_le⟩⟩

namespace SameExtent

theorem refl (grid : ResourceGrid) : grid.SameExtent grid := ⟨rfl, rfl, rfl⟩

theorem clear (grid : ResourceGrid) : grid.clear.SameExtent grid := ⟨rfl, rfl, rfl⟩

theorem overwrite (grid : ResourceGrid) (port symbol start : Nat) (values : Array Complex) :
    (grid.overwrite port symbol start values).SameExtent grid := ⟨rfl, rfl, rfl⟩

theorem trans (h : grid''.SameExtent grid') (h' : grid'.SameExtent grid) :
    grid''.SameExtent grid :=
  ⟨h.ports_eq.trans h'.ports_eq, h.symbols_eq.trans h'.symbols_eq,
    h.blocks_eq.trans h'.blocks_eq⟩

theorem subcarriers_eq (h : grid'.SameExtent grid) : grid'.subcarriers = grid.subcarriers :=
  congrArg (· * subcarriersPerBlock) h.blocks_eq

theorem contains (h : grid'.SameExtent grid) :
    grid'.Contains port symbol k ↔ grid.Contains port symbol k := by
  rw [Contains, Contains, h.ports_eq, h.symbols_eq, h.subcarriers_eq]

theorem spans (h : grid'.SameExtent grid) :
    grid'.Spans n port symbol ↔ grid.Spans n port symbol := by
  constructor
  · rintro ⟨hport, hsymbol, hlength⟩
    exact ⟨h.ports_eq ▸ hport, h.symbols_eq ▸ hsymbol, h.subcarriers_eq ▸ hlength⟩
  · rintro ⟨hport, hsymbol, hlength⟩
    exact ⟨h.ports_eq ▸ hport, h.symbols_eq ▸ hsymbol, h.subcarriers_eq ▸ hlength⟩

end SameExtent

/-! ## Writing -/

/-- An element of the grid is stored within the buffer. -/
theorem index_lt (h : grid.Contains port symbol k) :
    grid.index port symbol k < grid.elements.size := by
  obtain ⟨hport, hsymbol, hk⟩ := h
  have hrow : port * grid.symbols + symbol + 1 ≤ grid.ports * grid.symbols := by
    calc port * grid.symbols + symbol + 1 ≤ port * grid.symbols + grid.symbols := by omega
      _ = (port + 1) * grid.symbols := (Nat.succ_mul _ _).symm
      _ ≤ grid.ports * grid.symbols := Nat.mul_le_mul_right _ hport
  calc grid.index port symbol k
      < (port * grid.symbols + symbol) * grid.subcarriers + grid.subcarriers :=
        Nat.add_lt_add_left hk _
    _ = (port * grid.symbols + symbol + 1) * grid.subcarriers := (Nat.succ_mul _ _).symm
    _ ≤ grid.ports * grid.symbols * grid.subcarriers := Nat.mul_le_mul_right _ hrow
    _ = grid.elements.size := grid.size_eq.symm

/-- Rows start at multiples of their length, so a place within one row is in no
other. -/
theorem row_eq {a b n i size : Nat} (hi : i < n) (hsize : size ≤ n)
    (h : a * n ≤ b * n + i ∧ b * n + i < a * n + size) : a = b ∧ i < size := by
  have hle : a < b + 1 := by
    refine Nat.lt_of_mul_lt_mul_right (a := n) ?_
    rw [Nat.succ_mul]
    omega
  have hge : b < a + 1 := by
    refine Nat.lt_of_mul_lt_mul_right (a := n) ?_
    rw [Nat.succ_mul]
    omega
  obtain rfl : a = b := by omega
  exact ⟨rfl, by omega⟩

/-- A row is written to its port and symbol, from its first subcarrier on, and
every other element keeps its value. -/
theorem elementD_overwrite {port' symbol' k' : Nat} (h : grid.Contains port' symbol' k')
    (hsymbol : symbol < grid.symbols) (hsize : start + values.size ≤ grid.subcarriers) :
    (grid.overwrite port symbol start values).elementD port' symbol' k' =
      if port = port' ∧ symbol = symbol' ∧ start ≤ k' ∧ k' < start + values.size then
        values.getD (k' - start) Complex.zero
      else grid.elementD port' symbol' k' := by
  show (Buffer.overwrite grid.elements (grid.index port symbol start) values).getD
    (grid.index port' symbol' k') Complex.zero = _
  rw [Buffer.getD_overwrite _ (index_lt h)]
  have hfirst : grid.index port symbol start = grid.index port symbol 0 + start := rfl
  by_cases hplace : port = port' ∧ symbol = symbol' ∧ start ≤ k' ∧ k' < start + values.size
  · obtain ⟨rfl, rfl, hk⟩ := hplace
    have hplace : grid.index port symbol k' = grid.index port symbol 0 + k' := rfl
    rw [if_pos (by omega), if_pos ⟨rfl, rfl, hk⟩, hplace, hfirst, Nat.add_sub_add_left]
  · rw [if_neg hplace, if_neg]
    · rfl
    · -- the same place in the buffer is the same row and port
      intro hin
      obtain ⟨hrow, hk⟩ := row_eq h.2.2 hsize
        (show (port * grid.symbols + symbol) * grid.subcarriers ≤
            (port' * grid.symbols + symbol') * grid.subcarriers + k' ∧
          (port' * grid.symbols + symbol') * grid.subcarriers + k' <
            (port * grid.symbols + symbol) * grid.subcarriers + (start + values.size) by
          simp only [index] at hin
          omega)
      obtain ⟨hport, -⟩ := row_eq h.2.1 (Nat.le_refl _)
        (show port * grid.symbols ≤ port' * grid.symbols + symbol' ∧
          port' * grid.symbols + symbol' < port * grid.symbols + grid.symbols by omega)
      subst hport
      obtain rfl : symbol = symbol' := by omega
      simp only [index] at hin
      exact hplace ⟨rfl, rfl, by omega, hk⟩

/-- A range is accepted exactly if it lies in the grid: port, symbol and last
subcarrier are tested. -/
theorem checkRange_eq_ok_iff {stop : Nat} :
    grid.checkRange port symbol start stop = .ok () ↔ grid.Spans stop port symbol := by
  unfold checkRange
  constructor
  · intro h
    split at h
    case isTrue => cases h
    case isFalse hport =>
      split at h
      case isTrue => cases h
      case isFalse hsymbol =>
        split at h
        case isTrue => cases h
        case isFalse hstop => exact ⟨by omega, by omega, by omega⟩
  · rintro ⟨hport, hsymbol, hstop⟩
    rw [if_neg (by omega), if_neg (by omega), if_neg (by omega)]

/-- A row of the grid is written, if it lies in the grid. -/
theorem write_of_spans (hlimit : start + values.size < Size.limit)
    (h : grid.Spans (start + values.size) port symbol) :
    grid.write port symbol start values = .ok (.ok (grid.overwrite port symbol start values)) := by
  rw [write, Size.add_of_lt hlimit, ok_bind, checkRange_eq_ok_iff.mpr h]
  rfl

/-- Only a row of the grid is written, and nothing else of the grid changes. -/
theorem write_eq_ok (h : grid.write port symbol start values = .ok (.ok grid')) :
    start + values.size < Size.limit ∧ grid.Spans (start + values.size) port symbol ∧
      grid' = grid.overwrite port symbol start values := by
  obtain ⟨stop, hstop, h⟩ := bind_eq_ok.mp h
  obtain ⟨hlimit, rfl⟩ := Size.add_eq_ok.mp hstop
  cases hrange : grid.checkRange port symbol start (start + values.size) with
  | error e =>
    rw [hrange] at h
    cases h
  | ok _ =>
    rw [hrange] at h
    cases h
    exact ⟨hlimit, checkRange_eq_ok_iff.mp hrange, rfl⟩

/-! ## Reading -/

theorem element_of_contains (h : grid.Contains port symbol k) :
    grid.element port symbol k = .ok (grid.elementD port symbol k) := by
  rw [element, require_of (decide_eq_true h)]
  rfl

/-- A range of the grid is read, element by element. -/
theorem readRange_of_spans {length : Nat} (hlimit : start + length < Size.limit)
    (h : grid.Spans (start + length) port symbol) :
    grid.readRange length port symbol start =
      .ok (Array.ofFn fun i : Fin length => grid.elementD port symbol (start + i)) := by
  rw [readRange, Size.add_of_lt hlimit, ok_bind, checkRange_eq_ok_iff.mpr h]
  rfl

/-- The subcarriers that a mask selects, in increasing order. -/
def selected (mask : Array Bool) : List Nat := (List.range mask.size).filter (mask.getD · false)

/-- The selected elements are packed to the front of a buffer, and its rest
stays. Elements that are not selected are never looked at. -/
theorem readMasked_of_contains {mask : Array Bool} {buffer : Array Complex}
    (h : ∀ k ∈ selected mask, grid.Contains port symbol (start + k) ∧ start + k < Size.limit)
    (hbuffer : (selected mask).length ≤ buffer.size) :
    grid.readMasked buffer port symbol start mask =
      .ok ((selected mask).length,
        ((selected mask).map fun k => grid.elementD port symbol (start + k)).toArray ++
          buffer.extract (selected mask).length buffer.size) := by
  obtain ⟨⟨count, read⟩, hread, rfl, rfl⟩ := foldlM_total
    (f := fun (x : Nat × Array Complex) k =>
      if mask.getD k false then do
        let subcarrier ← Size.add start k
        let y ← grid.element port symbol subcarrier
        return (x.1 + 1, ← Buffer.write x.2 x.1 y)
      else return (x.1, x.2)) (l := List.range mask.size) (b := (0, buffer))
    (fun seen (state : Nat × Array Complex) =>
      state.1 = (seen.filter (mask.getD · false)).length ∧
        state.2 = ((seen.filter (mask.getD · false)).map
            fun k => grid.elementD port symbol (start + k)).toArray ++
          buffer.extract (seen.filter (mask.getD · false)).length buffer.size)
    ⟨rfl, by simp⟩ (by
      rintro seen k rest ⟨count, read⟩ hsplit ⟨rfl, rfl⟩
      dsimp only
      rw [List.filter_append, List.length_append, List.map_append]
      by_cases hmarked : mask.getD k false = true
      · have hselected : selected mask =
            seen.filter (mask.getD · false) ++ k :: rest.filter (mask.getD · false) := by
          rw [selected, hsplit, List.filter_append,
            List.filter_cons_of_pos (p := (mask.getD · false)) hmarked]
        obtain ⟨hcontains, hlimit⟩ := h k (by rw [hselected]; simp)
        rw [hselected, List.length_append, List.length_cons] at hbuffer
        -- what has been read so far ends where the next element is written
        generalize hdone : ((seen.filter (mask.getD · false)).map
          fun k => grid.elementD port symbol (start + k)).toArray = done
        have hsize : (seen.filter (mask.getD · false)).length = done.size := by
          rw [← hdone, List.size_toArray, List.length_map]
        rw [hsize] at hbuffer ⊢
        rw [if_pos hmarked, Size.add_of_lt hlimit, ok_bind, element_of_contains hcontains, ok_bind,
          Buffer.write_of_lt (by rw [Array.size_append, Array.size_extract]; omega), ok_bind,
          Buffer.setIfInBounds_append_extract (by omega),
          List.filter_cons_of_pos (p := (mask.getD · false)) hmarked]
        refine ⟨_, rfl, rfl, ?_⟩
        rw [← List.append_toArray, hdone]
        simp
      · rw [if_neg hmarked, List.filter_cons_of_neg (p := (mask.getD · false)) hmarked]
        exact ⟨_, rfl, by simp, by simp⟩)
  exact hread

/-- So are those of a row of the grid. -/
theorem readMasked_of_spans {mask : Array Bool} {buffer : Array Complex}
    (h : grid.Spans mask.size port symbol) (hlimit : mask.size ≤ Size.limit)
    (hbuffer : (selected mask).length ≤ buffer.size) :
    grid.readMasked buffer port symbol 0 mask =
      .ok ((selected mask).length,
        ((selected mask).map (grid.elementD port symbol)).toArray ++
          buffer.extract (selected mask).length buffer.size) := by
  have hin : ∀ k ∈ selected mask, grid.Contains port symbol (0 + k) ∧ 0 + k < Size.limit := by
    intro k hk
    have hk : k < mask.size := List.mem_range.mp (List.mem_filter.mp hk).1
    rw [Nat.zero_add]
    exact ⟨h.contains hk, Nat.lt_of_lt_of_le hk hlimit⟩
  rw [readMasked_of_contains hin hbuffer]
  simp only [Nat.zero_add]

end ResourceGrid

end Uplink
