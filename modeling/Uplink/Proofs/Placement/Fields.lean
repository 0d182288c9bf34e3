import Uplink.Proofs.Placement.Allot
import Uplink.Proofs.Region

/-!
# Placing all fields

The rows of a request, from the start to the end.

- `Placement.startRow`: a symbol on which nothing is placed; `total_start`, `sizeTotal_start`.
- `Placement.Fits`: the fields of a request are whole elements, and fit those they are taken from.
- `Placement.placedRows`: the rows with all fields placed, in closed form; `Fits.rows_eq`: they are
  found if all sizes on the way are machine sizes.
- `Fits.placed`: the elements that every field has in the end.
-/

namespace Uplink

namespace Placement

/-! ## The start -/

/-- Every other element holds data next to one group of reference signals. -/
theorem dataPlaces_one (n : Nat) : dataPlaces 1 (2 * n) = n := by
  induction n with
  | zero => rfl
  | succ n ih =>
    rw [dataPlaces] at ih ⊢
    rw [show 2 * (n + 1) = 2 * n + 1 + 1 from rfl, List.range_succ, List.range_succ,
      List.filter_append, List.filter_append, List.length_append, List.length_append, ih]
    rw [List.filter_cons_of_neg (by simp), List.filter_cons_of_pos (by simp)]
    rfl

/-- The data elements of a symbol with reference signals, counted block by
block: six of twelve are taken by each group. -/
theorem dataPlaces_eq (freeGroups blocks : Nat) :
    dataPlaces freeGroups (blocks * subcarriersPerBlock) =
      blocks * (subcarriersPerBlock - 6 * freeGroups) := by
  have hlt : ∀ k, k % 2 < 2 := fun k => Nat.mod_lt k (by norm_num)
  rcases freeGroups with _ | _ | g
  · simp [dataPlaces]
  · have := dataPlaces_one (6 * blocks)
    rw [show 2 * (6 * blocks) = blocks * subcarriersPerBlock by simp [subcarriersPerBlock]; omega]
      at this
    rw [this]
    simp [subcarriersPerBlock]
    omega
  · have hnone : ∀ k, ¬ g + 1 + 1 ≤ k % 2 := fun k => by have := hlt k; omega
    have : subcarriersPerBlock - 6 * (g + 1 + 1) = 0 := by simp [subcarriersPerBlock]; omega
    rw [this, Nat.mul_zero, dataPlaces, List.length_eq_zero_iff, List.filter_eq_nil_iff]
    intro k _
    simp [hnone k]

/-- Data elements of a symbol. -/
def dataElements (r : Region) (symbol : Nat) : Nat :=
  if r.isPlain symbol then r.elements else dataPlaces r.freeGroups r.elements

/-- A symbol on which nothing is placed. -/
def startRow (r : Region) (symbol : Nat) : Row :=
  ⟨symbol, r.isPlain symbol, Array.replicate (dataElements r symbol) .sch,
    Array.replicate (dataElements r symbol) false⟩

variable {r : Region} {row row' : Row} {c' : Cell}

theorem size_startRow (symbol : Nat) : (startRow r symbol).uses.size = dataElements r symbol :=
  Array.size_replicate

theorem cell_startRow {symbol k : Nat} (h : k < dataElements r symbol) :
    (startRow r symbol).cell k = fresh := by
  rw [Row.cell, startRow]
  simp only [Array.getD_eq_getD_getElem?, Array.getElem?_replicate, if_pos h, Option.getD_some]
  rfl

theorem even_startRow (symbol : Nat) : (startRow r symbol).Even := by
  rw [Row.Even, startRow, Array.size_replicate, Array.size_replicate]

/-- At the start all elements are in one state. -/
theorem count_startRow (symbol : Nat) (x : Cell) :
    (startRow r symbol).count x = if x = fresh then dataElements r symbol else 0 := by
  rw [Row.count, Finset.filter_congr fun k hk => by
    rw [cell_startRow (size_startRow symbol ▸ Finset.mem_range.mp hk)]]
  by_cases hx : x = fresh
  · rw [if_pos hx, Finset.filter_true_of_mem fun _ _ => hx.symm, Finset.card_range, size_startRow]
  · rw [if_neg hx, Finset.filter_false_of_mem fun _ _ h => hx h.symm, Finset.card_empty]

theorem free_startRow (symbol : Nat) :
    (startRow r symbol).free = if r.isPlain symbol then r.elements else 0 := by
  rw [Row.free, count_startRow, if_pos rfl]
  show (if r.isPlain symbol = true then _ else _) = _
  rw [dataElements]
  split <;> rfl

theorem total_start (symbols : List Nat) (x : Cell) :
    total (symbols.map (startRow r)) x =
      if x = fresh then sizeTotal (symbols.map (startRow r)) else 0 := by
  induction symbols with
  | nil => rw [List.map_nil]; split <;> rfl
  | cons l symbols ih =>
    simp only [total, sizeTotal, List.map_cons, List.sum_cons] at ih ⊢
    rw [ih, count_startRow, size_startRow]
    split <;> rfl

theorem freeTotal_start (symbols : List Nat) :
    freeTotal (symbols.map (startRow r)) = (symbols.filter r.isPlain).length * r.elements := by
  rw [freeTotal, List.map_map, ← Region.sum_map_ite]
  exact congrArg List.sum (List.map_congr_left fun l _ => free_startRow l)

/-- The elements of all symbols: all of the plain ones, and those beside the
reference signals of the others. -/
theorem sizeTotal_start (r : Region) :
    sizeTotal (r.symbols.map (startRow r)) = r.plainSymbols.length * r.elements +
      r.dmrsSymbols.length * dataPlaces r.freeGroups r.elements := by
  rw [Region.plainSymbols, Region.length_dmrsSymbols]
  generalize r.symbols = symbols
  induction symbols with
  | nil => simp [sizeTotal]
  | cons l symbols ih =>
    simp only [sizeTotal, List.map_cons, List.sum_cons] at ih ⊢
    rw [ih, size_startRow, dataElements]
    cases hl : r.isPlain l <;> simp [hl, Nat.succ_mul] <;> omega

/-- The start of every symbol, unless its elements are more than a table holds.
-/
theorem emptyRow_eq (htype : r.dmrsType = .type1) (symbol : Nat) :
    GivesUnless (Size.signedLimit ≤ 8 * r.elements) (emptyRow r symbol) (startRow r symbol) := by
  have hlimit : Size.limit ≤ r.elements → Size.signedLimit ≤ 8 * r.elements := fun h =>
    Nat.le_trans (by decide) (Nat.le_trans h (Nat.le_mul_of_pos_left _ (by decide)))
  have hrequire : (r.isPlain symbol || r.dmrsType == .type1) = true := by rw [htype]; simp
  refine .bind (.size_ofNat (n := r.elements) hlimit) (.bind (.of_ok (require_of hrequire _)) ?_)
  exact .bind (.size_cells (by decide) id (by decide)) (.of_ok rfl)

/-! ## What the fields take -/

/-- The whole of a plain symbol, while nothing is placed on it. -/
theorem offers_all (symbol : Nat) : (startRow r symbol).Offers fresh Row.all where
  even := even_startRow symbol
  nodup := by
    rw [Row.all]
    split
    · rw [Array.toList_range]
      exact List.nodup_range
    · exact List.nodup_nil
  cell k hk := by
    rw [Row.all] at hk
    split at hk
    · have hlt := Array.mem_range.mp hk
      exact ⟨hlt, cell_startRow (size_startRow symbol ▸ hlt)⟩
    · exact absurd hk (Array.not_mem_empty k)
  plain h := by
    rw [Row.all] at h
    split at h
    · assumption
    · exact absurd h (Nat.lt_irrefl 0)

theorem size_all_startRow (symbol : Nat) :
    (Row.all (startRow r symbol)).size = if r.isPlain symbol then r.elements else 0 := by
  rw [Row.all, size_startRow, dataElements]
  show (if r.isPlain symbol = true then _ else _ : Array Nat).size = _
  split
  · rw [Array.size_range]
  · rfl

/-- What is left free on a plain symbol: elements that nothing was done to. -/
theorem mem_unreserved {k : Nat} (h : k ∈ row.unreserved) :
    row.plain = true ∧ k < row.uses.size ∧ row.cell k = fresh := by
  rw [Row.unreserved, Array.mem_filter, Row.all] at h
  obtain ⟨hmem, hcell⟩ := h
  split at hmem
  · rw [Bool.and_eq_true, beq_iff_eq, Bool.not_eq_true'] at hcell
    exact ⟨by assumption, Array.mem_range.mp hmem, Prod.ext hcell.1 hcell.2⟩
  · exact absurd hmem (Array.not_mem_empty k)

/-- As many elements are offered as are left. -/
theorem size_unreserved (row : Row) : row.unreserved.size = row.free := by
  rw [Row.unreserved, Row.all, Row.free]
  split
  · rw [Row.count, Row.card_filter_range, ← Array.length_toList, Array.toList_filter,
      Array.toList_range]
    congr 1
    refine List.filter_congr fun k _ => ?_
    rw [Bool.eq_iff_iff, Bool.and_eq_true, beq_iff_eq, Bool.not_eq_true', decide_eq_true_iff]
    exact ⟨fun h => Prod.ext h.1 h.2, fun h => ⟨congrArg Prod.fst h, congrArg Prod.snd h⟩⟩
  · rfl

theorem offers_unreserved (h : row.Even) : row.Offers fresh Row.unreserved where
  even := h
  nodup := by
    rw [Row.unreserved, Array.toList_filter, Row.all]
    split
    · rw [Array.toList_range]
      exact List.nodup_range.filter _
    · exact List.nodup_nil
  cell k hk := (mem_unreserved hk).2
  plain hpos := (mem_unreserved (Array.getElem_mem hpos)).1

/-- Only elements of plain symbols that carry data are reserved. -/
def Row.Settled (row : Row) : Prop :=
  row.Even ∧ ∀ k < row.uses.size, (row.cell k).2 = true →
    row.plain = true ∧ row.cell k = (.sch, true)

theorem settled_startRow (symbol : Nat) : (startRow r symbol).Settled :=
  ⟨even_startRow symbol, fun k hk h => by
    rw [cell_startRow (size_startRow symbol ▸ hk)] at h
    cases h⟩

/-- Elements as at the start can be reserved, or used otherwise without being
reserved. -/
theorem Row.Settled.marked (h : row.Settled) {n : Nat} (hmarked : Row.Marked fresh c' n row row')
    (hc : c'.2 = true → c' = (.sch, true)) : row'.Settled := by
  refine ⟨hmarked.even, fun k hk hreserved => ?_⟩
  rw [hmarked.plain]
  rcases hmarked.cell k with hsame | ⟨hplain, -, hnew⟩
  · rw [hsame] at hreserved ⊢
    exact h.2 k (hmarked.size ▸ hk) hreserved
  · rw [hnew] at hreserved ⊢
    exact ⟨hplain, hc hreserved⟩

theorem mem_reservedOnes {k : Nat} (h : k ∈ row.reservedOnes) :
    k < row.uses.size ∧ (row.cell k).2 = true := by
  rw [Row.reservedOnes, Array.mem_filter] at h
  exact ⟨Array.mem_range.mp h.1, h.2⟩

/-- All reserved elements still carry data, and are offered to short
acknowledgements. -/
theorem size_reservedOnes (h : row.Settled) : row.reservedOnes.size = row.count (.sch, true) := by
  rw [Row.reservedOnes, Row.count, Row.card_filter_range, ← Array.length_toList,
    Array.toList_filter, Array.toList_range]
  congr 1
  refine List.filter_congr fun k hk => ?_
  have hsettled := h.2 k (List.mem_range.mp hk)
  rw [show row.reserved.getD k false = (row.cell k).2 from rfl]
  cases hcell : (row.cell k).2 with
  | true => rw [(hsettled hcell).2]; rfl
  | false => exact (decide_eq_false fun h => by rw [h] at hcell; cases hcell).symm

theorem offers_reservedOnes (h : row.Settled) : row.Offers (.sch, true) Row.reservedOnes where
  even := h.1
  nodup := by
    rw [Row.reservedOnes, Array.toList_filter, Array.toList_range]
    exact List.nodup_range.filter _
  cell k hk := by
    obtain ⟨hlt, hreserved⟩ := mem_reservedOnes hk
    exact ⟨hlt, (h.2 k hlt hreserved).2⟩
  plain hpos := by
    obtain ⟨hlt, hreserved⟩ := mem_reservedOnes (Array.getElem_mem hpos)
    exact (h.2 _ hlt hreserved).1

/-! ## Requests -/

end Placement

namespace PlacementRequest

/-- Coded bits of an element on all layers. -/
def group (q : PlacementRequest) : Nat := q.layers * q.modulation.order

/-- Among the sizes that are found for a placement some may be beyond the
machine: the bits of an element, the end of the symbols, a table of symbols or
of elements, and the bits of a symbol. -/
def Beyond (q : PlacementRequest) : Prop :=
  Size.limit ≤ q.group ∨ Size.limit ≤ q.region.firstSymbol + q.region.symbolCount ∨
    Size.signedLimit ≤ 8 * q.region.symbolCount ∨
    0 < q.region.symbolCount ∧
      (Size.signedLimit ≤ 8 * q.region.elements ∨ Size.limit ≤ q.region.elements * q.group)

/-- Long acknowledgements do not replace data. -/
theorem punctures_of_long {q : PlacementRequest} (h : 2 < q.ackPayload) : q.punctures = false := by
  rw [punctures, decide_eq_false (by omega : ¬ q.ackPayload ≤ 2), Bool.and_false]

end PlacementRequest

namespace Placement

/-- The fields of a request are whole elements, and fit the elements they are
taken from. -/
structure Fits (q : PlacementRequest) (ack reserved csi1 : Nat) : Prop where
  group_pos : ack ≠ 0 ∨ reserved ≠ 0 ∨ csi1 ≠ 0 → 0 < q.group
  type1 : q.region.dmrsType = .type1
  ackBits_eq : 0 < q.ackPayload → q.ackBits = ack * q.group
  reservedBits_eq : q.punctures = true → q.reservedBits = reserved * q.group
  csi1Bits_eq : q.csi1Bits = csi1 * q.group
  ack_le : 2 < q.ackPayload → ack ≤ q.region.ackSymbols.length * q.region.elements
  reserved_le : q.punctures = true → reserved ≤ q.region.ackSymbols.length * q.region.elements
  ack_le_reserved : q.punctures = true → ack ≤ reserved
  csi1_le : csi1 + (if 2 < q.ackPayload then ack else if q.punctures then reserved else 0) ≤
    q.region.plainSymbols.length * q.region.elements

variable {q : PlacementRequest} {ack reserved csi1 : Nat}

/-- The rows of an acknowledgement at the start. -/
def ackRows (r : Region) : List Row :=
  (r.symbols.dropWhile fun l => !r.startsAck l).map (startRow r)

/-- The rows before the first symbol of an acknowledgement at the start. -/
def earlierRows (r : Region) : List Row :=
  (r.symbols.takeWhile fun l => !r.startsAck l).map (startRow r)

theorem earlierRows_append (r : Region) :
    earlierRows r ++ ackRows r = r.symbols.map (startRow r) := by
  rw [earlierRows, ackRows, ← List.map_append, List.takeWhile_append_dropWhile]

/-- The rows of all symbols at the start, cut before the first symbol of an
acknowledgement. -/
theorem span_startRows (r : Region) :
    (r.symbols.map (startRow r)).span (fun row => !r.startsAck row.symbol) =
      (earlierRows r, ackRows r) := by
  rw [List.span_eq_takeWhile_dropWhile, List.takeWhile_map, List.dropWhile_map]
  rfl

theorem settled_ackRows (r : Region) : ∀ row ∈ ackRows r, row.Settled := fun row hrow => by
  obtain ⟨l, -, rfl⟩ := List.mem_map.mp hrow
  exact settled_startRow l

theorem offers_ackRows (r : Region) : ∀ row ∈ ackRows r, row.Offers fresh Row.all :=
  fun row hrow => by
    obtain ⟨l, -, rfl⟩ := List.mem_map.mp hrow
    exact offers_all l

/-- An acknowledgement may take all elements of its symbols. -/
theorem sum_size_ackRows (r : Region) :
    ((ackRows r).map fun row => row.all.size).sum = r.ackSymbols.length * r.elements := by
  rw [ackRows, List.map_map, ← Region.filter_dropWhile_symbols, ← Region.sum_map_ite]
  exact congrArg List.sum (List.map_congr_left fun l _ => size_all_startRow l)

/-! ## Closed forms -/

/-- The rows of an acknowledgement with the elements taken that are held for it.
-/
def heldRows (q : PlacementRequest) (ack reserved : Nat) : List Row :=
  if q.punctures then deal Row.all Row.reserve (ackRows q.region) reserved
  else if 2 < q.ackPayload then deal Row.all (Row.assign .harqAck) (ackRows q.region) ack
  else ackRows q.region

/-- All rows once the report is placed, too. -/
def carriedRows (q : PlacementRequest) (ack reserved csi1 : Nat) : List Row :=
  deal Row.unreserved (Row.assign .csiPart1) (earlierRows q.region ++ heldRows q ack reserved) csi1

/-- All rows once short acknowledgements have taken the elements that are
reserved for them. -/
def placedRows (q : PlacementRequest) (ack reserved csi1 : Nat) : List Row :=
  if q.punctures then
    (carriedRows q ack reserved csi1).take (earlierRows q.region).length ++
      deal Row.reservedOnes (Row.assign .punctured)
        ((carriedRows q ack reserved csi1).drop (earlierRows q.region).length) ack
  else carriedRows q ack reserved csi1

theorem map_symbol_heldRows (q : PlacementRequest) (ack reserved : Nat) :
    (heldRows q ack reserved).map (·.symbol) = (ackRows q.region).map (·.symbol) := by
  unfold heldRows
  split
  · exact map_symbol_deal marks_reserve _ _
  · split
    · exact map_symbol_deal (marks_assign .harqAck) _ _
    · rfl

theorem map_symbol_carriedRows (q : PlacementRequest) (ack reserved csi1 : Nat) :
    (carriedRows q ack reserved csi1).map (·.symbol) = q.region.symbols := by
  rw [carriedRows, map_symbol_deal (marks_assign .csiPart1), List.map_append, map_symbol_heldRows,
    ← List.map_append, earlierRows_append, List.map_map]
  exact List.map_id _

/-- The rows are those of all symbols in order, whatever was placed on them. -/
theorem map_symbol_placedRows (q : PlacementRequest) (ack reserved csi1 : Nat) :
    (placedRows q ack reserved csi1).map (·.symbol) = q.region.symbols := by
  unfold placedRows
  split
  · rw [List.map_append, map_symbol_deal (marks_assign .punctured), ← List.map_append,
      List.take_append_drop, map_symbol_carriedRows]
  · exact map_symbol_carriedRows q ack reserved csi1

/-! ## What is held for acknowledgements -/

/-- The rows with no more than acknowledgements placed: `n` elements are held
for them. -/
structure Held (q : PlacementRequest) (ack reserved : Nat) (rows : List Row) (c : Cell) (n : Nat)
    (rows' : List Row) : Prop where
  allotted : Allotted fresh c rows n rows'
  long : 2 < q.ackPayload → c = (.harqAck, false) ∧ n = ack
  short : q.punctures = true → c = (.sch, true) ∧ n = reserved
  none : ¬ 2 < q.ackPayload → q.punctures ≠ true → n = 0
  ne_fresh : c ≠ fresh
  reserved : c.2 = true → c = (.sch, true)

/-- Before the report is placed, elements are held for at most one kind of
acknowledgement. -/
theorem Fits.held (h : Fits q ack reserved csi1) :
    ∃ c n, Held q ack reserved (ackRows q.region) c n (heldRows q ack reserved) := by
  by_cases hshort : q.punctures = true
  · have hallotted := allotted_deal marks_reserve (offers_ackRows q.region)
      ((h.reserved_le hshort).trans_eq (sum_size_ackRows q.region).symm)
    refine ⟨(.sch, true), reserved, ?_, fun hlong => ?_, fun _ => ⟨rfl, rfl⟩,
      fun _ hn => absurd hshort hn, by decide, fun _ => rfl⟩
    · rw [heldRows, if_pos hshort]
      exact hallotted
    · rw [PlacementRequest.punctures_of_long hlong] at hshort
      cases hshort
  · by_cases hlong : 2 < q.ackPayload
    · have hallotted := allotted_deal (marks_assign .harqAck) (offers_ackRows q.region)
        ((h.ack_le hlong).trans_eq (sum_size_ackRows q.region).symm)
      refine ⟨(.harqAck, false), ack, ?_, fun _ => ⟨rfl, rfl⟩, fun hs => absurd hs hshort,
        fun hn => absurd hlong hn, by decide, nofun⟩
      rw [heldRows, if_neg hshort, if_pos hlong]
      exact hallotted
    · refine ⟨(.harqAck, false), 0, ?_, fun hl => absurd hl hlong, fun hs => absurd hs hshort,
        fun _ _ => rfl, by decide, nofun⟩
      rw [heldRows, if_neg hshort, if_neg hlong]
      exact .refl fun row hrow => (settled_ackRows q.region row hrow).1

/-- All rows before the report is placed; nothing was moved before the first
symbol of an acknowledgement. -/
theorem Held.allotted_all {rows' : List Row} {c : Cell} {n : Nat}
    (h : Held q ack reserved (ackRows q.region) c n rows') :
    Allotted fresh c (q.region.symbols.map (startRow q.region)) n
      (earlierRows q.region ++ rows') := by
  have hearlier : Allotted fresh c (earlierRows q.region) 0 (earlierRows q.region) :=
    .refl fun row hrow => by
      obtain ⟨l, -, rfl⟩ := List.mem_map.mp hrow
      exact even_startRow l
  have hall := hearlier.append h.allotted
  rwa [earlierRows_append, Nat.zero_add] at hall

/-- The report fits what is left free, as the budget has counted what is held
against it. -/
theorem Fits.csi1_le_free (h : Fits q ack reserved csi1) :
    csi1 ≤ ((earlierRows q.region ++ heldRows q ack reserved).map
      fun row => row.unreserved.size).sum := by
  obtain ⟨c, n, hheld⟩ := h.held
  have hfree := hheld.allotted_all.freeTotal_eq hheld.ne_fresh
  rw [freeTotal_start] at hfree
  have hsizes : ((earlierRows q.region ++ heldRows q ack reserved).map
      fun row => row.unreserved.size).sum =
        freeTotal (earlierRows q.region ++ heldRows q ack reserved) :=
    congrArg List.sum (List.map_congr_left fun row _ => size_unreserved row)
  have hcsi1 := h.csi1_le
  rw [Region.plainSymbols] at hcsi1
  rw [hsizes]
  by_cases hlong : 2 < q.ackPayload
  · rw [if_pos hlong, ← (hheld.long hlong).2] at hcsi1
    omega
  · by_cases hshort : q.punctures = true
    · rw [if_neg hlong, if_pos hshort, ← (hheld.short hshort).2] at hcsi1
      omega
    · rw [if_neg hlong, if_neg hshort] at hcsi1
      have := hheld.none hlong hshort
      omega

/-- The report goes to elements that are free, and so never to reserved ones. -/
theorem Fits.allotted_carriedRows (h : Fits q ack reserved csi1) :
    Allotted fresh (.csiPart1, false) (earlierRows q.region ++ heldRows q ack reserved) csi1
      (carriedRows q ack reserved csi1) := by
  obtain ⟨c, n, hheld⟩ := h.held
  have heven : ∀ row ∈ earlierRows q.region ++ heldRows q ack reserved, row.Even :=
    hheld.allotted_all.forall (P := fun _ => True) (fun _ _ _ hmarked _ => hmarked.even)
      fun _ _ => trivial
  exact allotted_deal (marks_assign .csiPart1) (fun row hrow => offers_unreserved (heven row hrow))
    h.csi1_le_free

/-- Short acknowledgements go to the elements that are reserved for them, on the
rows from the first symbol of an acknowledgement on. -/
theorem Fits.placedRows_split (h : Fits q ack reserved csi1) (hshort : q.punctures = true) :
    ∃ before after, carriedRows q ack reserved csi1 = before ++ after ∧
      before.length = (earlierRows q.region).length ∧
      placedRows q ack reserved csi1 =
        before ++ deal Row.reservedOnes (Row.assign .punctured) after ack ∧
      ack ≤ (after.map fun row => row.reservedOnes.size).sum ∧
      Allotted (.sch, true) (.punctured, true) after ack
        (deal Row.reservedOnes (Row.assign .punctured) after ack) := by
  obtain ⟨c, n, hheld⟩ := h.held
  obtain ⟨rfl, rfl⟩ := hheld.short hshort
  obtain ⟨k, m, before, after, hsplit, hlength, -, hafter, -⟩ := h.allotted_carriedRows.of_append
  have hsettled : ∀ row ∈ after, row.Settled :=
    hafter.forall (fun _ _ _ hmarked hs => hs.marked hmarked fun h => absurd h Bool.false_ne_true)
      (hheld.allotted.forall (fun _ _ _ hmarked hs => hs.marked hmarked fun _ => rfl)
        (settled_ackRows q.region))
  have hreserved : total after (.sch, true) = n := by
    have h₁ := hheld.allotted.total_eq (.sch, true)
    have h₂ := hafter.total_eq (.sch, true)
    rw [ackRows, total_start] at h₁
    simp [fresh] at h₁ h₂
    omega
  have hsum : (after.map fun row => row.reservedOnes.size).sum = n := by
    rw [← hreserved]
    exact congrArg List.sum (List.map_congr_left fun row hrow =>
      size_reservedOnes (hsettled row hrow))
  have hack : ack ≤ (after.map fun row => row.reservedOnes.size).sum :=
    (h.ack_le_reserved hshort).trans_eq hsum.symm
  refine ⟨before, after, hsplit, hlength, ?_, hack, ?_⟩
  · rw [placedRows, if_pos hshort, hsplit, ← hlength, List.take_left, List.drop_left]
  · exact allotted_deal (marks_assign .punctured)
      (fun row hrow => offers_reservedOnes (hsettled row hrow)) hack

/-! ## The rows that are found -/

/-- No row has more elements than a plain symbol. -/
theorem size_startRow_le (symbol : Nat) : (startRow r symbol).uses.size ≤ r.elements := by
  rw [size_startRow, dataElements]
  split
  · exact Nat.le_refl _
  · refine (List.length_filter_le _ _).trans_eq ?_
    rw [List.length_range]

theorem size_all_le (row : Row) : row.all.size ≤ row.uses.size := by
  rw [Row.all]
  split
  · rw [Array.size_range]
  · exact Nat.zero_le _

theorem size_unreserved_le (row : Row) : row.unreserved.size ≤ row.uses.size :=
  (Array.size_filter_le).trans (size_all_le row)

theorem size_reservedOnes_le (row : Row) : row.reservedOnes.size ≤ row.uses.size :=
  Array.size_filter_le.trans_eq Array.size_range

/-- Marking does not make a row longer. -/
theorem size_heldRows_le (q : PlacementRequest) (ack reserved : Nat) :
    ∀ row ∈ earlierRows q.region ++ heldRows q ack reserved,
      row.uses.size ≤ q.region.elements := by
  have hstart : ∀ row ∈ ackRows q.region, row.uses.size ≤ q.region.elements := fun row hrow => by
    obtain ⟨l, -, rfl⟩ := List.mem_map.mp hrow
    exact size_startRow_le l
  intro row hrow
  rcases List.mem_append.mp hrow with hrow | hrow
  · obtain ⟨l, -, rfl⟩ := List.mem_map.mp hrow
    exact size_startRow_le l
  · unfold heldRows at hrow
    split at hrow
    · exact forall_deal (P := fun row => row.uses.size ≤ q.region.elements)
        (fun r k hr => (marks_reserve.size r k).trans_le hr) hstart row hrow
    · split at hrow
      · exact forall_deal (P := fun row => row.uses.size ≤ q.region.elements)
          (fun r k hr => ((marks_assign .harqAck).size r k).trans_le hr) hstart row hrow
      · exact hstart row hrow

theorem size_carriedRows_le (q : PlacementRequest) (ack reserved csi1 : Nat) :
    ∀ row ∈ carriedRows q ack reserved csi1, row.uses.size ≤ q.region.elements :=
  forall_deal (fun r k hr => ((marks_assign .csiPart1).size r k).trans_le hr)
    (size_heldRows_le q ack reserved)

/-- A request with a row has a symbol. -/
theorem symbolCount_pos {rows : List Row} {r : Region} (hrows : rows ≠ [])
    (h : ∀ row ∈ rows, row.symbol ∈ r.symbols) : 0 < r.symbolCount := by
  obtain ⟨row, hrow⟩ := List.exists_mem_of_ne_nil rows hrows
  have := Region.mem_symbols.mp (h row hrow)
  omega

/-- A field is placed, or the bits of a symbol are beyond the machine. -/
theorem allot_eq_of_le {available : Row → Array Nat} {mark : Row → Nat → Row} {rows : List Row}
    {wanted : Nat} (hgroup : wanted ≠ 0 → 0 < q.group)
    (havailable : ∀ row, (available row).size ≤ row.uses.size)
    (hsize : ∀ row ∈ rows, row.uses.size ≤ q.region.elements)
    (hsymbols : ∀ row ∈ rows, row.symbol ∈ q.region.symbols)
    (hwanted : wanted ≤ (rows.map fun row => (available row).size).sum) :
    GivesUnless q.Beyond (allot q.group available mark rows (wanted * q.group))
      (deal available mark rows wanted, 0) := by
  have havailable : ∀ row ∈ rows, (available row).size ≤ q.region.elements := fun row hrow =>
    (havailable row).trans (hsize row hrow)
  refine (allot_eq hgroup havailable hwanted).mono fun h => ?_
  exact .inr (.inr (.inr ⟨symbolCount_pos h.1 hsymbols, .inr h.2⟩))

/-- The last steps, after `earlier` rows without acknowledgements and `after`
rows that hold them: the report is placed, and short acknowledgements take the
elements that are reserved for them. -/
def finish (q : PlacementRequest) (earlier after : List Row) : Checked (List Row) := do
  let placed ← allot q.group Row.unreserved (Row.assign .csiPart1) (earlier ++ after) q.csi1Bits
  require (placed.2 == 0) "CSI part 1 does not fit the allocation"
  if q.punctures then
    let punctured ← allot q.group Row.reservedOnes (Row.assign .punctured)
      (placed.1.drop earlier.length) q.ackBits
    require (punctured.2 == 0) "HARQ-ACK exceeds the reserved resource elements"
    return placed.1.take earlier.length ++ punctured.1
  else
    return placed.1

/-- The last steps give the closed form: the report on free elements, and short
acknowledgements on those that are reserved. -/
theorem Fits.finish_eq (h : Fits q ack reserved csi1) :
    GivesUnless q.Beyond (finish q (earlierRows q.region) (heldRows q ack reserved))
      (placedRows q ack reserved csi1) := by
  have hheldSymbols : ∀ row ∈ earlierRows q.region ++ heldRows q ack reserved,
      row.symbol ∈ q.region.symbols := fun row hrow => by
    rw [← map_symbol_carriedRows q ack reserved csi1, carriedRows,
      map_symbol_deal (marks_assign .csiPart1)]
    exact List.mem_map_of_mem hrow
  have hcarriedSymbols : ∀ row ∈ carriedRows q ack reserved csi1, row.symbol ∈ q.region.symbols :=
    fun row hrow => map_symbol_carriedRows q ack reserved csi1 ▸ List.mem_map_of_mem hrow
  have hcarried : GivesUnless q.Beyond (allot q.group Row.unreserved (Row.assign .csiPart1)
      (earlierRows q.region ++ heldRows q ack reserved) (csi1 * q.group))
      (carriedRows q ack reserved csi1, 0) :=
    allot_eq_of_le (fun hne => h.group_pos (.inr (.inr hne))) size_unreserved_le
      (size_heldRows_le q ack reserved) hheldSymbols h.csi1_le_free
  rw [finish, h.csi1Bits_eq]
  refine .bind hcarried (.bind (.of_ok rfl) ?_)
  -- only short acknowledgements are still to be placed
  by_cases hshort : q.punctures = true
  · obtain ⟨before, after, hsplit, hlength, hplaced, hack, -⟩ := h.placedRows_split hshort
    have hmem : ∀ row ∈ after, row ∈ carriedRows q ack reserved csi1 := fun row hrow =>
      hsplit ▸ List.mem_append_right before hrow
    have hpos : 0 < q.ackPayload := by
      rw [PlacementRequest.punctures, Bool.and_eq_true, decide_eq_true_iff] at hshort
      exact hshort.1
    rw [if_pos hshort, hplaced, hsplit, ← hlength, List.take_left, List.drop_left,
      h.ackBits_eq hpos]
    exact .bind (allot_eq_of_le (fun hne => h.group_pos (.inl hne)) size_reservedOnes_le
      (fun row hrow => size_carriedRows_le q ack reserved csi1 row (hmem row hrow))
      (fun row hrow => hcarriedSymbols row (hmem row hrow)) hack) (.bind (.of_ok rfl) (.of_ok rfl))
  · rw [if_neg hshort, placedRows, if_neg hshort]
    exact .of_ok rfl

/-- An acknowledgement is placed on its rows, or something is reserved for it.
Both are the same loop with another mark. -/
theorem allot_ackRows_eq (q : PlacementRequest) {mark : Row → Nat → Row} {n : Nat}
    (hgroup : n ≠ 0 → 0 < q.group) (hn : n ≤ q.region.ackSymbols.length * q.region.elements) :
    GivesUnless q.Beyond (allot q.group Row.all mark (ackRows q.region) (n * q.group))
      (deal Row.all mark (ackRows q.region) n, 0) := by
  refine allot_eq_of_le hgroup size_all_le (fun row hrow => ?_) (fun row hrow => ?_)
    (hn.trans_eq (sum_size_ackRows q.region).symm)
  · obtain ⟨l, -, rfl⟩ := List.mem_map.mp hrow
    exact size_startRow_le l
  · obtain ⟨l, hl, rfl⟩ := List.mem_map.mp hrow
    exact (List.dropWhile_sublist _).subset hl

/-- The fields of a request that fit are placed as in the closed form, unless a
size is beyond the machine. -/
theorem Fits.rows_eq (h : Fits q ack reserved csi1) :
    GivesUnless q.Beyond (rows q) (placedRows q ack reserved csi1) := by
  have hsymbols : GivesUnless q.Beyond q.region.checkSymbols () :=
    .bind (.size_ofNat fun h => .inr (.inl h)) (.of_ok rfl)
  have hstart : GivesUnless q.Beyond (q.region.mapSymbols (emptyRow q.region))
      (q.region.symbols.map (startRow q.region)) := by
    rw [Region.mapSymbols_eq]
    refine .bind hsymbols (.mapM fun l hl => ?_)
    refine (emptyRow_eq h.type1 l).mono fun hbeyond => .inr (.inr (.inr ⟨?_, .inl hbeyond⟩))
    have := Region.mem_symbols.mp hl
    omega
  refine .bind (.size_ofNat .inl) (.bind hsymbols (.bind (.size_cells (by decide)
    (fun h => .inr (.inr (.inl h))) (by decide)) (.bind hstart ?_)))
  rw [span_startRows]
  have hfinish := h.finish_eq
  by_cases hlong : 2 < q.ackPayload
  · -- a long acknowledgement has elements of its own
    have hshort := PlacementRequest.punctures_of_long hlong
    have hheld : heldRows q ack reserved =
        deal Row.all (Row.assign .harqAck) (ackRows q.region) ack := by
      rw [heldRows, hshort, if_neg Bool.false_ne_true, if_pos hlong]
    simp only [hheld, finish, hshort, Bool.false_eq_true, if_false, if_pos hlong, ok_bind,
      h.ackBits_eq (by omega)] at hfinish ⊢
    exact .bind (allot_ackRows_eq q (fun hne => h.group_pos (.inl hne)) (h.ack_le hlong))
      (.bind (.of_ok rfl) hfinish)
  · by_cases hshort : q.punctures = true
    · -- elements are reserved for a short one
      have hheld : heldRows q ack reserved = deal Row.all Row.reserve (ackRows q.region) reserved :=
        if_pos hshort
      simp only [hheld, finish, if_pos hshort, if_neg hlong, ok_bind, h.reservedBits_eq hshort]
        at hfinish ⊢
      exact .bind (allot_ackRows_eq q (fun hne => h.group_pos (.inr (.inl hne)))
        (h.reserved_le hshort)) hfinish
    · have hheld : heldRows q ack reserved = ackRows q.region := by
        rw [heldRows, if_neg hshort, if_neg hlong]
      simp only [hheld, finish, if_neg hshort, if_neg hlong, ok_bind] at hfinish ⊢
      exact hfinish

/-! ## Counting -/

/-- Elements of all rows with a use. -/
def useTotal (rows : List Row) (use : ElementUse) : Nat :=
  total rows (use, false) + total rows (use, true)

/-- All fields are placed, and data takes the rest. -/
structure Placed (q : PlacementRequest) (ack csi1 : Nat) (rows : List Row) : Prop where
  size : sizeTotal rows = sizeTotal (q.region.symbols.map (startRow q.region))
  harqAck_eq : useTotal rows .harqAck = if 2 < q.ackPayload then ack else 0
  punctured_eq : useTotal rows .punctured = if q.punctures then ack else 0
  csi1_eq : useTotal rows .csiPart1 = csi1
  sch_eq : useTotal rows .sch + useTotal rows .punctured + csi1 +
      (if 2 < q.ackPayload then ack else 0) =
    sizeTotal rows

/-- The moves of the last step, counted by state. -/
theorem Fits.total_placedRows (h : Fits q ack reserved csi1) (x : Cell) :
    total (placedRows q ack reserved csi1) x +
        (if (.sch, true) = x then if q.punctures then ack else 0 else 0) =
      total (carriedRows q ack reserved csi1) x +
        (if (.punctured, true) = x then if q.punctures then ack else 0 else 0) := by
  by_cases hshort : q.punctures = true
  · obtain ⟨before, after, hsplit, -, hplaced, -, hallotted⟩ := h.placedRows_split hshort
    have := hallotted.total_eq x
    rw [hplaced, hsplit, total_append, total_append, if_pos hshort]
    omega
  · rw [placedRows, if_neg hshort, if_neg hshort, ite_self, ite_self]

theorem Fits.sizeTotal_placedRows (h : Fits q ack reserved csi1) :
    sizeTotal (placedRows q ack reserved csi1) = sizeTotal (carriedRows q ack reserved csi1) := by
  by_cases hshort : q.punctures = true
  · obtain ⟨before, after, hsplit, -, hplaced, -, hallotted⟩ := h.placedRows_split hshort
    rw [hplaced, hsplit, sizeTotal, sizeTotal, List.map_append, List.map_append, List.sum_append,
      List.sum_append]
    exact congrArg _ hallotted.sizeTotal_eq
  · rw [placedRows, if_neg hshort]

/-- The moves of all fields, counted by state, leave this of every use. Only
counts are needed here, not which elements were moved. -/
theorem Fits.placed (h : Fits q ack reserved csi1) :
    Placed q ack csi1 (placedRows q ack reserved csi1) := by
  obtain ⟨c, n, hheld⟩ := h.held
  have h₂ := hheld.allotted_all
  have h₃ := h.allotted_carriedRows
  have hsize := h.sizeTotal_placedRows.trans (h₃.sizeTotal_eq.trans h₂.sizeTotal_eq)
  have hstart := total_start (r := q.region) q.region.symbols
  -- all three moves in one equation for each state
  have hmoves : ∀ x, total (placedRows q ack reserved csi1) x +
          (if (.sch, true) = x then if q.punctures then ack else 0 else 0) +
          (if fresh = x then csi1 else 0) + (if fresh = x then n else 0) =
        (if x = fresh then sizeTotal (placedRows q ack reserved csi1) else 0) +
          (if c = x then n else 0) + (if (.csiPart1, false) = x then csi1 else 0) +
          (if (.punctured, true) = x then if q.punctures then ack else 0 else 0) := by
    intro x
    have := h₂.total_eq x
    have := h₃.total_eq x
    have := h.total_placedRows x
    have := hstart x
    rw [hsize]
    omega
  have hsch := hmoves (.sch, false)
  have hsch' := hmoves (.sch, true)
  have hlong := hmoves (.harqAck, false)
  have hlong' := hmoves (.harqAck, true)
  have hshort := hmoves (.punctured, false)
  have hshort' := hmoves (.punctured, true)
  have hcsi1 := hmoves (.csiPart1, false)
  have hcsi1' := hmoves (.csiPart1, true)
  by_cases h2 : 2 < q.ackPayload
  · obtain ⟨rfl, rfl⟩ := hheld.long h2
    have hp := PlacementRequest.punctures_of_long h2
    simp [fresh, hp] at hsch hsch' hlong hlong' hshort hshort' hcsi1 hcsi1'
    refine ⟨hsize, ?_, ?_, ?_, ?_⟩ <;>
      simp only [useTotal, if_pos h2, hp, Bool.false_eq_true, if_false] <;> omega
  · by_cases hp : q.punctures = true
    · obtain ⟨rfl, rfl⟩ := hheld.short hp
      have hle := h.ack_le_reserved hp
      simp [fresh, hp] at hsch hsch' hlong hlong' hshort hshort' hcsi1 hcsi1'
      refine ⟨hsize, ?_, ?_, ?_, ?_⟩ <;> simp only [useTotal, if_neg h2, if_pos hp] <;> omega
    · have hn := hheld.none h2 hp
      subst hn
      simp [fresh, hp] at hsch hsch' hlong hlong' hshort hshort' hcsi1 hcsi1'
      refine ⟨hsize, ?_, ?_, ?_, ?_⟩ <;> simp only [useTotal, if_neg h2, if_neg hp] <;> omega

/-! ## All elements -/

/-- The uses of all elements, row after row. -/
theorem uses_append (rows : List Row) (uses : Array ElementUse) :
    (rows.foldl (fun uses row => uses ++ row.uses) uses).size = uses.size + sizeTotal rows ∧
      ∀ use, (rows.foldl (fun uses row => uses ++ row.uses) uses).count use =
        uses.count use + useTotal rows use := by
  induction rows generalizing uses with
  | nil => exact ⟨rfl, fun _ => rfl⟩
  | cons row rows ih =>
    obtain ⟨hsize, hcount⟩ := ih (uses ++ row.uses)
    refine ⟨?_, fun use => ?_⟩
    · rw [List.foldl_cons, hsize, Array.size_append, sizeTotal, sizeTotal, List.map_cons,
        List.sum_cons, Nat.add_assoc]
    · rw [List.foldl_cons, hcount use, Array.count_append, Row.count_use]
      simp only [useTotal, total, List.map_cons, List.sum_cons]
      omega

/-- The use of every data element, in closed form. -/
def placedUses (q : PlacementRequest) (ack reserved csi1 : Nat) : Array ElementUse :=
  (placedRows q ack reserved csi1).foldl (fun uses row => uses ++ row.uses) #[]

/-- A placement is found, unless a size is beyond the machine. -/
theorem Fits.ofRequest_eq (h : Fits q ack reserved csi1) :
    GivesUnless q.Beyond (ofRequest q) (placedUses q ack reserved csi1) :=
  .bind h.rows_eq (.of_ok rfl)

/-- The elements of every use, as the budget has counted them. -/
theorem Fits.placedUses (h : Fits q ack reserved csi1) :
    let uses := placedUses q ack reserved csi1
    uses.size = q.region.plainSymbols.length * q.region.elements +
        q.region.dmrsSymbols.length * dataPlaces q.region.freeGroups q.region.elements ∧
      uses.count .harqAck = (if 2 < q.ackPayload then ack else 0) ∧
      uses.count .punctured = (if q.punctures then ack else 0) ∧ uses.count .csiPart1 = csi1 ∧
      uses.count .sch + uses.count .punctured + csi1 + (if 2 < q.ackPayload then ack else 0) =
        uses.size := by
  have hplaced := h.placed
  obtain ⟨hsize, hcount⟩ := uses_append (placedRows q ack reserved csi1) #[]
  simp only [Array.size_empty, Array.count_empty, Nat.zero_add] at hsize hcount
  dsimp only
  rw [Placement.placedUses]
  refine ⟨?_, ?_, ?_, ?_, ?_⟩
  · rw [hsize, hplaced.size, sizeTotal_start]
  · rw [hcount, hplaced.harqAck_eq]
  · rw [hcount, hplaced.punctured_eq]
  · rw [hcount, hplaced.csi1_eq]
  · rw [hcount, hcount, hsize, hplaced.sch_eq]

end Placement

end Uplink
