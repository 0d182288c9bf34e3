import Uplink.Proofs.Placement.Fields

/-!
# Which element carries what

The closed form of a placement, read element by element: where acknowledgements are, what is
reserved for them, and what the report keeps clear of.

- `Region.dataElements`: all data elements in the order of a placement; `Region.firstElements`:
  those that a field takes on given symbols.
- `PlacementRequest.ackElements`, `reservedElements`: what is held for acknowledgements.
- `Placement.Row.Agrees`: what holds of every element of a row; `Row.Agrees.marked`: placing further
  fields keeps it; `Fits.agrees_placedRows`: it holds in the end.
- `Placement.Allowed`, `Placement.Exact`: what an element may carry, and what a placement promises.
- `PlacementRequest.ofRequest_exact`: a request whose fields fit is placed exactly.
-/

namespace Uplink

open Placement

/-! ## Elements -/

namespace Region

variable {r : Region} {symbols : List Nat} {l k n : Nat}

/-- The data elements of a symbol by their subcarriers, in increasing order. -/
def dataOn (r : Region) (symbol : Nat) : List Nat :=
  (List.range r.elements).filter fun k => r.isPlain symbol || decide (r.freeGroups ≤ k % 2)

/-- All data elements as symbol and subcarrier: symbol by symbol, and on each
symbol in increasing order of subcarriers. -/
def dataElements (r : Region) : List (Nat × Nat) :=
  r.symbols.flatMap fun l => (r.dataOn l).map (l, ·)

/-- The `n` elements that a field takes on these symbols: all elements of a
symbol after the other, and of the last one evenly spaced elements from the
first on. -/
def firstElements (r : Region) : (symbols : List Nat) → (n : Nat) → List (Nat × Nat)
  | [], _ => []
  | l :: symbols, n => (evenly r.elements n).map (l, ·) ++ firstElements r symbols (n - r.elements)

theorem dataOn_of_plain (h : r.isPlain l = true) : r.dataOn l = List.range r.elements := by
  rw [dataOn, h]
  exact List.filter_eq_self.mpr fun _ _ => rfl

theorem length_dataOn (r : Region) (l : Nat) :
    (r.dataOn l).length = Placement.dataElements r l := by
  rw [Placement.dataElements]
  cases h : r.isPlain l with
  | true => rw [dataOn_of_plain h, List.length_range, if_pos rfl]
  | false =>
    rw [dataOn, h, if_neg Bool.false_ne_true]
    simp only [Bool.false_or]
    rfl

theorem length_dataElements (r : Region) :
    r.dataElements.length = r.plainSymbols.length * r.elements +
      r.dmrsSymbols.length * dataPlaces r.freeGroups r.elements := by
  rw [← sizeTotal_start, dataElements, List.length_flatMap, sizeTotal, List.map_map]
  refine congrArg List.sum (List.map_congr_left fun l _ => ?_)
  rw [List.length_map, length_dataOn]
  exact (size_startRow l).symm

theorem mem_firstElements (h : (l, k) ∈ r.firstElements symbols n) :
    l ∈ symbols ∧ k < r.elements := by
  induction symbols generalizing n with
  | nil => exact absurd h List.not_mem_nil
  | cons l' symbols ih =>
    rcases List.mem_append.mp h with h | h
    · obtain ⟨j, hj, hpair⟩ := List.mem_map.mp h
      obtain ⟨rfl, rfl⟩ := Prod.mk.inj hpair
      exact ⟨List.mem_cons_self, lt_of_mem_evenly hj⟩
    · exact ⟨List.mem_cons_of_mem l' (ih h).1, (ih h).2⟩

/-- As many elements are taken as are wanted, if there are so many. -/
theorem length_firstElements (h : n ≤ symbols.length * r.elements) :
    (r.firstElements symbols n).length = n := by
  induction symbols generalizing n with
  | nil => exact (Nat.le_zero.mp (by simpa using h)).symm
  | cons l symbols ih =>
    rw [List.length_cons, Nat.succ_mul] at h
    rw [firstElements, List.length_append, List.length_map, length_evenly, ih (by omega)]
    omega

/-- On a symbol that is plain they are spread evenly, and those on the others
come later. -/
theorem mem_firstElements_first (h : l ∉ symbols) :
    (l, k) ∈ r.firstElements ((l :: symbols).filter r.isPlain) n ↔
      r.isPlain l = true ∧ k ∈ evenly r.elements n := by
  have hnot (m : Nat) : (l, k) ∉ r.firstElements (symbols.filter r.isPlain) m := fun hmem =>
    h (List.mem_filter.mp (mem_firstElements hmem).1).1
  cases hl : r.isPlain l with
  | true =>
    rw [List.filter_cons_of_pos hl, firstElements, List.mem_append, or_iff_left (hnot _)]
    simp
  | false =>
    rw [List.filter_cons_of_neg (by simp [hl])]
    exact iff_of_false (hnot n) fun h => absurd h.1 Bool.false_ne_true

/-- On the symbols after it a field takes what it has not found on the first. -/
theorem mem_firstElements_rest {l' : Nat} (h : l' ≠ l) :
    (l', k) ∈ r.firstElements ((l :: symbols).filter r.isPlain) n ↔
      (l', k) ∈ r.firstElements (symbols.filter r.isPlain)
        (n - if r.isPlain l then r.elements else 0) := by
  cases hl : r.isPlain l with
  | true =>
    rw [List.filter_cons_of_pos hl, firstElements, if_pos rfl, List.mem_append,
      or_iff_right fun hmem => ?_]
    obtain ⟨j, -, hpair⟩ := List.mem_map.mp hmem
    exact h (Prod.mk.inj hpair).1.symm
  | false =>
    rw [List.filter_cons_of_neg (by simp [hl]), if_neg Bool.false_ne_true, Nat.sub_zero]

end Region

namespace PlacementRequest

/-- Elements of an acknowledgement. -/
def ackCount (q : PlacementRequest) : Nat := q.ackBits / q.group

/-- Elements that are reserved for it. -/
def reservedCount (q : PlacementRequest) : Nat := q.reservedBits / q.group

/-- Elements of the report. -/
def csi1Count (q : PlacementRequest) : Nat := q.csi1Bits / q.group

/-- The elements that are reserved for a short acknowledgement. -/
def reservedElements (q : PlacementRequest) : List (Nat × Nat) :=
  if q.punctures then q.region.firstElements q.region.ackSymbols q.reservedCount else []

/-- The elements that a long acknowledgement takes. -/
def ackElements (q : PlacementRequest) : List (Nat × Nat) :=
  if 2 < q.ackPayload then q.region.firstElements q.region.ackSymbols q.ackCount else []

variable {q : PlacementRequest} {x : Nat × Nat}

/-- Acknowledgements are on the symbols that they may stand on. -/
theorem startsAck_of_mem_ackElements (h : x ∈ q.ackElements) :
    q.region.startsAck x.1 = true := by
  unfold ackElements at h
  split at h
  · exact (List.mem_filter.mp (Region.mem_firstElements h).1).2
  · exact absurd h List.not_mem_nil

theorem startsAck_of_mem_reservedElements (h : x ∈ q.reservedElements) :
    q.region.startsAck x.1 = true := by
  unfold reservedElements at h
  split at h
  · exact (List.mem_filter.mp (Region.mem_firstElements h).1).2
  · exact absurd h List.not_mem_nil

theorem not_long (h : q.punctures = true) : ¬ 2 < q.ackPayload := fun hlong => by
  rw [punctures_of_long hlong] at h
  cases h

/-- A long acknowledgement keeps clear of reserved elements and of reference
signals. -/
theorem clear_of_mem_ackElements (h : x ∈ q.ackElements) :
    x ∉ q.reservedElements ∧ q.region.isPlain x.1 = true := by
  refine ⟨?_, Region.isPlain_of_startsAck (startsAck_of_mem_ackElements h)⟩
  unfold ackElements at h
  split at h
  · rename_i hlong
    rw [reservedElements, punctures_of_long hlong]
    exact List.not_mem_nil
  · exact absurd h List.not_mem_nil

end PlacementRequest

namespace Placement

/-! ## Rows -/

variable {r : Region} {q : PlacementRequest} {own held : List (Nat × Nat)} {row row' : Row}

/-- What holds of every element of a row: those in `own` carry a long
acknowledgement and no others do, those in `held` are reserved and no others
are, and the fields are where they may be. -/
structure Row.Agrees (r : Region) (own held : List (Nat × Nat)) (row : Row) : Prop where
  plain_eq : row.plain = r.isPlain row.symbol
  size_eq : row.uses.size = dataElements r row.symbol
  even : row.Even
  plain_of_ne : ∀ k < row.uses.size, (row.cell k).1 ≠ .sch → row.plain = true
  harqAck_iff : ∀ k < row.uses.size, (row.cell k).1 = .harqAck ↔ (row.symbol, k) ∈ own
  reserved_iff : ∀ k < row.uses.size, (row.cell k).2 = true ↔ (row.symbol, k) ∈ held
  csiPart1 : ∀ k < row.uses.size, (row.cell k).1 = .csiPart1 → (row.cell k).2 = false
  punctured : ∀ k < row.uses.size, (row.cell k).1 = .punctured → (row.cell k).2 = true

/-- Data elements can be given to the report if they are not reserved, and to a
short acknowledgement if they are. All else that holds of the row is kept. -/
theorem Row.Agrees.marked {b : Bool} {use : ElementUse} {n : Nat} (h : row.Agrees r own held)
    (hmarked : Row.Marked (.sch, b) (use, b) n row row') (huse : use ≠ .harqAck)
    (hcsi1 : use = .csiPart1 → b = false) (hpunctured : use = .punctured → b = true) :
    row'.Agrees r own held := by
  have hcell (k : Nat) (hk : k < row'.uses.size) : k < row.uses.size ∧
      (row'.cell k = row.cell k ∨ row.plain = true ∧ row.cell k = (.sch, b) ∧
        row'.cell k = (use, b)) := ⟨hmarked.size ▸ hk, hmarked.cell k⟩
  refine ⟨?_, ?_, hmarked.even, fun k hk => ?_, fun k hk => ?_, fun k hk => ?_, fun k hk => ?_,
    fun k hk => ?_⟩
  · rw [hmarked.plain, hmarked.symbol, h.plain_eq]
  · rw [hmarked.size, hmarked.symbol, h.size_eq]
  all_goals
    obtain ⟨hk, hsame | ⟨hplain, hold, hnew⟩⟩ := hcell k hk
  · rw [hsame, hmarked.plain]
    exact h.plain_of_ne k hk
  · rw [hmarked.plain]
    exact fun _ => hplain
  · rw [hsame, hmarked.symbol]
    exact h.harqAck_iff k hk
  · rw [hnew, hmarked.symbol, ← h.harqAck_iff k hk, hold]
    exact iff_of_false huse nofun
  · rw [hsame, hmarked.symbol]
    exact h.reserved_iff k hk
  · rw [hnew, hmarked.symbol, ← h.reserved_iff k hk, hold]
  · rw [hsame]
    exact h.csiPart1 k hk
  · rw [hnew]
    exact hcsi1
  · rw [hsame]
    exact h.punctured k hk
  · rw [hnew]
    exact hpunctured

/-! ## Acknowledgements -/

/-- On a symbol at the start, the places of a field are those of its elements.
-/
theorem mem_choose_all {l k n : Nat} :
    k ∈ choose (startRow r l).all n ↔ r.isPlain l = true ∧ k ∈ evenly r.elements n := by
  have hsize := size_all_startRow (r := r) l
  cases hl : r.isPlain l with
  | true =>
    rw [hl, if_pos rfl] at hsize
    have hplace (j : Nat) (hj : j ∈ evenly r.elements n) : (startRow r l).all.getD j 0 = j := by
      have hlt := lt_of_mem_evenly hj
      have hall : (startRow r l).all = Array.range r.elements := by
        rw [Row.all, size_startRow, dataElements, hl, if_pos rfl]
        exact if_pos hl
      rw [hall, Buffer.getD_of_lt (by rwa [Array.size_range]), Array.getElem_range]
    rw [choose, hsize, List.map_congr_left hplace, List.map_id', and_iff_right rfl]
  | false =>
    rw [hl, if_neg Bool.false_ne_true] at hsize
    refine iff_of_false (fun hmem => ?_) fun h => absurd h.1 Bool.false_ne_true
    have := List.length_pos_of_mem hmem
    rw [length_choose, hsize] at this
    omega

/-- A field on whole symbols takes the first elements of the plain ones. The
induction is on the symbols, with fewer elements wanted after each. -/
theorem cell_deal_all {mark : Row → Nat → Row} {f : Cell → Cell} (hmark : Marks mark f)
    {symbols : List Nat} (hnodup : symbols.Nodup) (n : Nat) :
    ∀ row ∈ deal Row.all mark (symbols.map (startRow r)) n,
      row.symbol ∈ symbols ∧ row.plain = r.isPlain row.symbol ∧
        row.uses.size = dataElements r row.symbol ∧ row.Even ∧
        ∀ k < row.uses.size, row.cell k =
          if (row.symbol, k) ∈ r.firstElements (symbols.filter r.isPlain) n then f fresh
          else fresh := by
  induction symbols generalizing n with
  | nil => exact fun row hrow => absurd hrow List.not_mem_nil
  | cons l symbols ih =>
    obtain ⟨hl, hrest⟩ := List.nodup_cons.mp hnodup
    intro row hrow
    rw [List.map_cons, deal, size_all_startRow] at hrow
    rcases List.mem_cons.mp hrow with rfl | hrow
    · obtain ⟨hsymbol, hplain, hsize, heven, hcell⟩ := Row.foldl_marks hmark (even_startRow l)
        (nodup_choose (offers_all l).nodup n) fun k hk =>
          ((offers_all l).cell k (mem_of_mem_choose hk)).1
      refine ⟨hsymbol ▸ List.mem_cons_self, ?_, ?_, heven, fun k hk => ?_⟩
      · rw [hplain, hsymbol]
        rfl
      · rw [hsize, hsymbol]
        exact size_startRow l
      · rw [hsize, size_startRow] at hk
        rw [hcell, hsymbol, cell_startRow hk]
        exact if_congr (mem_choose_all.trans (Region.mem_firstElements_first hl).symm) rfl rfl
    · obtain ⟨hmem, hplain, hsize, heven, hcell⟩ := ih hrest _ row hrow
      refine ⟨List.mem_cons_of_mem l hmem, hplain, hsize, heven, fun k hk => ?_⟩
      rw [hcell k hk]
      have hne : row.symbol ≠ l := fun h => hl (h ▸ hmem)
      exact if_congr (Region.mem_firstElements_rest hne).symm rfl rfl

/-- The state of an element before the report is placed. -/
def heldCell (own held : List (Nat × Nat)) (x : Nat × Nat) : Cell :=
  if x ∈ own then (.harqAck, false) else if x ∈ held then (.sch, true) else fresh

theorem fst_heldCell (own held : List (Nat × Nat)) (x : Nat × Nat) :
    (heldCell own held x).1 = if x ∈ own then .harqAck else .sch := by
  rw [heldCell]
  split_ifs <;> rfl

theorem snd_heldCell {x : Nat × Nat} (h : x ∈ own → x ∉ held) :
    (heldCell own held x).2 = decide (x ∈ held) := by
  rw [heldCell]
  split_ifs with hown hheld
  · exact (decide_eq_false (h hown)).symm
  · exact (decide_eq_true hheld).symm
  · exact (decide_eq_false hheld).symm

theorem Row.agrees_of_cell (hplain : row.plain = r.isPlain row.symbol)
    (hsize : row.uses.size = dataElements r row.symbol) (heven : row.Even)
    (hown : ∀ x ∈ own, x ∉ held ∧ r.isPlain x.1 = true)
    (hcell : ∀ k < row.uses.size, row.cell k = heldCell own held (row.symbol, k)) :
    row.Agrees r own held := by
  refine ⟨hplain, hsize, heven, fun k hk => ?_, fun k hk => ?_, fun k hk => ?_, fun k hk => ?_,
    fun k hk => ?_⟩ <;> rw [hcell k hk]
  · rw [fst_heldCell]
    split_ifs with hmem
    · exact fun _ => hplain.trans (hown _ hmem).2
    · exact fun h => absurd rfl h
  · rw [fst_heldCell]
    split_ifs with hmem
    · exact iff_of_true rfl hmem
    · exact iff_of_false nofun hmem
  · rw [snd_heldCell fun h => (hown _ h).1, decide_eq_true_iff]
  · rw [fst_heldCell]
    split_ifs <;> exact nofun
  · rw [fst_heldCell]
    split_ifs <;> exact nofun

/-- Symbols at the start agree where nothing is held for acknowledgements. -/
theorem agrees_startRow {l : Nat} (hack : ∀ k, (l, k) ∉ q.ackElements)
    (hreserved : ∀ k, (l, k) ∉ q.reservedElements) :
    (startRow q.region l).Agrees q.region q.ackElements q.reservedElements := by
  refine Row.agrees_of_cell rfl (size_startRow l) (even_startRow l)
    (fun _ => PlacementRequest.clear_of_mem_ackElements) fun k hk => ?_
  rw [cell_startRow (size_startRow l ▸ hk)]
  exact ((if_neg (hack k)).trans (if_neg (hreserved k))).symm

/-- So do symbols on which elements are marked as held. -/
theorem agrees_deal {mark : Row → Nat → Row} {f : Cell → Cell} (hmark : Marks mark f) {n : Nat}
    (hheld : ∀ x, heldCell q.ackElements q.reservedElements x =
      if x ∈ q.region.firstElements q.region.ackSymbols n then f fresh else fresh) :
    ∀ row ∈ deal Row.all mark (ackRows q.region) n,
      row.Agrees q.region q.ackElements q.reservedElements := by
  intro row hrow
  have hnodup : (q.region.symbols.dropWhile fun l => !q.region.startsAck l).Nodup :=
    q.region.nodup_symbols.sublist (List.dropWhile_sublist _)
  obtain ⟨-, hplain, hsize, heven, hcell⟩ := cell_deal_all hmark hnodup n row hrow
  refine Row.agrees_of_cell hplain hsize heven
    (fun _ => PlacementRequest.clear_of_mem_ackElements) fun k hk => ?_
  rw [hcell k hk, Region.filter_dropWhile_symbols, hheld]

/-- Before the report is placed, what is held for acknowledgements is on the
first elements of their symbols. -/
theorem agrees_heldRows (q : PlacementRequest) :
    ∀ row ∈ earlierRows q.region ++ heldRows q q.ackCount q.reservedCount,
      row.Agrees q.region q.ackElements q.reservedElements := by
  intro row hrow
  rcases List.mem_append.mp hrow with hrow | hrow
  · obtain ⟨l, hl, rfl⟩ := List.mem_map.mp hrow
    have hstarts : q.region.startsAck l ≠ true := by simpa using List.mem_takeWhile_imp hl
    exact agrees_startRow
      (fun k hk => hstarts (PlacementRequest.startsAck_of_mem_ackElements hk))
      fun k hk => hstarts (PlacementRequest.startsAck_of_mem_reservedElements hk)
  · -- reserved for a short acknowledgement, taken by a long one, or nothing of both
    unfold heldRows at hrow
    split at hrow
    · rename_i hshort
      have hack : q.ackElements = [] := if_neg (PlacementRequest.not_long hshort)
      refine agrees_deal marks_reserve (fun x => ?_) row hrow
      rw [heldCell, hack, if_neg List.not_mem_nil, PlacementRequest.reservedElements,
        if_pos hshort]
      rfl
    · rename_i hshort
      have hreserved : q.reservedElements = [] := if_neg hshort
      split at hrow
      · rename_i hlong
        refine agrees_deal (marks_assign .harqAck) (fun x => ?_) row hrow
        rw [heldCell, hreserved, if_neg List.not_mem_nil, PlacementRequest.ackElements,
          if_pos hlong]
        rfl
      · rename_i hlong
        have hack : q.ackElements = [] := if_neg hlong
        obtain ⟨l, -, rfl⟩ := List.mem_map.mp hrow
        exact agrees_startRow (fun _ => hack ▸ List.not_mem_nil)
          fun _ => hreserved ▸ List.not_mem_nil

/-- The report keeps clear of what is reserved, since it only takes free
elements. -/
theorem Fits.agrees_carriedRows {csi1 : Nat} (h : Fits q q.ackCount q.reservedCount csi1) :
    ∀ row ∈ carriedRows q q.ackCount q.reservedCount csi1,
      row.Agrees q.region q.ackElements q.reservedElements :=
  h.allotted_carriedRows.forall
    (fun _ _ _ hmarked hrow => hrow.marked hmarked nofun (fun _ => rfl) nofun) (agrees_heldRows q)

/-- Short acknowledgements are on elements that are reserved, and on no others.
-/
theorem Fits.agrees_placedRows {csi1 : Nat} (h : Fits q q.ackCount q.reservedCount csi1) :
    ∀ row ∈ placedRows q q.ackCount q.reservedCount csi1,
      row.Agrees q.region q.ackElements q.reservedElements := by
  by_cases hshort : q.punctures = true
  · obtain ⟨before, after, hsplit, -, hplaced, -, hallotted⟩ := h.placedRows_split hshort
    have hcarried := h.agrees_carriedRows
    rw [hsplit] at hcarried
    rw [hplaced]
    intro row hrow
    rcases List.mem_append.mp hrow with hrow | hrow
    · exact hcarried row (List.mem_append_left _ hrow)
    · exact hallotted.forall
        (fun _ _ _ hmarked hrow => hrow.marked hmarked nofun nofun fun _ => rfl)
        (fun row hrow => hcarried row (List.mem_append_right _ hrow)) row hrow
  · rw [placedRows, if_neg hshort]
    exact h.agrees_carriedRows

/-! ## Elements in order -/

/-- The uses of all elements, row after row. -/
theorem toList_uses (rows : List Row) :
    (rows.foldl (fun uses row => uses ++ row.uses) #[]).toList =
      rows.flatMap fun row => row.uses.toList := by
  suffices ∀ uses : Array ElementUse, (rows.foldl (fun uses row => uses ++ row.uses) uses).toList =
      uses.toList ++ rows.flatMap fun row => row.uses.toList from this #[]
  induction rows with
  | nil => exact fun uses => (List.append_nil _).symm
  | cons row rows ih =>
    intro uses
    rw [List.foldl_cons, ih, Array.toList_append, List.flatMap_cons, List.append_assoc]

/-- The data elements of the rows stand next to their uses, so what holds of an
element of a row can be said of the placement. -/
theorem mem_zip_uses {rows : List Row} (h : ∀ row ∈ rows, row.Agrees r own held)
    {x : (Nat × Nat) × ElementUse}
    (hx : x ∈ ((rows.map (·.symbol)).flatMap fun l => (r.dataOn l).map (l, ·)).zip
      (rows.flatMap fun row => row.uses.toList)) :
    ∃ row ∈ rows, ∃ j < row.uses.size, row.symbol = x.1.1 ∧
      (r.dataOn row.symbol)[j]? = some x.1.2 ∧ (row.cell j).1 = x.2 := by
  induction rows with
  | nil => exact absurd hx List.not_mem_nil
  | cons row rows ih =>
    have hlength : ((r.dataOn row.symbol).map (row.symbol, ·)).length = row.uses.toList.length := by
      rw [List.length_map, Region.length_dataOn, Array.length_toList,
        (h row List.mem_cons_self).size_eq]
    rw [List.map_cons, List.flatMap_cons, List.flatMap_cons, List.zip_append hlength] at hx
    rcases List.mem_append.mp hx with hx | hx
    · obtain ⟨j, hj, rfl⟩ := List.mem_iff_getElem.mp hx
      rw [List.length_zip, ← hlength, Nat.min_self] at hj
      have hsize : j < row.uses.size := by
        rwa [hlength, Array.length_toList] at hj
      rw [List.length_map] at hj
      refine ⟨row, List.mem_cons_self, j, hsize, ?_⟩
      simp only [List.getElem_zip, List.getElem_map, Array.getElem_toList, Row.cell,
        Buffer.getD_of_lt hsize, List.getElem?_eq_getElem hj, and_self]
    · obtain ⟨row', hrow', hrest⟩ := ih (fun r hr => h r (List.mem_cons_of_mem row hr)) hx
      exact ⟨row', List.mem_cons_of_mem row hrow', hrest⟩

/-- On plain symbols all subcarriers hold data, so that they number the
elements. -/
theorem Row.Agrees.subcarrier (h : row.Agrees r own held) {j k : Nat} (hj : j < row.uses.size)
    (hplain : r.isPlain row.symbol = true) (hk : (r.dataOn row.symbol)[j]? = some k) : j = k := by
  rw [h.size_eq, dataElements, if_pos hplain] at hj
  rw [Region.dataOn_of_plain hplain, List.getElem?_range hj] at hk
  exact Option.some.inj hk

/-- What an element may carry. Control information is on plain symbols only,
acknowledgements on those after the first reference signals; the report keeps
clear of reserved elements, and short acknowledgements keep to them. -/
structure Allowed (q : PlacementRequest) (element : Nat × Nat) (use : ElementUse) : Prop where
  plain : use ≠ .sch → q.region.isPlain element.1 = true
  startsAck : use = .harqAck ∨ use = .punctured → q.region.startsAck element.1 = true
  harqAck_iff : use = .harqAck ↔ element ∈ q.ackElements
  csiPart1 : use = .csiPart1 → element ∉ q.reservedElements
  punctured : use = .punctured → element ∈ q.reservedElements

/-- What agrees with the elements that are held carries only what it may. -/
theorem Row.Agrees.allowed (h : row.Agrees q.region q.ackElements q.reservedElements) {j k : Nat}
    (hj : j < row.uses.size) (hk : (q.region.dataOn row.symbol)[j]? = some k) :
    Allowed q (row.symbol, k) (row.cell j).1 := by
  cases hplain : q.region.isPlain row.symbol with
  | true =>
    obtain rfl := h.subcarrier hj hplain hk
    have hharqAck := h.harqAck_iff j hj
    have hpunctured (huse : (row.cell j).1 = .punctured) : (row.symbol, j) ∈ q.reservedElements :=
      (h.reserved_iff j hj).mp (h.punctured j hj huse)
    refine ⟨fun _ => hplain, fun huse => ?_, hharqAck, fun huse hmem => ?_, hpunctured⟩
    · rcases huse with huse | huse
      · exact PlacementRequest.startsAck_of_mem_ackElements (hharqAck.mp huse)
      · exact PlacementRequest.startsAck_of_mem_reservedElements (hpunctured huse)
    · have hclear := h.csiPart1 j hj huse
      rw [(h.reserved_iff j hj).mpr hmem] at hclear
      cases hclear
  | false =>
    -- next to reference signals there is data only
    have hsch : (row.cell j).1 = .sch := by
      by_contra hne
      rw [← h.plain_eq, h.plain_of_ne j hj hne] at hplain
      cases hplain
    rw [hsch]
    refine ⟨fun hne => absurd rfl hne, nofun, iff_of_false nofun fun hmem => ?_, nofun, nofun⟩
    rw [(PlacementRequest.clear_of_mem_ackElements hmem).2] at hplain
    cases hplain

/-- What is found for a request: rows of all symbols in order, and a use for
every data element in the same order. Every field has as many elements as its
bits need, and every element carries what it may; the flags of the rows say
which elements are reserved. -/
structure Exact (q : PlacementRequest) (rows : List Row) (uses : Array ElementUse) : Prop where
  symbols : rows.map (·.symbol) = q.region.symbols
  uses_eq : uses.toList = rows.flatMap fun row => row.uses.toList
  size : uses.size = q.region.dataElements.length
  harqAck_eq : uses.count .harqAck = if 2 < q.ackPayload then q.ackCount else 0
  punctured_eq : uses.count .punctured = if q.punctures then q.ackCount else 0
  csiPart1_eq : uses.count .csiPart1 = q.csi1Count
  allowed : ∀ x ∈ q.region.dataElements.zip uses.toList, Allowed q x.1 x.2
  reserved_iff : ∀ row ∈ rows, ∀ k < row.uses.size,
    row.reserved.getD k false = true ↔ (row.symbol, k) ∈ q.reservedElements
  reserved_eq : q.reservedElements.length = if q.punctures then q.reservedCount else 0

theorem length_reservedElements
    (h : q.punctures = true →
      q.reservedCount ≤ q.region.ackSymbols.length * q.region.elements) :
    q.reservedElements.length = if q.punctures then q.reservedCount else 0 := by
  unfold PlacementRequest.reservedElements
  split
  · rename_i hshort
    exact Region.length_firstElements (h hshort)
  · rfl

/-- The closed form of a placement is exact: its counts are those of the fields,
and its rows agree with the elements that are held for acknowledgements. -/
theorem Fits.exact (h : Fits q q.ackCount q.reservedCount q.csi1Count) :
    Exact q (placedRows q q.ackCount q.reservedCount q.csi1Count)
      (Placement.placedUses q q.ackCount q.reservedCount q.csi1Count) := by
  obtain ⟨hsize, hharqAck, hpunctured, hcsi1, -⟩ := h.placedUses
  have hagrees := h.agrees_placedRows
  have hsymbols := map_symbol_placedRows q q.ackCount q.reservedCount q.csi1Count
  have huses := toList_uses (placedRows q q.ackCount q.reservedCount q.csi1Count)
  have helements : q.region.dataElements =
      ((placedRows q q.ackCount q.reservedCount q.csi1Count).map (·.symbol)).flatMap
        fun l => (q.region.dataOn l).map (l, ·) := by
    rw [hsymbols]
    rfl
  refine ⟨hsymbols, huses, ?_, hharqAck, hpunctured, hcsi1, fun x hx => ?_,
    fun row hrow => (hagrees row hrow).reserved_iff, length_reservedElements h.reserved_le⟩
  · rw [hsize, Region.length_dataElements]
  · rw [Placement.placedUses, huses, helements] at hx
    obtain ⟨row, hrow, j, hj, hsymbol, hk, huse⟩ := mem_zip_uses hagrees hx
    have hallowed := (hagrees row hrow).allowed hj hk
    rwa [hsymbol, huse] at hallowed

end Placement

namespace PlacementRequest

/-- The fields are whole elements and fit: acknowledgements, or what is reserved
for them, on their symbols, and the report on the rest of the plain ones. -/
structure Fitting (q : PlacementRequest) : Prop where
  type1 : q.region.dmrsType = .type1
  ackBits_dvd : q.group ∣ q.ackBits
  reservedBits_dvd : q.group ∣ q.reservedBits
  csi1Bits_dvd : q.group ∣ q.csi1Bits
  ack_le : 2 < q.ackPayload → q.ackCount ≤ q.region.ackSymbols.length * q.region.elements
  reserved_le : q.punctures = true →
    q.reservedCount ≤ q.region.ackSymbols.length * q.region.elements
  ackBits_le : q.punctures = true → q.ackBits ≤ q.reservedBits
  csi1_le : q.csi1Count +
      (if 2 < q.ackPayload then q.ackCount else if q.punctures then q.reservedCount else 0) ≤
    q.region.plainSymbols.length * q.region.elements

variable {q : PlacementRequest}

/-- What is asked of the fields here is what the closed form of a placement asks
of them. -/
theorem Fitting.fits (h : q.Fitting) : Fits q q.ackCount q.reservedCount q.csi1Count where
  group_pos hne := Nat.pos_of_ne_zero fun hzero => by
    simp [ackCount, reservedCount, csi1Count, hzero] at hne
  type1 := h.type1
  ackBits_eq _ := (Nat.div_mul_cancel h.ackBits_dvd).symm
  reservedBits_eq _ := (Nat.div_mul_cancel h.reservedBits_dvd).symm
  csi1Bits_eq := (Nat.div_mul_cancel h.csi1Bits_dvd).symm
  ack_le := h.ack_le
  reserved_le := h.reserved_le
  ack_le_reserved hshort := Nat.div_le_div_right (h.ackBits_le hshort)
  csi1_le := h.csi1_le

/-- Fields that fit are placed exactly, unless a size on the way is beyond the
machine. -/
theorem ofRequest_exact (h : q.Fitting) :
    (ofRequest q = .error .arithmetic ∧ q.Beyond) ∨
      ∃ rows uses, Placement.rows q = .ok rows ∧ ofRequest q = .ok uses ∧ Exact q rows uses := by
  rcases h.fits.rows_eq with hrows | hfault
  · exact .inr ⟨_, _, hrows, by rw [ofRequest, hrows]; rfl, h.fits.exact⟩
  · exact .inl ⟨by rw [ofRequest, hfault.1]; rfl, hfault.2⟩

/-- Four symbols of a block, the second with reference signals; two elements are
reserved, and one of them is taken. -/
def shortRequest : PlacementRequest :=
  { modulation := .qpsk, layers := 1, ackPayload := 1, ackBits := 2, reservedBits := 4
    csi1Bits := 6
    region := { blocks := 1, firstSymbol := 0, symbolCount := 4, dmrsType := .type1
                dmrsMask := ⟨(Array.replicate 14 false).setIfInBounds 1 true, by decide⟩
                freeGroups := 2 } }

/-- Two elements are reserved and one of them replaces data; a report of three
elements keeps clear of both. -/
theorem ofRequest_exact_short :
    ∃ rows uses, Placement.rows shortRequest = .ok rows ∧ ofRequest shortRequest = .ok uses ∧
      Exact shortRequest rows uses ∧ uses.count .punctured = 1 ∧ uses.count .csiPart1 = 3 := by
  have hfitting : shortRequest.Fitting :=
    ⟨rfl, by decide, by decide, by decide, by decide, by decide, by decide, by decide⟩
  obtain ⟨-, hbeyond⟩ | ⟨rows, uses, hrows, huses, hexact⟩ := ofRequest_exact hfitting
  · exact absurd hbeyond (by unfold Beyond; decide)
  · exact ⟨rows, uses, hrows, huses, hexact, hexact.punctured_eq, hexact.csiPart1_eq⟩

/-- A report of one element, sent on so many layers that the bits of twelve
elements are no machine size. -/
def wideRequest : PlacementRequest :=
  { modulation := .qpsk, layers := 2 ^ 60, ackPayload := 0, ackBits := 0, reservedBits := 0
    csi1Bits := 2 ^ 61
    region := { blocks := 1, firstSymbol := 0, symbolCount := 1, dmrsType := .type1
                dmrsMask := ⟨Array.replicate 14 false, by decide⟩
                freeGroups := 2 } }

/-- The report fits, but the bits of the symbol that its element is chosen from
leave the machine sizes. -/
theorem not_placed_of_fitting :
    wideRequest.Fitting ∧ ofRequest wideRequest = .error .arithmetic :=
  ⟨⟨rfl, by decide, by decide, by decide, by decide, by decide, by decide, by decide⟩,
    by decide +kernel⟩

end PlacementRequest

end Uplink
