import Uplink.Proofs.ResourceGrid

/-!
# Grids as stores

A grid serves writes of rows, writes of single elements and clearings, one after the other. Whatever
was asked of it, it holds at every element the last value that was stored there, and the next row is
written as a whole or refused as a whole.

- `ResourceGrid.Operation`, `step`, `run`: what a grid is asked to do; a refused write leaves it as
  it is.
- `ResourceGrid.Operation.stored?`, `lastStored`: what an operation stores at an element, and the
  last value of a sequence of them, without any grid being changed.
- `ResourceGrid.Shows`: every way of reading finds a given content.
- `ResourceGrid.IsArray`: the reads, and what the next write or clearing makes of the content.
- `ResourceGrid.isArray_run`: after any operations a grid is such an array.
-/

namespace Uplink

namespace ResourceGrid

/-! ## Operations -/

/-- What a grid is asked to do. -/
inductive Operation where
  | write (port symbol start : Nat) (values : Array Complex)
  | writeElement (port symbol subcarrier : Nat) (value : Complex)
  | clear

namespace Operation

/-- The answer of the grid. -/
def perform (grid : ResourceGrid) : Operation → Checked (Except GridError ResourceGrid)
  | write port symbol start values => grid.write port symbol start values
  | writeElement port symbol subcarrier value => grid.writeElement port symbol subcarrier value
  | clear => .ok (.ok grid.clear)

/-- The end of what is written is a machine size. -/
def Counted : Operation → Prop
  | write _ _ start values => start + values.size < Size.limit
  | writeElement _ _ subcarrier _ => subcarrier + 1 < Size.limit
  | clear => True

/-- What the operation stores at an element of a grid; a row that does not lie
in the grid stores nothing, not even the part of it that does. -/
def stored? (grid : ResourceGrid) (port symbol k : Nat) : Operation → Option Complex
  | write port' symbol' start values =>
    if grid.Spans (start + values.size) port' symbol' ∧ port' = port ∧ symbol' = symbol ∧
        start ≤ k then
      values[k - start]?
    else none
  | writeElement port' symbol' subcarrier value =>
    if grid.Contains port' symbol' subcarrier ∧ port' = port ∧ symbol' = symbol ∧
        subcarrier = k then
      some value
    else none
  | clear => some Complex.zero

end Operation

/-- The grid after an operation. -/
def step (grid : ResourceGrid) (operation : Operation) : Checked ResourceGrid := do
  match ← operation.perform grid with
  | .ok later => return later
  | .error _ => return grid

/-- The grid after operations in their order. -/
def run (grid : ResourceGrid) (operations : List Operation) : Checked ResourceGrid :=
  operations.foldlM step grid

/-- The last value that operations on a new grid store at an element; zero if
there is none. -/
def lastStored (grid : ResourceGrid) (operations : List Operation) (port symbol k : Nat) :
    Complex :=
  (operations.reverse.findSome? (·.stored? grid port symbol k)).getD Complex.zero

/-! ## Arrays -/

/-- Every way of reading finds the content. -/
structure Shows (grid : ResourceGrid) (content : Nat → Nat → Nat → Complex) : Prop where
  element : ∀ {port symbol k}, grid.Contains port symbol k →
    grid.element port symbol k = .ok (content port symbol k)
  range : ∀ {port symbol start length}, grid.Spans (start + length) port symbol →
    grid.readRange length port symbol start =
      .ok (Array.ofFn fun i : Fin length => content port symbol (start + i))
  /-- The selected elements are packed in increasing order, and the rest of the buffer stays. -/
  masked : ∀ {port symbol start} {mask : Array Bool} {buffer : Array Complex},
    (∀ k ∈ selected mask, grid.Contains port symbol (start + k)) →
    (selected mask).length ≤ buffer.size →
    grid.readMasked buffer port symbol start mask =
      .ok ((selected mask).length,
        ((selected mask).map fun k => content port symbol (start + k)).toArray ++
          buffer.extract (selected mask).length buffer.size)

/-- A content with the elements from `start` on replaced. -/
def replaced (content : Nat → Nat → Nat → Complex) (port symbol start : Nat)
    (values : Array Complex) : Nat → Nat → Nat → Complex :=
  fun port' symbol' k =>
    if port = port' ∧ symbol = symbol' ∧ start ≤ k ∧ k < start + values.size then
      values.getD (k - start) Complex.zero
    else content port' symbol' k

/-- A grid with the content, whose next write is done as a whole or refused as a
whole. -/
structure IsArray (grid : ResourceGrid) (content : Nat → Nat → Nat → Complex) : Prop where
  shows : grid.Shows content
  /-- Exactly the rows that lie in the grid are written. -/
  written_iff : ∀ port symbol start values, start + values.size < Size.limit →
    ((∃ later, grid.write port symbol start values = .ok (.ok later)) ↔
      port < grid.ports ∧ symbol < grid.symbols ∧ start + values.size ≤ grid.subcarriers)
  /-- A row replaces its own elements and no other. -/
  written : ∀ port symbol start values later,
    grid.write port symbol start values = .ok (.ok later) →
      later.SameExtent grid ∧ later.Shows (replaced content port symbol start values)
  port_refused : ∀ port symbol start values, start + values.size < Size.limit →
    grid.ports ≤ port →
    grid.write port symbol start values = .ok (.error (.invalidPort port grid.ports))
  symbol_refused : ∀ port symbol start values, start + values.size < Size.limit →
    port < grid.ports → grid.symbols ≤ symbol →
    grid.write port symbol start values = .ok (.error (.invalidSymbol symbol grid.symbols))
  subcarriers_refused : ∀ port symbol start values, start + values.size < Size.limit →
    port < grid.ports → symbol < grid.symbols → grid.subcarriers < start + values.size →
    grid.write port symbol start values =
      .ok (.error (.invalidSubcarrier start (start + values.size) grid.subcarriers))
  /-- A refused row changes nothing. -/
  kept : ∀ port symbol start values e, grid.write port symbol start values = .ok (.error e) →
    grid.step (.write port symbol start values) = .ok grid
  cleared : grid.clear.SameExtent grid ∧ grid.clear.Shows fun _ _ _ => Complex.zero

variable {grid later start : ResourceGrid} {operation : Operation} {operations : List Operation}
  {content : Nat → Nat → Nat → Complex} {port symbol first k : Nat} {values : Array Complex}

/-! ## One write -/

theorem write_eq (hlimit : first + values.size < Size.limit) :
    grid.write port symbol first values =
      .ok ((grid.checkRange port symbol first (first + values.size)).map
        fun _ => grid.overwrite port symbol first values) := by
  rw [write, Size.add_of_lt hlimit, ok_bind]
  cases grid.checkRange port symbol first (first + values.size) with
  | error e => rfl
  | ok _ => rfl

theorem write_of_not_spans (hlimit : first + values.size < Size.limit)
    (h : ¬ grid.Spans (first + values.size) port symbol) :
    ∃ e, grid.write port symbol first values = .ok (.error e) := by
  rw [write_eq hlimit]
  cases hcheck : grid.checkRange port symbol first (first + values.size) with
  | error e => exact ⟨e, rfl⟩
  | ok _ => exact absurd (checkRange_eq_ok_iff.mp hcheck) h

theorem step_of_written (h : operation.perform grid = .ok (.ok later)) :
    grid.step operation = .ok later := by
  rw [step, h]
  rfl

theorem step_of_refused {e : GridError} (h : operation.perform grid = .ok (.error e)) :
    grid.step operation = .ok grid := by
  rw [step, h]
  rfl

theorem elementD_clear : grid.clear.elementD port symbol k = Complex.zero := by
  rw [elementD, clear, zeros, Array.getD_eq_getD_getElem?, Array.getElem?_replicate]
  split <;> rfl

/-! ## One operation -/

/-- A row of the grid stores its values at its own elements. -/
theorem stored?_write (h : grid.Spans (first + values.size) port symbol) {port' symbol' : Nat} :
    ((Operation.write port symbol first values).stored? grid port' symbol' k).getD
        (content port' symbol' k) = replaced content port symbol first values port' symbol' k := by
  rw [Operation.stored?, replaced]
  by_cases hrow : port = port' ∧ symbol = symbol' ∧ first ≤ k
  · rw [if_pos ⟨h, hrow⟩]
    by_cases hk : k < first + values.size
    · rw [if_pos ⟨hrow.1, hrow.2.1, hrow.2.2, hk⟩, Array.getElem?_eq_getElem (by omega),
        Option.getD_some, Buffer.getD_of_lt]
    · rw [if_neg fun h => hk h.2.2.2, Array.getElem?_eq_none (by omega), Option.getD_none]
  · rw [if_neg fun h => hrow h.2, if_neg fun h => hrow ⟨h.1, h.2.1, h.2.2.1⟩, Option.getD_none]

/-- One element is a row of one element. -/
theorem stored?_writeElement {value : Complex} {port' symbol' : Nat} :
    (Operation.writeElement port symbol first value).stored? grid port' symbol' k =
      (Operation.write port symbol first #[value]).stored? grid port' symbol' k := by
  have hspans : grid.Contains port symbol first ↔ grid.Spans (first + 1) port symbol :=
    ⟨fun h => ⟨h.1, h.2.1, h.2.2⟩, fun h => h.contains (Nat.lt_succ_self _)⟩
  simp only [Operation.stored?, hspans, List.size_toArray, List.length_cons, List.length_nil,
    Nat.zero_add]
  by_cases hrow : grid.Spans (first + 1) port symbol ∧ port = port' ∧ symbol = symbol' ∧ first ≤ k
  · obtain ⟨hin, hport, hsymbol, hle⟩ := hrow
    rw [if_pos (c := _ ∧ _ ∧ _ ∧ first ≤ k) ⟨hin, hport, hsymbol, hle⟩]
    by_cases hk : first = k
    · rw [if_pos ⟨hin, hport, hsymbol, hk⟩, hk, Nat.sub_self]
      rfl
    · rw [if_neg fun h => hk h.2.2.2, Array.getElem?_eq_none]
      simp only [List.size_toArray, List.length_cons, List.length_nil]
      omega
  · rw [if_neg (c := _ ∧ _ ∧ _ ∧ first ≤ k) hrow,
      if_neg fun h => hrow ⟨h.1, h.2.1, h.2.2.1, Nat.le_of_eq h.2.2.2⟩]

theorem exists_step_write (hlimit : first + values.size < Size.limit) :
    ∃ later, grid.step (.write port symbol first values) = .ok later ∧ later.SameExtent grid ∧
      ∀ port' symbol' k, grid.Contains port' symbol' k → later.elementD port' symbol' k =
        ((Operation.write port symbol first values).stored? grid port' symbol' k).getD
          (grid.elementD port' symbol' k) := by
  by_cases hrow : grid.Spans (first + values.size) port symbol
  · refine ⟨_, step_of_written (write_of_spans hlimit hrow), .overwrite _ _ _ _ _,
      fun port' symbol' k hin => ?_⟩
    rw [elementD_overwrite hin hrow.symbol_lt hrow.length_le, stored?_write hrow]
    rfl
  · obtain ⟨e, hrefused⟩ := write_of_not_spans hlimit hrow
    refine ⟨_, step_of_refused hrefused, .refl _, fun port' symbol' k _ => ?_⟩
    rw [Operation.stored?, if_neg fun h => hrow h.1, Option.getD_none]

/-- An operation changes the elements at which it stores a value, and no other.
-/
theorem exists_step (hcounted : operation.Counted) :
    ∃ later, grid.step operation = .ok later ∧ later.SameExtent grid ∧
      ∀ port symbol k, grid.Contains port symbol k →
        later.elementD port symbol k =
          (operation.stored? grid port symbol k).getD (grid.elementD port symbol k) := by
  cases operation with
  | write port symbol first values => exact exists_step_write hcounted
  | writeElement port symbol subcarrier value =>
    simp only [stored?_writeElement]
    exact exists_step_write hcounted
  | clear => exact ⟨_, step_of_written rfl, .clear _, fun _ _ _ _ => elementD_clear⟩

/-! ## Sequences of operations -/

theorem SameExtent.stored?_eq (h : later.SameExtent grid) :
    operation.stored? later port symbol k = operation.stored? grid port symbol k := by
  cases operation <;> simp only [Operation.stored?, h.spans, h.contains]

theorem lastStored_append : start.lastStored (operations ++ [operation]) port symbol k =
    (operation.stored? start port symbol k).getD (start.lastStored operations port symbol k) := by
  rw [lastStored, List.reverse_append, List.reverse_singleton, List.singleton_append,
    List.findSome?_cons]
  cases operation.stored? start port symbol k with
  | none => rfl
  | some value => rfl

/-- Every element holds the last value that was stored there. -/
theorem exists_run (hzero : ∀ port symbol k, start.elementD port symbol k = Complex.zero)
    (hcounted : ∀ operation ∈ operations, operation.Counted) :
    ∃ grid, start.run operations = .ok grid ∧ grid.SameExtent start ∧
      ∀ port symbol k, start.Contains port symbol k →
        grid.elementD port symbol k = start.lastStored operations port symbol k := by
  refine foldlM_total (f := step) (b := start) (fun done grid => grid.SameExtent start ∧
    ∀ port symbol k, start.Contains port symbol k →
      grid.elementD port symbol k = start.lastStored done port symbol k)
    ⟨.refl _, fun port symbol k _ => hzero port symbol k⟩ ?_
  rintro done operation rest grid hsplit ⟨hextent, hheld⟩
  obtain ⟨later, hstep, hlater, hstored⟩ :=
    @exists_step grid operation (hcounted operation (by rw [hsplit]; simp))
  refine ⟨later, hstep, hlater.trans hextent, fun port symbol k hin => ?_⟩
  rw [hstored port symbol k (hextent.contains.mpr hin), hextent.stored?_eq,
    hheld port symbol k hin, lastStored_append]

/-! ## Contents -/

/-- What a grid holds is what every way of reading finds: single elements,
ranges and masked rows. -/
theorem shows_of_elementD (hlimit : grid.subcarriers < Size.limit)
    (h : ∀ port symbol k, grid.Contains port symbol k →
      grid.elementD port symbol k = content port symbol k) : grid.Shows content where
  element := fun hin => by rw [element_of_contains hin, h _ _ _ hin]
  range := fun {port symbol start length} hrow => by
    have hle := hrow.length_le
    rw [readRange_of_spans (by omega) hrow]
    congr 2
    funext i
    exact h _ _ _ (hrow.contains (by omega))
  masked := fun {port symbol start mask buffer} hin hbuffer => by
    rw [readMasked_of_contains (fun k hk => ⟨hin k hk, Nat.lt_trans (hin k hk).2.2 hlimit⟩) hbuffer,
      List.map_congr_left fun k hk => h _ _ _ (hin k hk)]

/-- A grid that holds the content is an array with it. Each field of the law is
one operation, accepted or refused. -/
theorem isArray_of_elementD (hlimit : grid.subcarriers < Size.limit)
    (h : ∀ port symbol k, grid.Contains port symbol k →
      grid.elementD port symbol k = content port symbol k) : grid.IsArray content where
  shows := shows_of_elementD hlimit h
  written_iff := fun port symbol start values hcounted => by
    constructor
    · rintro ⟨later, hwrite⟩
      obtain ⟨-, hrow, -⟩ := write_eq_ok hwrite
      exact ⟨hrow.port_lt, hrow.symbol_lt, hrow.length_le⟩
    · rintro ⟨hport, hsymbol, hle⟩
      exact ⟨_, write_of_spans hcounted ⟨hport, hsymbol, hle⟩⟩
  -- each element is the one that is written there or the one it was
  written := fun port symbol start values later hwrite => by
    obtain ⟨-, hrow, rfl⟩ := write_eq_ok hwrite
    refine ⟨.overwrite _ _ _ _ _, shows_of_elementD hlimit fun port' symbol' k hin => ?_⟩
    have hin : grid.Contains port' symbol' k := hin
    rw [elementD_overwrite hin hrow.symbol_lt hrow.length_le, h _ _ _ hin]
    rfl
  port_refused := fun port symbol start values hcounted hport => by
    rw [write_eq hcounted, checkRange, if_pos hport]
    rfl
  symbol_refused := fun port symbol start values hcounted hport hsymbol => by
    rw [write_eq hcounted, checkRange, if_neg (Nat.not_le.mpr hport), if_pos hsymbol]
    rfl
  subcarriers_refused := fun port symbol start values hcounted hport hsymbol hstop => by
    rw [write_eq hcounted, checkRange, if_neg (Nat.not_le.mpr hport),
      if_neg (Nat.not_le.mpr hsymbol), if_pos hstop]
    rfl
  kept := fun port symbol start values e hrefused => step_of_refused hrefused
  cleared := ⟨.clear _, shows_of_elementD hlimit fun _ _ _ _ => elementD_clear⟩

/-- A grid that is created holds zeros, and its subcarriers can be counted. -/
theorem create_eq_ok {ports symbols blocks : Nat} (h : create ports symbols blocks = .ok grid) :
    grid = zeros ports symbols blocks ∧ grid.subcarriers < Size.limit := by
  obtain ⟨n, hmul, h⟩ := bind_eq_ok.mp h
  obtain ⟨-, -, h⟩ := bind_eq_ok.mp h
  cases h
  exact ⟨rfl, (Size.mul_eq_ok.mp hmul).1⟩

/-- After any writes and clearings a grid is an array that holds at every
element the last value stored there, or zero. -/
theorem isArray_run {ports symbols blocks : Nat} {start : ResourceGrid}
    (hcreate : create ports symbols blocks = .ok start) {operations : List Operation}
    (hcounted : ∀ operation ∈ operations, operation.Counted) :
    ∃ grid, start.run operations = .ok grid ∧
      grid.ports = ports ∧ grid.symbols = symbols ∧ grid.blocks = blocks ∧
      grid.IsArray (start.lastStored operations) := by
  obtain ⟨rfl, hlimit⟩ := create_eq_ok hcreate
  have hzero : ∀ port symbol k,
      (zeros ports symbols blocks).elementD port symbol k = Complex.zero :=
    fun port symbol k => @elementD_clear (zeros ports symbols blocks) port symbol k
  obtain ⟨grid, hrun, hextent, hheld⟩ := exists_run hzero hcounted
  refine ⟨grid, hrun, hextent.ports_eq, hextent.symbols_eq, hextent.blocks_eq,
    isArray_of_elementD (hextent.subcarriers_eq ▸ hlimit) fun port symbol k hin => ?_⟩
  exact hheld port symbol k (hextent.contains.mp hin)

/-- A row, a row that runs over the edge, and an element that replaces one of
the first row. The second row is refused as a whole. -/
theorem isArray_run_overlapping :
    ∃ grid, (zeros 1 2 1).run [.write 0 1 10 #[⟨1, 0⟩, ⟨2, 0⟩],
        .write 0 1 10 #[⟨3, 0⟩, ⟨3, 0⟩, ⟨3, 0⟩], .writeElement 0 1 11 ⟨4, 0⟩] = .ok grid ∧
      grid.element 0 1 10 = .ok ⟨1, 0⟩ ∧ grid.element 0 1 11 = .ok ⟨4, 0⟩ ∧
      grid.element 0 0 11 = .ok Complex.zero := by
  have hcreate : create 1 2 1 = .ok (zeros 1 2 1) := rfl
  have hcounted : ∀ operation ∈ ([.write 0 1 10 #[⟨1, 0⟩, ⟨2, 0⟩],
      .write 0 1 10 #[⟨3, 0⟩, ⟨3, 0⟩, ⟨3, 0⟩], .writeElement 0 1 11 ⟨4, 0⟩] : List Operation),
      operation.Counted := by
    intro operation hmem
    simp only [List.mem_cons, List.not_mem_nil, or_false] at hmem
    rcases hmem with rfl | rfl | rfl
    · show 10 + 2 < Size.limit
      decide
    · show 10 + 3 < Size.limit
      decide
    · show 11 + 1 < Size.limit
      decide
  obtain ⟨grid, hrun, hports, hsymbols, hblocks, harray⟩ := isArray_run hcreate hcounted
  have hin : ∀ {symbol k}, symbol < 2 → k < 12 → grid.Contains 0 symbol k := fun hs hk =>
    ⟨hports ▸ Nat.one_pos, hsymbols ▸ hs, by rw [subcarriers, hblocks]; exact hk⟩
  refine ⟨grid, hrun, ?_, ?_, ?_⟩
  · rw [harray.shows.element (hin (by decide) (by decide))]
    rfl
  · rw [harray.shows.element (hin (by decide) (by decide))]
    rfl
  · rw [harray.shows.element (hin (by decide) (by decide))]
    rfl

end ResourceGrid

end Uplink
