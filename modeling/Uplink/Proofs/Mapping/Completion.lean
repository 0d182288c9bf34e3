import Uplink.Proofs.Mapping.Writing
import Uplink.Proofs.Receiver.Estimation

/-!
# Writing completes

- `MappingRequest.Covered`: what is mapped lies in the grid.
- `MappingRequest.exists_writeSymbol`, `Covered.exists_write`: a symbol, and a codeword of the right
  length, is written without an error.
-/

namespace Uplink

/-- Every element of a codeword is sent. -/
theorem Scrambling.size_scramble (codeword : Bits) (rnti : Rnti) (cellId : UInt16) :
    (scramble codeword rnti cellId).size = codeword.size := by
  rw [scramble]
  refine Array.foldl_induction (motive := fun n (state : Bits × GoldSequence) => state.1.size = n)
    rfl fun i state hstate => ?_
  rw [Array.size_push, hstate]

namespace Written

variable {w : Written} {port symbol n : Nat} {values : Array Complex}

/-- A row that lies in the grid is written. -/
theorem exists_row (herror : w.error? = none) (hspans : w.grid.Spans values.size port symbol)
    (hlimit : values.size < Size.limit) :
    ∃ w', w.row port symbol values = .ok w' ∧ w'.error? = none ∧ w'.grid.SameExtent w.grid := by
  have hrange : w.grid.checkRange port symbol 0 values.size = .ok () := by
    rw [ResourceGrid.checkRange, if_neg (Nat.not_le_of_gt hspans.port_lt),
      if_neg (Nat.not_le_of_gt hspans.symbol_lt), if_neg (Nat.not_lt_of_ge hspans.length_le)]
  have hwrite : w.grid.write port symbol 0 values =
      .ok (.ok (w.grid.overwrite port symbol 0 values)) := by
    rw [ResourceGrid.write, Size.add_of_lt (by rwa [Nat.zero_add]), ok_bind, Nat.zero_add, hrange]
    rfl
  refine ⟨⟨w.grid.overwrite port symbol 0 values, none⟩, ?_, rfl, rfl, rfl, rfl⟩
  rw [row, herror, Option.isSome_none, if_neg Bool.false_ne_true, hwrite]
  obtain ⟨grid, error?⟩ := w
  obtain rfl : error? = none := herror
  rfl

/-- So are rows on several ports, since writing does not change what lies in the
grid. -/
theorem exists_rows {rows : List (Array Complex × Nat)} (herror : w.error? = none)
    (hlimit : n < Size.limit) (hrows : ∀ x ∈ rows, x.1.size = n ∧ w.grid.Spans n x.2 symbol) :
    ∃ w', rows.foldlM (fun (w : Written) x => w.row x.2 symbol x.1) w = .ok w' ∧
      w'.error? = none ∧ w'.grid.SameExtent w.grid := by
  refine foldlM_total
    (fun _ (w' : Written) => w'.error? = none ∧ w'.grid.SameExtent w.grid)
    ⟨herror, rfl, rfl, rfl⟩ ?_
  rintro seen x rest w₁ hsplit ⟨herror₁, hextent⟩
  obtain ⟨hsize, hspans⟩ := hrows x (by rw [hsplit]; exact List.mem_append_right _ (by simp))
  obtain ⟨w₂, hrow, herror₂, hextent₂⟩ := exists_row herror₁
    (hsize ▸ hextent.spans.mpr hspans) (hsize ▸ hlimit)
  exact ⟨w₂, hrow, herror₂, hextent₂.trans hextent⟩

end Written

namespace MappingRequest

/-- What is mapped lies in the grid, and reference signals take no place of
data. -/
structure Covered (q : MappingRequest) (grid : ResourceGrid) : Prop where
  dmrsType_eq : q.reference.dmrsType = .type1
  keepsApart : q.KeepsApart
  layers_pos : 0 < q.ports.length
  layers_le : q.ports.length ≤ 4
  ports : ∀ port ∈ q.ports, port < grid.ports
  symbols : q.firstSymbol + q.symbolCount ≤ grid.symbols
  blocks : q.blockMask.size ≤ grid.blocks
  -- sizes of the machine
  symbols_le : q.firstSymbol + q.symbolCount ≤ 14
  blocks_lt : 64 * (q.blockMask.size + 1) < Size.signedLimit

namespace Covered

variable {q : MappingRequest} {grid : ResourceGrid} {symbols : Array Complex} {codeword : Bits}
  {w : Written} {symbol layer : Nat}

theorem width_lt (h : q.Covered grid) : q.width < Size.limit := by
  have := h.blocks_lt
  have : Size.signedLimit < Size.limit := by decide
  rw [width, subcarriersPerBlock]
  omega

theorem spans (h : q.Covered grid) (hsymbol : symbol < q.firstSymbol + q.symbolCount) {port : Nat}
    (hport : port ∈ q.ports) : grid.Spans q.width port symbol where
  port_lt := h.ports port hport
  symbol_lt := Nat.lt_of_lt_of_le hsymbol h.symbols
  length_le := Nat.mul_le_mul_right _ h.blocks

/-- A row is laid out for every layer, as there are weights for each of them. -/
theorem exists_layerRow (h : q.Covered grid) (symbols : Array Complex) (done : Nat)
    (values : Option (Array Complex)) (hlayer : layer < q.ports.length) :
    ∃ row, q.layerRow symbols done values layer = .ok row ∧ row.size = q.width := by
  obtain ⟨row, hrow⟩ : ∃ row, q.layerRow symbols done values layer = .ok row := by
    cases values with
    | none => exact ⟨_, rfl⟩
    | some values =>
      obtain ⟨weights, hweights⟩ :=
        DmrsWeights.exists_ofLayer (Nat.lt_of_lt_of_le hlayer h.layers_le)
      rw [layerRow, hweights]
      exact ⟨_, rfl⟩
  exact ⟨row, hrow, (row_of_layerRow h.keepsApart hlayer hrow).1⟩

/-- A symbol is written, on all ports of the request. -/
theorem exists_writeSymbol (h : q.Covered grid) (symbols : Array Complex) (done : Nat)
    (hsymbol : symbol < q.firstSymbol + q.symbolCount) (herror : w.error? = none)
    (hextent : w.grid.SameExtent grid) :
    ∃ w', q.writeSymbol symbols (done, w) symbol = .ok (done + q.elementsOn symbol, w') ∧
      w'.error? = none ∧ w'.grid.SameExtent grid := by
  obtain ⟨values, hvalues⟩ : ∃ values, q.valuesOn symbol = .ok values := by
    have hsymbols := h.symbols_le
    obtain ⟨values, hvalues⟩ :=
      q.reference.exists_onSymbol (by omega : symbol < 16) h.blocks_lt
    rw [valuesOn, hvalues]
    split
    · exact ⟨_, rfl⟩
    · exact ⟨_, rfl⟩
  obtain ⟨rows, hrows, hsizes⟩ := exists_mapM_forall (fun row : Array Complex => row.size = q.width)
    (q.layerRow symbols done values) (List.range q.ports.length)
    fun layer hlayer => h.exists_layerRow symbols done values (List.mem_range.mp hlayer)
  have hplaced : ∀ x ∈ rows.zip q.ports, x.1.size = q.width ∧ w.grid.Spans q.width x.2 symbol :=
    fun x hx => ⟨hsizes.2 x.1 (List.of_mem_zip hx).1,
      hextent.spans.mpr (h.spans hsymbol (List.of_mem_zip hx).2)⟩
  obtain ⟨w', hwrite, herror', hextent'⟩ := Written.exists_rows herror h.width_lt hplaced
  refine ⟨w', ?_, herror', hextent'.trans hextent⟩
  rw [q.writeSymbol_eq symbols done symbol herror, hvalues, ok_bind, hrows, ok_bind, hwrite]
  rfl

/-- A codeword that fills the elements of the allocation is written. All
requirements of the computation are met on the way. -/
theorem exists_write (h : q.Covered grid)
    (hsize : codeword.size = ((List.range' q.firstSymbol q.symbolCount).map q.elementsOn).sum *
      (q.ports.length * q.modulation.order)) :
    ∃ grid', q.write grid codeword = .ok ⟨grid', none⟩ ∧ grid'.SameExtent grid := by
  have horder := q.modulation.order_pos
  have hsymbols := h.symbols_le
  have hlimit : 14 < Size.limit := by decide
  set times := List.range' q.firstSymbol q.symbolCount with htimes
  set elements := (times.map q.elementsOn).sum
  have hcount : codeword.size / q.modulation.order = elements * q.ports.length := by
    rw [hsize, ← Nat.mul_assoc, Nat.mul_div_cancel _ horder]
  have hgroup : 0 < q.modulation.order * q.ports.length := Nat.mul_pos horder h.layers_pos
  have hwhole : codeword.size % (q.modulation.order * q.ports.length) = 0 := by
    rw [hsize, Nat.mul_comm q.modulation.order, Nat.mul_mod_left]
  set scrambled := Scrambling.scramble codeword q.rnti q.cellId
  -- a modulation maps all bits, because they fill whole symbols
  have hmap : q.modulation.map scrambled (codeword.size / q.modulation.order) =
      .ok ((Array.range (codeword.size / q.modulation.order)).map
        (q.modulation.symbolAt scrambled)) := by
    have hlength : scrambled.size = codeword.size / q.modulation.order * q.modulation.order := by
      rw [Scrambling.size_scramble, hcount, hsize, Nat.mul_assoc]
    rw [Modulation.map, require_of (beq_iff_eq.mpr hlength), ok_bind]
    rfl
  set symbols := (Array.range (codeword.size / q.modulation.order)).map
    (q.modulation.symbolAt scrambled) with hsymbolsDef
  have hall : (times.flatMap fun l => q.dataSubcarriers (q.dmrsMask.contains l)).length *
      q.ports.length = symbols.size := by
    rw [List.length_flatMap, hsymbolsDef, Array.size_map, Array.size_range, hcount]
    rfl
  obtain ⟨⟨done, w⟩, hloop, herror, hextent⟩ := foldlM_total
    (f := q.writeSymbol symbols) (l := times) (b := (0, ⟨grid, none⟩))
    (fun _ (state : Nat × Written) => state.2.error? = none ∧ state.2.grid.SameExtent grid)
    ⟨rfl, rfl, rfl, rfl⟩ (by
      rintro seen symbol rest ⟨done, w⟩ hsplit ⟨herror, hextent⟩
      have hmem : symbol ∈ times := by rw [hsplit]; exact List.mem_append_right _ (by simp)
      obtain ⟨w', hwrite, hstate⟩ := h.exists_writeSymbol symbols done
        (List.mem_range'_1.mp hmem).2 herror hextent
      exact ⟨_, hwrite, hstate⟩)
  refine ⟨w.grid, ?_, hextent⟩
  rw [write, require_of (beq_iff_eq.mpr h.dmrsType_eq), ok_bind]
  dsimp only
  rw [Size.mod_of_pos hgroup, ok_bind, require_of (beq_iff_eq.mpr hwhole), ok_bind, hmap, ok_bind,
    Size.add_of_lt (by omega), ok_bind, ← htimes, require_of (beq_iff_eq.mpr hall), ok_bind, hloop]
  obtain ⟨found, error?⟩ := w
  obtain rfl : error? = none := herror
  rfl

end Covered

end MappingRequest

end Uplink
