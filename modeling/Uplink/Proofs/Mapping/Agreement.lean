import Uplink.Proofs.Mapping.Writing
import Uplink.Proofs.Reuse.Buffer

/-!
# Reading what is mapped

- `ResourceGrid.readMasked_eq_ok`: what a mask reads.
- `DemodulationRequest.readPort`: the data elements of a port, symbol by symbol, as the receiver
  reads them.
- `readPort_of_write`: they are the symbols of the layer in their order.
-/

namespace Uplink

/-! ## Reading -/

/-- The elements of a mask are read in increasing order of subcarriers. -/
theorem ResourceGrid.readMasked_eq_ok {grid : ResourceGrid} {port symbol : Nat}
    {mask : Array Bool} {buffer : Array Complex} (hspans : grid.Spans mask.size port symbol)
    (hlimit : mask.size ≤ Size.limit)
    (hbuffer : buffer.size = ((List.range mask.size).filter (mask.getD · false)).length) :
    grid.readMasked buffer port symbol 0 mask =
      .ok (buffer.size, (((List.range mask.size).filter (mask.getD · false)).map
        (grid.elementD port symbol)).toArray) := by
  rw [readMasked_of_spans hspans hlimit (Nat.le_of_eq hbuffer.symm), hbuffer]
  simp [selected]

/-- A writing that is found to end without an error. -/
theorem Written.exists_ok {x : Checked Written}
    (h : x.toOption.map Written.error? = some none) : ∃ grid, x = .ok ⟨grid, none⟩ := by
  match x, h with
  | .ok ⟨grid, none⟩, _ => exact ⟨grid, rfl⟩

/-- Pieces that go on where the ones before have ended are one range. -/
theorem flatMap_consecutive {α : Type} (f : Nat → α) (count : Nat → Nat) (piece : Nat → List α)
    {times : List Nat}
    (h : ∀ earlier x later, times = earlier ++ x :: later →
      piece x = (List.range (count x)).map fun i => f ((earlier.map count).sum + i)) :
    times.flatMap piece = (List.range (times.map count).sum).map f := by
  induction times using List.reverseRecOn with
  | nil => rfl
  | append_singleton times x ih =>
    have hearlier := ih fun earlier y later hsplit =>
      h earlier y (later ++ [x]) (by rw [hsplit, List.append_assoc, List.cons_append])
    rw [List.flatMap_append, List.flatMap_singleton, hearlier, h times x [] rfl, List.map_append,
      List.sum_append, List.map_singleton, List.sum_singleton, List.range_add, List.map_append,
      List.map_map]
    rfl

namespace DemodulationRequest

/-- The data elements of a port, symbol by symbol: how many there are, and what
the receiver reads. -/
def readPort (d : DemodulationRequest) (grid : ResourceGrid) (port : Nat) :
    Checked (List (Nat × Array Complex)) :=
  (List.range' d.firstSymbol d.symbolCount).mapM fun symbol =>
    grid.readMasked (Array.replicate (d.dataPlaces symbol).length Complex.zero) port symbol 0
      (d.dataMask (d.dmrsMask.contains symbol))

/-! ## Agreement -/

variable {d : DemodulationRequest} {q : MappingRequest} {grid grid' : ResourceGrid}
  {symbols : Array Complex} {codeword : Bits} {symbol done layer port : Nat}

/-- The data elements of a symbol that the grid holds are read, with the
receiver's own mask. -/
theorem Observes.readMasked_eq_ok (h : d.Observes q) (hlimit : q.width < Size.limit)
    (hspans : grid.Spans q.width port symbol) :
    grid.readMasked (Array.replicate (d.dataPlaces symbol).length Complex.zero) port symbol 0
        (d.dataMask (d.dmrsMask.contains symbol)) =
      .ok (q.elementsOn symbol, ((q.dataSubcarriers (q.dmrsMask.contains symbol)).map
        (grid.elementD port symbol)).toArray) := by
  have hsize : (d.dataMask (d.dmrsMask.contains symbol)).size = q.width := by
    rw [size_dataMask, h.blockMask_eq]
    rfl
  have hplaces := h.dataPlaces_eq symbol
  have hread := grid.readMasked_eq_ok (hsize.symm ▸ hspans) (by omega)
    (Array.size_replicate : (Array.replicate (d.dataPlaces symbol).length Complex.zero).size =
      (d.dataPlaces symbol).length)
  rw [hread, Array.size_replicate, ← dataPlaces, hplaces]
  rfl

/-- They are symbols of the layer, one after the other. -/
theorem map_elementD_of_carries
    (h : q.Carries symbols grid symbol done) (hport : q.ports[layer]? = some port) :
    (q.dataSubcarriers (q.dmrsMask.contains symbol)).map (grid.elementD port symbol) =
      (List.range (q.elementsOn symbol)).map fun i =>
        symbols.getD ((done + i) * q.ports.length + layer) Complex.zero := by
  obtain ⟨-, -, hrow⟩ := h layer port hport
  refine List.ext_getElem (by rw [List.length_map, List.length_map, List.length_range]; rfl)
    fun i hi _ => ?_
  rw [List.length_map] at hi
  rw [List.getElem_map, List.getElem_map, List.getElem_range]
  exact hrow.data i _ (List.getElem?_eq_getElem hi)

/-- The receiver finds on the port of each layer the symbols of this layer in
their order and each of them once, on places without reference signals. All
other places of the allocation are empty. -/
theorem readPort_of_write (hobserves : d.Observes q) (hapart : q.KeepsApart)
    (hports : q.ports.Nodup) (h : q.write grid codeword = .ok ⟨grid', none⟩) :
    ∀ layer port, q.ports[layer]? = some port →
      (∃ blocks, d.readPort grid' port = .ok blocks ∧ (∀ b ∈ blocks, b.1 = b.2.size) ∧
        blocks.flatMap (·.2.toList) =
          (List.range (codeword.size / (q.modulation.order * q.ports.length))).map fun i =>
            q.modulation.symbolAt (Scrambling.scramble codeword q.rnti q.cellId)
              (i * q.ports.length + layer)) ∧
      (∀ symbol, q.dmrsMask.contains symbol = true →
        ∀ weights, DmrsWeights.ofLayer layer = .ok weights →
        ∀ k ∈ q.referenceSubcarriers weights.offset, k ∉ d.dataPlaces symbol) ∧
      ∀ symbol ∈ List.range' q.firstSymbol q.symbolCount, ∀ k < q.width,
        k ∉ d.dataPlaces symbol →
        (q.dmrsMask.contains symbol = true →
          ∀ weights, DmrsWeights.ofLayer layer = .ok weights →
          k ∉ q.referenceSubcarriers weights.offset) →
        grid'.elementD port symbol k = Complex.zero := by
  intro layer port hport
  obtain ⟨hpos, htotal, hcarries⟩ := MappingRequest.write_eq_ok hapart hports h
  have hlayer : layer < q.ports.length := (List.getElem?_eq_some_iff.mp hport).1
  refine ⟨?_, fun symbol honDmrs weights hweights k hk => ?_, fun symbol hsymbol k hk hdata
    hreference => ?_⟩
  · -- what is read on one symbol goes on where the symbol before has ended
    have hread := mapM_eq_ok
      (f := fun symbol => grid'.readMasked
        (Array.replicate (d.dataPlaces symbol).length Complex.zero) port symbol 0
        (d.dataMask (d.dmrsMask.contains symbol)))
      (g := fun symbol => (q.elementsOn symbol, ((q.dataSubcarriers
        (q.dmrsMask.contains symbol)).map (grid'.elementD port symbol)).toArray))
      (l := List.range' q.firstSymbol q.symbolCount) fun symbol hsymbol => by
        obtain ⟨earlier, later, hsplit⟩ := List.append_of_mem hsymbol
        obtain ⟨hlimit, hspans, -⟩ := hcarries earlier symbol later hsplit layer port hport
        exact hobserves.readMasked_eq_ok hlimit hspans
    refine ⟨_, by rw [readPort, hobserves.firstSymbol_eq, hobserves.symbolCount_eq]; exact hread,
      fun b hb => ?_, ?_⟩
    · obtain ⟨symbol, -, rfl⟩ := List.mem_map.mp hb
      rw [List.size_toArray, List.length_map]
      rfl
    · have htotal' : (List.map q.elementsOn (List.range' q.firstSymbol q.symbolCount)).sum =
          codeword.size / (q.modulation.order * q.ports.length) := by
        rw [← Nat.div_div_eq_div_mul, ← htotal, Nat.mul_div_cancel _ hpos]
      rw [List.flatMap_map, ← htotal']
      refine flatMap_consecutive
        (fun i => q.modulation.symbolAt (Scrambling.scramble codeword q.rnti q.cellId)
          (i * q.ports.length + layer)) q.elementsOn _ fun earlier symbol later hsplit => ?_
      show (q.dataSubcarriers (q.dmrsMask.contains symbol)).map (grid'.elementD port symbol) = _
      rw [map_elementD_of_carries (hcarries earlier symbol later hsplit) hport]
      refine List.map_congr_left fun i hi => ?_
      have hplace : ((earlier.map q.elementsOn).sum + i) * q.ports.length + layer <
          codeword.size / q.modulation.order := by
        rw [← htotal, hsplit, List.map_append, List.sum_append, List.map_cons, List.sum_cons]
        have hi := List.mem_range.mp hi
        rw [Nat.mul_comm]
        exact Nat.mul_add_lt_mul_of_lt_of_lt (by omega) hlayer
      rw [Buffer.getD_of_lt (by simpa using hplace), Array.getElem_map, Array.getElem_range]
  · rw [hobserves.dataPlaces_eq, honDmrs]
    exact q.not_mem_dataSubcarriers hapart hlayer hweights hk
  · obtain ⟨earlier, later, hsplit⟩ := List.append_of_mem hsymbol
    obtain ⟨-, -, hrow⟩ := hcarries earlier symbol later hsplit layer port hport
    rw [hobserves.dataPlaces_eq] at hdata
    exact hrow.empty k hk hdata hreference

/-- Two layers on two blocks with a gap between them, in two symbols, the first
of which has reference signals in one group. -/
def gappedMapping : MappingRequest :=
  { reference := ⟨⟨.khz15, 0, 0⟩, .normal, .type1, 0, false, 1⟩
    rnti := 1
    cellId := 0
    modulation := .qpsk
    blockMask := #[true, false, true]
    firstSymbol := 1
    symbolCount := 2
    dmrsMask := ⟨#[false, true, false], by decide⟩
    freeGroups := 1
    ports := [1, 0] }

/-- Its demodulation, on one port. -/
def gappedDemodulation : DemodulationRequest :=
  { rnti := 1
    cellId := 0
    blockMask := #[true, false, true]
    modulation := .qpsk
    firstSymbol := 1
    symbolCount := 2
    dmrsMask := ⟨#[false, true, false], by decide⟩
    dmrsType := .type1
    freeGroups := 1
    layers := 2
    ports := [0] }

/-- The layers are told apart on a grid of three blocks: 36 symbols for each of
them. -/
theorem readPort_of_write_gapped : ∃ grid', gappedMapping.write (ResourceGrid.zeros 2 3 3)
      (Array.replicate 144 1) = .ok ⟨grid', none⟩ ∧
    ∀ layer port, [1, 0][layer]? = some port →
      ∃ blocks, gappedDemodulation.readPort grid' port = .ok blocks ∧
        blocks.flatMap (·.2.toList) = (List.range 36).map fun i =>
          Modulation.qpsk.symbolAt (Scrambling.scramble (Array.replicate 144 1) 1 0)
            (i * 2 + layer) := by
  obtain ⟨grid', hwrite⟩ := Written.exists_ok (x := gappedMapping.write
    (ResourceGrid.zeros 2 3 3) (Array.replicate 144 1)) (by decide +kernel)
  refine ⟨grid', hwrite, fun layer port hport => ?_⟩
  obtain ⟨⟨blocks, hread, -, hvalues⟩, -⟩ := readPort_of_write (d := gappedDemodulation)
    (q := gappedMapping) ⟨rfl, rfl, rfl, rfl, rfl⟩ (.inr ⟨rfl, by decide⟩) (by decide) hwrite
    layer port hport
  rw [Array.size_replicate] at hvalues
  exact ⟨blocks, hread, hvalues⟩

end DemodulationRequest

end Uplink
