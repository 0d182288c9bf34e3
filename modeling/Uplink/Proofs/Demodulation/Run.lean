import Uplink.Proofs.Demodulation.Elements
import Uplink.Proofs.Demodulation.SoftBits
import Uplink.Proofs.Receiver.Estimation

/-!
# Demodulation completes

- `DemodulationRequest.Covered`: the elements of a request lie in the grid and in the estimate.
- `DemodulationRequest.exists_receive`: every symbol gives the soft bits of its data elements.
- `DemodulationRequest.exists_run`: so do all symbols, one block after the other, whoever takes the
  blocks; what is found on the way does not depend on who that is.
-/

namespace Uplink

namespace DemodulationRequest

variable {q : DemodulationRequest} {grid : ResourceGrid} {estimate : ChannelEstimate}

/-- Soft bits of an element on all layers. -/
def group (q : DemodulationRequest) : Nat := q.layers * q.modulation.order

/-- The elements of a request lie in the grid and in the estimate. -/
structure Covered (q : DemodulationRequest) (grid : ResourceGrid) (estimate : ChannelEstimate) :
    Prop where
  dmrsType_eq : q.dmrsType = .type1
  layers_pos : 1 ≤ q.layers
  layers_le : q.layers ≤ maxPorts
  ports_pos : 1 ≤ q.ports.length
  ports_le : q.ports.length ≤ maxPorts
  complete : estimate.Complete
  layers_le_dims : q.layers ≤ estimate.dims.layers
  ports_le_dims : q.ports.length ≤ estimate.dims.ports
  symbols_le_dims : q.firstSymbol + q.symbolCount ≤ estimate.dims.symbols
  blocks_le_dims : q.blockMask.size ≤ estimate.dims.blocks
  ports : ∀ port ∈ q.ports, port < grid.ports
  symbols : q.firstSymbol + q.symbolCount ≤ grid.symbols
  blocks : q.blockMask.size ≤ grid.blocks
  -- sizes of the machine
  symbols_lt : q.firstSymbol + q.symbolCount < Size.limit
  subcarriers_lt : q.blockMask.size * subcarriersPerBlock < Size.limit

/-! ## One symbol -/

variable {symbol : Nat}

/-- An element on a subcarrier of the estimate is equalized to one symbol on
each layer. Only the sizes matter here: the equalizer takes any values. -/
theorem exists_equalizeElement (q : DemodulationRequest) {rows : Array (Array (Array Complex))}
    {k : Nat} (hrows : ∀ layers ∈ rows, ∀ row ∈ layers, k < row.size) (noise : Array Float32)
    (received : Array (Array Complex)) (i : Nat) :
    ∃ symbols, q.equalizeElement rows noise received i k = .ok symbols ∧
      symbols.size = q.layers := by
  -- each row of the estimate has an entry at `k`, so reading the channel cannot fail
  obtain ⟨channel, hchannel, -⟩ := exists_mapM_array
    (fun layers : Array (Array Complex) => layers.mapM (Buffer.read · k)) rows
    (fun layers hlayers => by
      obtain ⟨values, hvalues, -⟩ := exists_mapM_array (Buffer.read · k) layers
        (fun row hrow => ⟨_, Buffer.read_of_lt (hrows layers hlayers row hrow)⟩)
      exact ⟨values, hvalues⟩)
  rw [equalizeElement, hchannel]
  exact ⟨_, rfl, Equalizer.size_equalize _ _ _ _⟩

/-- The rows of a symbol's estimate exist for every port and layer of the
request, and each one reaches over the subcarriers of the estimate. -/
theorem Covered.exists_rows (h : q.Covered grid estimate)
    (hsymbol : symbol < q.firstSymbol + q.symbolCount) {ports : Nat}
    (hports : ports = q.ports.length) :
    ∃ rows, ((Array.range ports).mapM fun port =>
        (Array.range q.layers).mapM (estimate.row symbol port)) = .ok rows ∧
      ∀ layers ∈ rows, ∀ row ∈ layers, row.size = estimate.dims.subcarriers := by
  have hlayers := h.layers_le_dims
  have hdims := h.ports_le_dims
  have hsymbols := h.symbols_le_dims
  obtain ⟨rows, hrows, -, hall⟩ := exists_mapM_array_forall
    (fun layers => ∀ row ∈ layers, row.size = estimate.dims.subcarriers)
    (fun port => (Array.range q.layers).mapM (estimate.row symbol port)) (Array.range ports)
    (fun port hport => by
      have hport := Array.mem_range.mp hport
      obtain ⟨layers, hfound, -, hall⟩ := exists_mapM_array_forall
        (fun row => row.size = estimate.dims.subcarriers) (estimate.row symbol port)
        (Array.range q.layers) (fun layer hlayer => by
          have hlayer := Array.mem_range.mp hlayer
          exact h.complete.exists_row (by omega) (by omega) (by omega))
      exact ⟨layers, hfound, hall⟩)
  exact ⟨rows, hrows, hall⟩

/-- The elements of a symbol are equalized: each one is read from the grid and
has an estimate, and gives one symbol for each layer. -/
theorem Covered.exists_equalizeSymbol (h : q.Covered grid estimate) (noise : Array Float32)
    (hsymbol : symbol < q.firstSymbol + q.symbolCount) {onDmrs : Bool} {subcarriers : Array Nat}
    (hsubcarriers : subcarriers.toList =
      (List.range (q.dataMask onDmrs).size).filter ((q.dataMask onDmrs).getD · false)) :
    ∃ symbols, q.equalizeSymbol grid estimate noise symbol (q.dataMask onDmrs) subcarriers =
        .ok symbols ∧ symbols.size = subcarriers.size * q.layers := by
  have hsize := q.size_dataMask onDmrs
  have hblocks := Nat.mul_le_mul_right subcarriersPerBlock h.blocks
  have hdims := Nat.mul_le_mul_right subcarriersPerBlock h.blocks_le_dims
  have hsymbols := h.symbols
  have hlimit := h.subcarriers_lt
  have hroom : ((List.range (q.dataMask onDmrs).size).filter
      ((q.dataMask onDmrs).getD · false)).length ≤
        (Array.replicate subcarriers.size Complex.zero).size := by
    rw [Array.size_replicate, ← hsubcarriers, Array.length_toList]
  unfold equalizeSymbol
  refine exists_bind (fun received : Array (Array Complex) => received.size = q.ports.toArray.size)
    (exists_mapM_array _ _ fun port hport => ?_) fun received hcount => ?_
  · -- every port of the request has the symbol in the grid, over the whole mask
    have hspans : grid.Spans (q.dataMask onDmrs).size port symbol :=
      ⟨h.ports port (by simpa using hport), Nat.lt_of_lt_of_le hsymbol hsymbols, hsize ▸ hblocks⟩
    rw [ResourceGrid.readMasked_of_spans hspans (hsize ▸ hlimit.le) hroom]
    exact ⟨_, rfl⟩
  refine exists_bind _ (h.exists_rows hsymbol (hcount.trans List.size_toArray)) fun rows hall => ?_
  have hlength : subcarriers.toList.zipIdx.length = subcarriers.size := by
    rw [List.length_zipIdx, Array.length_toList]
  rw [← Array.foldlM_toList, Array.toList_zipIdx, ← hlength]
  -- along the elements, what has been collected is one symbol a layer for each one seen
  refine foldlM_total (fun seen (symbols : Array Equalized) =>
    symbols.size = seen.length * q.layers) (Nat.zero_mul _).symm ?_
  rintro seen ⟨k, i⟩ rest symbols hsplit hseen
  have hk : k ∈ subcarriers.toList :=
    List.fst_mem_of_mem_zipIdx (x := (k, i)) (by rw [hsplit]; simp)
  rw [hsubcarriers] at hk
  have hk := List.mem_range.mp (List.mem_filter.mp hk).1
  have hinside : ∀ layers ∈ rows, ∀ row ∈ layers, k < row.size := by
    intro layers hlayers row hrow
    rw [hall layers hlayers row hrow]
    exact Nat.lt_of_lt_of_le hk (hsize ▸ hdims)
  obtain ⟨found, hfound, hfoundSize⟩ := q.exists_equalizeElement hinside noise received i
  dsimp only
  rw [hfound]
  refine ⟨_, rfl, ?_⟩
  rw [Array.size_append, hseen, hfoundSize, List.length_append, Nat.add_mul]
  exact congrArg (seen.length * q.layers + ·) (Nat.one_mul _).symm

/-- A symbol gives the soft bits of its data elements, whatever is received: the
demapper's soft bits are in reach, so the sequence can be taken off them. -/
theorem Covered.exists_receive (h : q.Covered grid estimate) (noise : Array Float32)
    (hsymbol : symbol < q.firstSymbol + q.symbolCount) (progress : Progress) :
    ∃ softBits progress',
      q.receive grid estimate noise symbol progress = .ok (softBits, progress') ∧
      softBits.size = q.elementsOn symbol * q.group := by
  set mask := q.dataMask (q.dmrsMask.contains symbol) with hmask
  set subcarriers := (Array.range mask.size).filter (mask.getD · false) with hdef
  have hsubcarriers : subcarriers.toList = (List.range mask.size).filter (mask.getD · false) := by
    rw [hdef, Array.toList_filter, Array.toList_range]
  have hcount : subcarriers.size = q.elementsOn symbol := by
    rw [elementsOn, dataPlaces, ← hmask, ← hsubcarriers, Array.length_toList]
  rw [receive]
  dsimp only
  rw [← hmask, ← hdef]
  by_cases hempty : subcarriers.isEmpty = true
  · rw [if_pos hempty]
    refine ⟨_, _, rfl, ?_⟩
    rw [← hcount, Array.isEmpty_iff_size_eq_zero.mp hempty, Nat.zero_mul]
    rfl
  · -- with data elements, they are equalized, demapped and descrambled in turn
    obtain ⟨symbols, hsymbols, hsize⟩ :=
      h.exists_equalizeSymbol noise hsymbol hsubcarriers
    obtain ⟨out, scrambling, hout, houtSize⟩ := progress.scrambling.exists_descramble
      (q.modulation.inReach_demapAll (symbols.map (·.symbol)) (symbols.map (·.noise)))
    rw [if_neg hempty, hsymbols, ok_bind, hout]
    refine ⟨_, _, rfl, ?_⟩
    rw [houtSize, Modulation.size_demapAll _ (by rw [Array.size_map, Array.size_map]),
      Array.size_map, hsize, hcount, group, Nat.mul_assoc]

/-! ## All symbols -/

variable {σ : Type} (consume : σ → Array SoftBit → Checked σ)

/-- The symbols are received one after the other. With every block, `consume`
takes the elements of its symbol; `motive` says what holds once so many elements
have been taken. -/
theorem Covered.exists_receiveAll (h : q.Covered grid estimate) (noise : Array Float32)
    {total : Nat} (motive : Nat → σ → Prop)
    (step : ∀ {n : Nat} {s : σ} {block : Array SoftBit} {elements : Nat}, motive n s →
      block.size = elements * q.group → n + elements ≤ total →
      ∃ s', consume s block = .ok s' ∧ motive (n + elements) s') :
    ∀ {count first n : Nat} {s : σ} (progress : Progress),
      first + count ≤ q.firstSymbol + q.symbolCount →
      n + ((List.range' first count).map q.elementsOn).sum ≤ total → motive n s →
      ∃ s' progress', q.receiveAll grid estimate noise consume first count (s, progress) =
          .ok (s', progress') ∧
        motive (n + ((List.range' first count).map q.elementsOn).sum) s' ∧
        q.receiveAll grid estimate noise (fun _ _ => .ok ()) first count ((), progress) =
          .ok ((), progress')
  | 0, first, n, s, progress, _, _, hs => ⟨s, progress, rfl, hs, rfl⟩
  | count + 1, first, n, s, progress, hfirst, htotal, hs => by
    rw [List.range'_succ, List.map_cons, List.sum_cons] at htotal ⊢
    have hin : first < q.firstSymbol + q.symbolCount := by omega
    obtain ⟨softBits, progress₁, hreceive, hsize⟩ := h.exists_receive noise hin progress
    -- a symbol without data has no block
    obtain ⟨s₁, hconsume, hs₁⟩ : ∃ s₁,
        (if softBits.isEmpty then .ok s else consume s softBits) = .ok s₁ ∧
          motive (n + q.elementsOn first) s₁ := by
      split
      case isTrue hempty =>
        have hzero : q.elementsOn first = 0 := by
          rw [Array.isEmpty_iff_size_eq_zero.mp hempty] at hsize
          refine (Nat.mul_eq_zero.mp hsize.symm).resolve_right (Nat.ne_of_gt ?_)
          exact Nat.mul_pos h.layers_pos q.modulation.order_pos
        exact ⟨s, rfl, by rwa [hzero]⟩
      case isFalse => exact step hs hsize (by omega)
    have hrange : first + 1 + count ≤ q.firstSymbol + q.symbolCount := by omega
    obtain ⟨s', progress', hrest, hs', htrivial⟩ :=
      exists_receiveAll h noise motive step progress₁ hrange (by omega) hs₁
    refine ⟨s', progress', ?_, by rwa [← Nat.add_assoc], ?_⟩
    · rw [receiveAll, hreceive, ok_bind]
      dsimp only
      split at hconsume
      case isTrue hempty => rw [if_pos hempty, hconsume, ok_bind, hrest]
      case isFalse hempty => rw [if_neg hempty, hconsume, ok_bind, hrest]
    · rw [receiveAll, hreceive]
      simp only [ite_self, ok_bind, htrivial]

/-- The demodulation completes, and its statistics are the same whoever takes
the blocks. `motive` is kept by the consumer as elements are handed to it. -/
theorem Covered.exists_run (h : q.Covered grid estimate) (motive : Nat → σ → Prop) {start : σ}
    (hstart : motive 0 start)
    (step : ∀ {n : Nat} {s : σ} {block : Array SoftBit} {elements : Nat}, motive n s →
      block.size = elements * q.group →
      n + elements ≤ ((List.range' q.firstSymbol q.symbolCount).map q.elementsOn).sum →
      ∃ s', consume s block = .ok s' ∧ motive (n + elements) s') :
    ∃ statistics s', q.run grid estimate consume start = .ok (statistics, s') ∧
      motive ((List.range' q.firstSymbol q.symbolCount).map q.elementsOn).sum s' ∧
      q.run grid estimate (fun _ _ => .ok ()) () = .ok (statistics, ()) := by
  have hports := h.ports_le_dims
  -- the estimate has the noise of every port
  obtain ⟨noise, hnoise, -⟩ := exists_mapM_array
    (fun port => do return (← estimate.port port).noise) (Array.range q.ports.length)
    (fun port hport => by
      have hin : port < estimate.dims.ports :=
        Nat.lt_of_lt_of_le (Array.mem_range.mp hport) hports
      obtain ⟨p, hp, -⟩ := h.complete.exists_port hin
      rw [hp]
      exact ⟨_, rfl⟩)
  obtain ⟨s', progress', hrun, hmotive, htrivial⟩ := h.exists_receiveAll consume noise motive step
    (n := 0) ⟨GoldSequence.ofSeed (Scrambling.seed q.rnti q.cellId), ErrorMeter.zero⟩
    (Nat.le_refl (q.firstSymbol + q.symbolCount)) (Nat.le_of_eq (Nat.zero_add _)) hstart
  -- the checks the demodulator makes first hold of a covered request
  have hsupported : decide (1 ≤ q.ports.length ∧ q.ports.length ≤ maxPorts ∧ 1 ≤ q.layers ∧
      q.layers ≤ maxPorts) = true :=
    decide_eq_true ⟨h.ports_pos, h.ports_le, h.layers_pos, h.layers_le⟩
  rw [Nat.zero_add] at hmotive
  refine ⟨progress'.meter.statistics, s', ?_, hmotive, ?_⟩
  · rw [run]
    dsimp only
    rw [require_of hsupported, ok_bind, require_of (beq_iff_eq.mpr h.dmrsType_eq), ok_bind, hnoise,
      ok_bind, Size.add_of_lt h.symbols_lt, ok_bind, hrun]
    rfl
  · rw [run]
    dsimp only
    rw [require_of hsupported, ok_bind, require_of (beq_iff_eq.mpr h.dmrsType_eq), ok_bind, hnoise,
      ok_bind, Size.add_of_lt h.symbols_lt, ok_bind, htrivial]
    rfl

end DemodulationRequest

end Uplink
