import Uplink.ChannelEstimate.LeastSquares
import Uplink.Proofs.Dmrs
import Uplink.Proofs.ResourceGrid

/-!
# Channel estimates are complete

- `ChannelEstimate.Complete`: every row holds all subcarriers, and every port knows all layers; the
  reads within the dimensions then succeed, and `clearSubcarrier` keeps it.
- `EstimationRequest.Covered`: the reference signals of a request lie in the grid, and what is found
  from them in the estimate.
- `EstimationRequest.Covered.exists_estimate_eq`: whatever the grid holds, the estimate is found from
  what its ports receive.
- `EstimationRequest.exists_estimate`: it is complete, and of the dimensions of the earlier one.
-/

namespace Uplink

/-! ## Estimates -/

namespace ChannelDimensions

variable {dims : ChannelDimensions} {symbol port layer : Nat}

theorem row_lt (hport : port < dims.ports) (hlayer : layer < dims.layers) :
    port * dims.layers + layer < dims.rowsPerSymbol := by
  calc port * dims.layers + layer < (port + 1) * dims.layers := by rw [Nat.succ_mul]; omega
    _ ≤ dims.ports * dims.layers := Nat.mul_le_mul_right _ hport

theorem place_lt (hsymbol : symbol < dims.symbols) (hport : port < dims.ports)
    (hlayer : layer < dims.layers) :
    dims.place symbol port layer < dims.symbols * dims.rowsPerSymbol := by
  have hrow := row_lt hport hlayer
  calc dims.place symbol port layer < (symbol + 1) * dims.rowsPerSymbol := by
        rw [place, Nat.succ_mul]; omega
    _ ≤ dims.symbols * dims.rowsPerSymbol := Nat.mul_le_mul_right _ hsymbol

/-- A place tells its symbol, port and layer: the rows of a table have one place
each. -/
theorem place_split (hport : port < dims.ports) (hlayer : layer < dims.layers) (symbol : Nat) :
    dims.place symbol port layer / dims.rowsPerSymbol = symbol ∧
      dims.place symbol port layer % dims.rowsPerSymbol / dims.layers = port ∧
      dims.place symbol port layer % dims.rowsPerSymbol % dims.layers = layer := by
  have hrow := row_lt hport hlayer
  have hplace : dims.place symbol port layer =
      (port * dims.layers + layer) + symbol * dims.rowsPerSymbol := by
    rw [place]
    omega
  rw [hplace, Nat.add_mul_div_right _ _ (by omega), Nat.div_eq_of_lt hrow, Nat.zero_add,
    Nat.add_mul_mod_self_right, Nat.mod_eq_of_lt hrow, Nat.add_comm (port * dims.layers),
    Nat.add_mul_div_right _ _ (by omega), Nat.div_eq_of_lt hlayer, Nat.zero_add,
    Nat.add_mul_mod_self_right, Nat.mod_eq_of_lt hlayer]
  exact ⟨rfl, rfl, rfl⟩

end ChannelDimensions

namespace ChannelEstimate

/-- Every row holds all subcarriers, and every port the quality of each layer.
-/
structure Complete (e : ChannelEstimate) : Prop where
  row : ∀ row ∈ e.rows, row.size = e.dims.subcarriers
  ports : e.ports.size = e.dims.ports
  layers : ∀ p ∈ e.ports, p.layers.size = e.dims.layers

variable {e : ChannelEstimate} {symbol port layer : Nat}

/-- A row of a complete estimate can be read, over all subcarriers. -/
theorem Complete.exists_row (h : e.Complete) (hsymbol : symbol < e.dims.symbols)
    (hport : port < e.dims.ports) (hlayer : layer < e.dims.layers) :
    ∃ row, e.row symbol port layer = .ok row ∧ row.size = e.dims.subcarriers := by
  have hplace : e.dims.place symbol port layer < e.rows.size := by
    rw [e.size_eq]
    exact ChannelDimensions.place_lt hsymbol hport hlayer
  refine ⟨_, if_pos ⟨hsymbol, hport, hlayer⟩, ?_⟩
  rw [Buffer.getD_of_lt hplace]
  exact h.row _ (Array.getElem_mem hplace)

theorem Complete.exists_port (h : e.Complete) (hport : port < e.dims.ports) :
    ∃ p, e.port port = .ok p ∧ p.layers.size = e.dims.layers := by
  have hsize : port < e.ports.size := h.ports ▸ hport
  exact ⟨_, Buffer.read_of_lt hsize, h.layers _ (Array.getElem_mem hsize)⟩

theorem Complete.exists_layer (h : e.Complete) (hport : port < e.dims.ports)
    (hlayer : layer < e.dims.layers) : ∃ quality, e.layer port layer = .ok quality := by
  obtain ⟨p, hp, hsize⟩ := h.exists_port hport
  rw [ChannelEstimate.layer, hp, ok_bind]
  exact ⟨_, Buffer.read_of_lt (hsize ▸ hlayer)⟩

/-- A complete estimate has the quality of a layer on any of its ports, and so
their mean over the ports that received. -/
theorem Complete.exists_layerSinrDb {ports : Nat} (h : e.Complete) (hports : ports ≤ e.dims.ports)
    (hlayer : layer < e.dims.layers) : ∃ ratio, e.layerSinrDb layer ports = .ok ratio := by
  obtain ⟨terms, hterms, -⟩ := exists_mapM_array (fun p => do return (← e.layer p layer).sinr)
    (Array.range ports) (fun p hp => by
      have hp : p < e.dims.ports := Nat.lt_of_lt_of_le (Array.mem_range.mp hp) hports
      obtain ⟨quality, hquality⟩ := h.exists_layer hp hlayer
      exact ⟨quality.sinr, by rw [hquality]; rfl⟩)
  rw [layerSinrDb, if_neg (by rw [h.ports]; omega)]
  dsimp only
  rw [hterms]
  exact ⟨_, rfl⟩

/-- An estimate stays complete when a subcarrier is cleared: rows keep their
sizes. -/
theorem Complete.of_clearSubcarrier {e' : ChannelEstimate} {k : Nat} (h : e.Complete)
    (hcleared : e.clearSubcarrier k = .ok e') : e'.dims = e.dims ∧ e'.Complete := by
  obtain ⟨k, -, hcleared⟩ := bind_eq_ok.mp hcleared
  rw [← Except.ok.inj hcleared]
  refine ⟨rfl, ⟨fun row hrow => ?_, h.ports, h.layers⟩⟩
  obtain ⟨row, hmem, rfl⟩ := Array.mem_map.mp hrow
  rw [Array.size_setIfInBounds]
  exact h.row row hmem

/-- A subcarrier can be cleared, and the estimate stays complete. -/
theorem Complete.exists_clearSubcarrier {k : Nat} (h : e.Complete) (hk : k < e.dims.subcarriers)
    (hsize : e.dims.subcarriers ≤ Size.signedLimit) :
    ∃ e', e.clearSubcarrier k = .ok e' ∧ e'.dims = e.dims ∧ e'.Complete := by
  obtain ⟨e', he'⟩ : ∃ e', e.clearSubcarrier k = .ok e' := by
    rw [clearSubcarrier, Buffer.position_of_lt hk (by omega), ok_bind]
    exact ⟨_, rfl⟩
  exact ⟨e', he', h.of_clearSubcarrier he'⟩

end ChannelEstimate

/-! ## Reference signals -/

namespace Dmrs

/-- The seed of a symbol of a slot is a machine size: the slot number and the
identity have 16 bits each, and a slot at most 14 symbols. -/
theorem exists_seed {slot symbol symbolsPerSlot : Nat} (identity : UInt16) (second : Bool)
    (hslot : slot < 65536) (hsymbol : symbol < 16) (hcount : symbolsPerSlot ≤ 14) :
    ∃ value, seed slot symbol symbolsPerSlot identity second = .ok value := by
  have hidentity : identity.toNat < 65536 := identity.toNat_lt
  have hcounted : symbolsPerSlot * slot ≤ 14 * 65535 := Nat.mul_le_mul hcount (by omega)
  -- the two factors are bounded apart, and their product is then taken as a number
  have hproduct : 0x20000 * (symbolsPerSlot * slot + symbol + 1) * (2 * identity.toNat + 1) ≤
      0x40000000000000 :=
    Nat.mul_le_mul (Nat.mul_le_mul_left _ (by omega : _ ≤ 0x100000)) (by omega : _ ≤ 0x20000)
  have hlimit : 0x40000000000000 + 0x20000 < Size.limit := by decide
  rw [seed]
  generalize 0x20000 * (symbolsPerSlot * slot + symbol + 1) * (2 * identity.toNat + 1) = product
    at hproduct
  have hvalue : product + 2 * identity.toNat + (if second then 1 else 0) < Size.limit := by
    split <;> omega
  rw [Size.ofNat, if_pos hvalue, ok_bind]
  exact ⟨_, rfl⟩

/-- The reference symbols of the allocated blocks are found. -/
theorem exists_sequence (g : GoldSequence) (mask : Array Bool) (perBlock : Nat)
    (amplitude : Float32) (h : 8 * (mask.size * perBlock) < Size.signedLimit) :
    ∃ taken, sequence g mask perBlock amplitude = .ok taken :=
  ⟨_, (givesUnless_sequence g mask perBlock amplitude).eq_ok (Nat.not_le.mpr h)⟩

end Dmrs

/-- The reference signals of a symbol are found for any mask of a bandwidth part
that the machine can count. -/
theorem ReferenceSignal.exists_onSymbol (r : ReferenceSignal) {mask : Array Bool} {symbol : Nat}
    (hsymbol : symbol < 16) (hsize : 64 * (mask.size + 1) < Size.signedLimit) :
    ∃ values, r.onSymbol mask symbol = .ok values := by
  have hcount : r.cyclicPrefix.symbolsPerSlot ≤ 14 := by cases r.cyclicPrefix <;> decide
  have hperBlock : r.dmrsType.perBlock ≤ 6 := by cases r.dmrsType <;> decide
  have htaken := Nat.mul_le_mul_left mask.size hperBlock
  obtain ⟨seed, hseed⟩ := Dmrs.exists_seed r.identity r.second r.slot.slot.toNat_lt hsymbol hcount
  obtain ⟨taken, htaken⟩ := Dmrs.exists_sequence (GoldSequence.ofSeed seed) mask
    r.dmrsType.perBlock (r.amplitude * part) (by omega)
  rw [onSymbol, hseed, ok_bind, htaken]
  exact ⟨_, rfl⟩

theorem DmrsWeights.exists_ofLayer {layer : Nat} (h : layer < 4) :
    ∃ weights, ofLayer layer = .ok weights := by
  match layer, h with
  | 0, _ => exact ⟨_, rfl⟩
  | 1, _ => exact ⟨_, rfl⟩
  | 2, _ => exact ⟨_, rfl⟩
  | 3, _ => exact ⟨_, rfl⟩

/-! ## The whole estimate -/

namespace LeastSquares

theorem size_spreadRow (dims : ChannelDimensions) (blocks : List Nat)
    (coefficients : Array Complex) :
    (spreadRow dims blocks coefficients).size = dims.subcarriers := by
  unfold spreadRow spreadFrom
  refine List.foldlRecOn _ _
    (motive := fun row : Array Complex => row.size = dims.subcarriers) ?_ ?_
  · exact Array.size_replicate
  · rintro row hrow ⟨block, place⟩ -
    exact (Buffer.size_overwrite ..).trans hrow

theorem size_fittedRow (dims : ChannelDimensions) (blocks : List Nat) (fits : Array PortFit)
    (port layer : Nat) : (fittedRow dims blocks fits port layer).size = dims.subcarriers := by
  unfold fittedRow
  split
  · exact size_spreadRow _ _ _
  · exact Array.size_replicate

/-- A tabulated estimate is complete, with rows that were not written being
zero. -/
theorem complete_tabulate (dims : ChannelDimensions) (first stop : Nat) (blocks : List Nat)
    (fits : Array PortFit) : (tabulate dims first stop blocks fits).Complete where
  row row hrow := by
    obtain ⟨i, rfl⟩ := Array.mem_ofFn.mp hrow
    split
    · have hpos : 0 < dims.rowsPerSymbol := Nat.pos_of_mul_pos_left (Nat.zero_lt_of_lt i.isLt)
      rw [Buffer.getD_of_lt (by rw [Array.size_ofFn]; exact Nat.mod_lt _ hpos), Array.getElem_ofFn]
      exact size_fittedRow _ _ _ _ _
    · exact Array.size_replicate
  ports := Array.size_ofFn
  layers p hp := by
    obtain ⟨port, rfl⟩ := Array.mem_ofFn.mp hp
    split
    · exact Array.size_ofFn
    · exact Array.size_replicate

end LeastSquares

namespace EstimationRequest

open LeastSquares

variable {q : EstimationRequest} {grid : ResourceGrid} {dims : ChannelDimensions}

/-- The reference signals lie in the grid, and what is estimated from them in
the estimate. -/
structure Covered (q : EstimationRequest) (grid : ResourceGrid) (dims : ChannelDimensions) :
    Prop where
  dmrsType_eq : q.reference.dmrsType = .type1
  layers_le : q.layers ≤ 4
  layers_le_dims : q.layers ≤ dims.layers
  ports_le_dims : q.ports.length ≤ dims.ports
  symbols_le_dims : q.firstSymbol + q.symbolCount ≤ dims.symbols
  allocated_lt : ∀ block ∈ Dmrs.allocated q.blockMask, block < dims.blocks
  references : ∀ symbol ∈ q.dmrsMask.ones, symbol < grid.symbols
  ports : ∀ port ∈ q.ports, port < grid.ports
  blocks : q.blockMask.size ≤ grid.blocks
  -- sizes of the machine
  symbols_lt : dims.symbols < Size.signedLimit
  mask_lt : 64 * (q.blockMask.size + 1) < Size.signedLimit

/-- The values that are sent, symbol by symbol. -/
def Sends (q : EstimationRequest) (sent : List (Nat × Array Complex)) : Prop :=
  (q.dmrsMask.ones.mapM fun symbol => do
    return (symbol, ← q.reference.onSymbol q.blockMask symbol)) = .ok sent

/-- What a port receives where they are sent. -/
def observed (q : EstimationRequest) (grid : ResourceGrid) (sent : List (Nat × Array Complex))
    (port : Nat) : List Observation :=
  sent.map fun (symbol, values) =>
    ⟨Array.ofFn fun k : Fin (q.blockMask.size * subcarriersPerBlock) =>
      grid.elementD port symbol k, values⟩

/-- What is fitted to it, for every port. -/
def fitted (q : EstimationRequest) (grid : ResourceGrid) (sent : List (Nat × Array Complex))
    (weights : List DmrsWeights) : List PortFit :=
  q.ports.map fun port =>
    fitPort (q.observed grid sent port) (Dmrs.allocated q.blockMask) weights q.reference.amplitude

/-- The first of the symbols that are written. -/
def start (q : EstimationRequest) : Nat := if q.symbolCount = 0 then 0 else q.firstSymbol

namespace Covered

variable {sent : List (Nat × Array Complex)}

/-- The symbols with reference signals have their values, and lie in the grid.
-/
theorem exists_sent (h : q.Covered grid dims) :
    ∃ sent, q.Sends sent ∧ ∀ x ∈ sent, x.1 < grid.symbols := by
  obtain ⟨sent, hsent, -, hsymbols⟩ := exists_mapM_forall (fun x => x.1 < grid.symbols)
    (fun symbol => do return (symbol, ← q.reference.onSymbol q.blockMask symbol))
    q.dmrsMask.ones (fun symbol hsymbol => by
      have hrange := List.mem_range.mp (List.mem_filter.mp hsymbol).1
      obtain ⟨values, hvalues⟩ := q.reference.exists_onSymbol
        (Nat.lt_of_lt_of_le hrange q.dmrsMask.size_le) h.mask_lt
      rw [hvalues]
      exact ⟨_, rfl, h.references symbol hsymbol⟩)
  exact ⟨sent, hsent, hsymbols⟩

theorem exists_weights (h : q.Covered grid dims) :
    ∃ weights, (List.range q.layers).mapM DmrsWeights.ofLayer = .ok weights :=
  exists_mapM DmrsWeights.ofLayer (List.range q.layers) fun _ hlayer =>
    DmrsWeights.exists_ofLayer (Nat.lt_of_lt_of_le (List.mem_range.mp hlayer) h.layers_le)

/-- What a port receives where the reference signals are: no read leaves the
grid. -/
theorem observe_eq (h : q.Covered grid dims) {port : Nat} (hport : port ∈ q.ports)
    (hsent : ∀ x ∈ sent, x.1 < grid.symbols) :
    q.observe grid sent port = .ok (q.observed grid sent port) := by
  have hmask := h.mask_lt
  have hlimit : Size.signedLimit < Size.limit := by decide
  refine (@GivesUnless.mapM False _ _ _ _ _ fun x hx => .of_ok ?_).eq_ok id
  have hrow : grid.Spans (0 + q.blockMask.size * subcarriersPerBlock) port x.1 :=
    ⟨h.ports port hport, hsent x hx, by
      rw [Nat.zero_add]
      exact Nat.mul_le_mul_right subcarriersPerBlock h.blocks⟩
  dsimp only
  rw [ResourceGrid.readRange_of_spans (by rw [subcarriersPerBlock]; omega) hrow]
  simp only [Nat.zero_add]
  rfl

/-- The rows that are written lie in the estimate, so the check of them passes.
-/
theorem extent_eq (h : q.Covered grid dims) :
    q.extent dims (Dmrs.allocated q.blockMask) = .ok q.start := by
  have hsymbols := h.symbols_le_dims
  have hlt := h.symbols_lt
  have hlimit : Size.signedLimit < Size.limit := by decide
  have hall : (Dmrs.allocated q.blockMask).all (· < dims.blocks) = true :=
    List.all_eq_true.mpr fun block hblock => decide_eq_true (h.allocated_lt block hblock)
  rw [extent, Size.add_of_lt (by omega), ok_bind, start]
  by_cases hcount : q.symbolCount = 0
  · rw [if_pos hcount, if_pos hcount]
    rfl
  · rw [if_neg hcount, if_neg hcount, Buffer.position_of_lt (by omega) (by omega), ok_bind,
      if_pos ⟨hsymbols, hall⟩]
    rfl

/-- What is estimated of every port is what is fitted to it, and nothing of the
earlier estimate is left but its dimensions. -/
theorem exists_estimate_eq {earlier : ChannelEstimate} (h : q.Covered grid earlier.dims) :
    ∃ sent weights, q.Sends sent ∧
      (List.range q.layers).mapM DmrsWeights.ofLayer = .ok weights ∧
      q.estimate grid earlier = .ok (tabulate earlier.dims q.start (q.start + q.symbolCount)
        (Dmrs.allocated q.blockMask) (q.fitted grid sent weights).toArray) := by
  have hfits : (q.ports.length ≤ earlier.dims.ports && q.layers ≤ earlier.dims.layers) = true :=
    Bool.and_eq_true_iff.mpr ⟨decide_eq_true h.ports_le_dims, decide_eq_true h.layers_le_dims⟩
  obtain ⟨sent, hsent, hsymbols⟩ := h.exists_sent
  obtain ⟨weights, hweights⟩ := h.exists_weights
  -- fitting itself cannot fail: only the reads and the check of the extent could
  have hfound : (q.ports.mapM fun port => do
      let observations ← q.observe grid sent port
      if !weights.isEmpty then
        let _ ← q.extent earlier.dims (Dmrs.allocated q.blockMask)
      return fitPort observations (Dmrs.allocated q.blockMask) weights q.reference.amplitude) =
        .ok (q.fitted grid sent weights) := by
    refine (@GivesUnless.mapM False _ _ _ _ _ fun port hport => .of_ok ?_).eq_ok id
    dsimp only
    rw [h.observe_eq hport hsymbols, ok_bind, h.extent_eq]
    split <;> rfl
  refine ⟨sent, weights, hsent, hweights, ?_⟩
  unfold Sends at hsent
  dsimp only at hfound
  rw [estimate]
  dsimp only
  rw [require_of (beq_iff_eq.mpr h.dmrsType_eq), ok_bind, require_of hfits, ok_bind, hsent,
    ok_bind, hweights, ok_bind, hfound, ok_bind, h.extent_eq]
  rfl

end Covered

/-- The estimate is found, whatever the grid holds. -/
theorem exists_estimate {earlier : ChannelEstimate} (h : q.Covered grid earlier.dims) :
    ∃ e, q.estimate grid earlier = .ok e ∧ e.dims = earlier.dims ∧ e.Complete := by
  obtain ⟨sent, weights, -, -, hestimate⟩ := h.exists_estimate_eq
  exact ⟨_, hestimate, rfl, complete_tabulate _ _ _ _ _⟩

end EstimationRequest

end Uplink
