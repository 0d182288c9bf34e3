import Uplink.Proofs.Reuse.Estimation

/-!
# What an estimate holds, and where

An estimate has one coefficient for every port, layer and allocated block, on all subcarriers of the
block and all symbols of the allocation. The values that are received are found by the number of the
block, those that were sent by its place among the allocated ones. Everywhere else the estimate is
zero, whatever was estimated before.

- `LeastSquares.blockCoefficient`: the coefficient of a layer in one block.
- `LeastSquares.getElem?_spreadRow`, `getElem?_spreadRow_of_notMem`: the row of a layer.
- `ChannelEstimate.coefficient_tabulate`: one coefficient of the whole estimate.
- `EstimationRequest.Frames`: an estimate inside and outside of what was asked for.
- `EstimationRequest.estimateInPlace_frames`: what an estimator gives, whatever it kept.
-/

namespace Uplink

namespace LeastSquares

variable {observations : List Observation} {blocks : List Nat} {weights : DmrsWeights}
  {coefficients row : Array Complex} {dims : ChannelDimensions} {block place k n : Nat}

/-! ## Coefficients of a layer -/

/-- The mean, over the symbols with reference signals, of what is received over
what was sent in a block at its place among the allocated ones. -/
def blockCoefficient (observations : List Observation) (weights : DmrsWeights)
    (block place : Nat) : Complex :=
  (observations.foldl (fun total o => total + o.blockMean weights block place)
    Complex.zero).divReal (Single.ofNat observations.length)

theorem getD_layerCoefficients (h : blocks[place]? = some block) :
    (layerCoefficients observations blocks weights).getD place Complex.zero =
      blockCoefficient observations weights block place := by
  rw [layerCoefficients, Array.getD_eq_getD_getElem?, List.getElem?_toArray, List.getElem?_map,
    List.getElem?_zipIdx, h]
  simp [blockCoefficient]

/-! ## Rows -/

/-- A block is written on its own subcarriers, and on no others. -/
theorem getElem?_overwrite_block {x : Complex} (hk : k < row.size) :
    (Buffer.overwrite row (block * subcarriersPerBlock)
      (Array.replicate subcarriersPerBlock x))[k]? =
        if block = k / subcarriersPerBlock then some x else row[k]? := by
  rw [Buffer.getElem?_overwrite hk, Array.size_replicate]
  by_cases hblock : block = k / subcarriersPerBlock
  · have hin : block * subcarriersPerBlock ≤ k ∧
        k < block * subcarriersPerBlock + subcarriersPerBlock := by
      rw [subcarriersPerBlock] at hblock ⊢
      omega
    rw [if_pos hin, if_pos hblock, Array.getElem?_replicate, if_pos (by omega)]
  · rw [if_neg hblock, if_neg]
    rw [subcarriersPerBlock] at hblock ⊢
    omega

/-- The subcarriers of the other blocks keep what they held. -/
theorem getElem?_spreadFrom_of_notMem (hk : k < row.size)
    (h : k / subcarriersPerBlock ∉ blocks) :
    (spreadFrom n row blocks coefficients)[k]? = row[k]? := by
  induction blocks generalizing n row with
  | nil => rfl
  | cons block blocks ih =>
    rw [List.mem_cons, not_or] at h
    rw [spreadFrom, List.zipIdx_cons, List.foldl_cons]
    refine (ih (by rwa [Buffer.size_overwrite]) h.2).trans ?_
    rw [getElem?_overwrite_block hk, if_neg (Ne.symm h.1)]

/-- The subcarriers of a block have the coefficient of its place. No later block
writes there, since no block is listed twice. -/
theorem getElem?_spreadFrom (hk : k < row.size) (hnodup : blocks.Nodup)
    (hplace : blocks[place]? = some (k / subcarriersPerBlock)) :
    (spreadFrom n row blocks coefficients)[k]? =
      some (coefficients.getD (n + place) Complex.zero) := by
  induction blocks generalizing n row place with
  | nil => cases hplace
  | cons block blocks ih =>
    obtain ⟨hnotin, hnodup⟩ := List.nodup_cons.mp hnodup
    rw [spreadFrom, List.zipIdx_cons, List.foldl_cons]
    have hsize : k < (Buffer.overwrite row (block * subcarriersPerBlock) (Array.replicate
        subcarriersPerBlock (coefficients.getD n Complex.zero))).size := by
      rwa [Buffer.size_overwrite]
    cases place with
    | zero =>
      obtain rfl : block = k / subcarriersPerBlock := Option.some.inj hplace
      refine (getElem?_spreadFrom_of_notMem hsize hnotin).trans ?_
      rw [getElem?_overwrite_block hk, if_pos rfl, Nat.add_zero]
    | succ place =>
      refine (ih hsize hnodup hplace).trans ?_
      rw [Nat.add_right_comm, Nat.add_assoc]

theorem getElem?_zeroRow (hk : k < dims.subcarriers) :
    (ChannelEstimate.zeroRow dims)[k]? = some Complex.zero := by
  rw [ChannelEstimate.zeroRow, Array.getElem?_replicate, if_pos hk]

theorem getElem?_spreadRow (hk : k < dims.subcarriers) (hnodup : blocks.Nodup)
    (hplace : blocks[place]? = some (k / subcarriersPerBlock)) :
    (spreadRow dims blocks coefficients)[k]? = some (coefficients.getD place Complex.zero) := by
  have hsize : k < (ChannelEstimate.zeroRow dims).size := by
    rwa [ChannelEstimate.zeroRow, Array.size_replicate]
  have hspread : (spreadRow dims blocks coefficients)[k]? =
      some (coefficients.getD (0 + place) Complex.zero) :=
    getElem?_spreadFrom hsize hnodup hplace
  rwa [Nat.zero_add] at hspread

theorem getElem?_spreadRow_of_notMem (hk : k < dims.subcarriers)
    (h : k / subcarriersPerBlock ∉ blocks) :
    (spreadRow dims blocks coefficients)[k]? = some Complex.zero := by
  have hsize : k < (ChannelEstimate.zeroRow dims).size := by
    rwa [ChannelEstimate.zeroRow, Array.size_replicate]
  exact (getElem?_spreadFrom_of_notMem (n := 0) hsize h).trans (getElem?_zeroRow hk)

/-! ## The whole estimate -/

variable {fits : Array PortFit} {first stop symbol port layer : Nat}

/-- A coefficient is one of the row of its port and layer, on the symbols from
`first` on, and of a row of zeros on the others. -/
theorem coefficient_tabulate (hsymbol : symbol < dims.symbols) (hport : port < dims.ports)
    (hlayer : layer < dims.layers) (k : Nat) :
    (tabulate dims first stop blocks fits).coefficient symbol port layer k =
      Buffer.read (if first ≤ symbol ∧ symbol < stop then fittedRow dims blocks fits port layer
        else ChannelEstimate.zeroRow dims) k := by
  obtain ⟨hsymbolOf, hportOf, hlayerOf⟩ :=
    ChannelDimensions.place_split hport hlayer symbol
  have hplace : dims.place symbol port layer <
      (tabulate dims first stop blocks fits).rows.size := by
    rw [(tabulate dims first stop blocks fits).size_eq]
    exact ChannelDimensions.place_lt hsymbol hport hlayer
  have hrow : (tabulate dims first stop blocks fits).row symbol port layer =
      .ok (tabulate dims first stop blocks fits).rows[dims.place symbol port layer] := by
    rw [← Buffer.getD_of_lt hplace #[]]
    exact if_pos ⟨hsymbol, hport, hlayer⟩
  rw [ChannelEstimate.coefficient, hrow, ok_bind, getElem_rows_tabulate, hsymbolOf, hportOf,
    hlayerOf]

theorem port_tabulate_of_ge (hport : port < dims.ports) (hnone : fits.size ≤ port) :
    (tabulate dims first stop blocks fits).port port = .ok (PortQuality.silent dims.layers) := by
  have hsize : port < (tabulate dims first stop blocks fits).ports.size := by
    simpa [tabulate] using hport
  rw [ChannelEstimate.port, Buffer.read_of_lt hsize, getElem_ports_tabulate_of_ge _ hnone]

/-- A layer that is not fitted is not received: its quality is zero. -/
theorem layer_tabulate_of_ge (hport : port < dims.ports) (hlayer : layer < dims.layers)
    (hnone : ∀ fit ∈ fits, fit.quality.layers.size ≤ layer) :
    (tabulate dims first stop blocks fits).layer port layer = .ok ⟨0, 0⟩ := by
  have hsize : port < (tabulate dims first stop blocks fits).ports.size := by
    simpa [tabulate] using hport
  rw [ChannelEstimate.layer, ChannelEstimate.port, Buffer.read_of_lt hsize, ok_bind]
  rcases Nat.lt_or_ge port fits.size with hfound | hnotFound
  · have hsilent := hnone _ (Array.getElem_mem hfound)
    rw [getElem_ports_tabulate_of_lt _ hfound, Buffer.read]
    simp [extendQuality, hlayer, Array.getElem?_eq_none hsilent]
  · rw [getElem_ports_tabulate_of_ge _ hnotFound, Buffer.read]
    simp [PortQuality.silent, hlayer]

end LeastSquares

namespace EstimationRequest

open LeastSquares

variable {q : EstimationRequest} {grid : ResourceGrid} {dims : ChannelDimensions}
  {sent : List (Nat × Array Complex)} {weights : List DmrsWeights}

/-- The coefficient of a port and layer in an allocated block. -/
def blockValue (q : EstimationRequest) (grid : ResourceGrid) (sent : List (Nat × Array Complex))
    (weights : List DmrsWeights) (port layer block : Nat) : Complex :=
  blockCoefficient (q.observed grid sent (q.ports.getD port 0)) (weights.getD layer ⟨0, 1, 1⟩)
    block ((Dmrs.allocated q.blockMask).idxOf block)

/-- An estimate holds one value for every port, layer and block of a request,
and nothing outside of the request. -/
structure Frames (q : EstimationRequest) (value : Nat → Nat → Nat → Complex)
    (e : ChannelEstimate) : Prop where
  /-- On all subcarriers of an allocated block and all symbols of the allocation. -/
  inside : ∀ {symbol port layer k}, q.firstSymbol ≤ symbol →
    symbol < q.firstSymbol + q.symbolCount → port < q.ports.length → layer < q.layers →
    k / subcarriersPerBlock ∈ Dmrs.allocated q.blockMask →
    e.coefficient symbol port layer k = .ok (value port layer (k / subcarriersPerBlock))
  outside : ∀ {symbol port layer k}, symbol < e.dims.symbols → port < e.dims.ports →
    layer < e.dims.layers → k < e.dims.subcarriers →
    (q.ports.length ≤ port ∨ q.layers ≤ layer ∨ symbol < q.firstSymbol ∨
      q.firstSymbol + q.symbolCount ≤ symbol ∨
      k / subcarriersPerBlock ∉ Dmrs.allocated q.blockMask) →
    e.coefficient symbol port layer k = .ok Complex.zero
  /-- A port that does not receive has no noise, no energy, and no signal on any layer. -/
  port : ∀ {port}, q.ports.length ≤ port → port < e.dims.ports →
    e.port port = .ok (PortQuality.silent e.dims.layers)
  /-- A layer that is not sent is received on no port. -/
  layer : ∀ {port layer}, port < e.dims.ports → q.layers ≤ layer → layer < e.dims.layers →
    e.layer port layer = .ok ⟨0, 0⟩

theorem fittedRow_eq {port layer p : Nat} {w : DmrsWeights} (hport : q.ports[port]? = some p)
    (hlayer : weights[layer]? = some w) :
    fittedRow dims (Dmrs.allocated q.blockMask) (q.fitted grid sent weights).toArray port layer =
      spreadRow dims (Dmrs.allocated q.blockMask)
        (layerCoefficients (q.observed grid sent p) (Dmrs.allocated q.blockMask) w) := by
  have hfit : (q.fitted grid sent weights).toArray[port]? = some (fitPort
      (q.observed grid sent p) (Dmrs.allocated q.blockMask) weights q.reference.amplitude) := by
    rw [List.getElem?_toArray, fitted, List.getElem?_map, hport]
    rfl
  have hcoefficients : (fitPort (q.observed grid sent p) (Dmrs.allocated q.blockMask) weights
      q.reference.amplitude).coefficients[layer]? =
        some (layerCoefficients (q.observed grid sent p) (Dmrs.allocated q.blockMask) w) := by
    simp [fitPort, hlayer]
  rw [fittedRow, hfit, Option.bind_some, hcoefficients]

/-- Ports and layers that are not asked for have rows of zeros. -/
theorem fittedRow_of_ge {port layer : Nat}
    (h : q.ports.length ≤ port ∨ weights.length ≤ layer) :
    fittedRow dims (Dmrs.allocated q.blockMask) (q.fitted grid sent weights).toArray port layer =
      ChannelEstimate.zeroRow dims := by
  have hnone : (q.fitted grid sent weights).toArray[port]?.bind (·.coefficients[layer]?) = none := by
    rw [List.getElem?_toArray, fitted, List.getElem?_map]
    rcases h with hport | hlayer
    · rw [List.getElem?_eq_none hport]
      rfl
    · cases q.ports[port]? with
      | none => rfl
      | some p => simp [fitPort, List.getElem?_eq_none hlayer]
  rw [fittedRow, hnone]

/-- What is tabulated is framed: one coefficient for each port, layer and block
that is asked for, and zeros around them. -/
theorem Covered.frames_tabulate (h : q.Covered grid dims) (hweights : weights.length = q.layers) :
    q.Frames (q.blockValue grid sent weights)
      (tabulate dims q.start (q.start + q.symbolCount) (Dmrs.allocated q.blockMask)
        (q.fitted grid sent weights).toArray) where
  inside := by
    intro symbol port layer k hfirst hstop hport hlayer hblock
    have hstart : q.start = q.firstSymbol := if_neg (by omega)
    have hk : k < dims.subcarriers := by
      have hlt := h.allocated_lt _ hblock
      rw [ChannelDimensions.subcarriers, subcarriersPerBlock] at *
      omega
    -- the place of the block among the allocated ones
    have hplace : (Dmrs.allocated q.blockMask)[(Dmrs.allocated q.blockMask).idxOf
        (k / subcarriersPerBlock)]? = some (k / subcarriersPerBlock) :=
      List.getElem?_idxOf hblock
    have hp := List.getElem?_eq_getElem hport
    have hw := List.getElem?_eq_getElem (hweights.symm ▸ hlayer : layer < weights.length)
    rw [coefficient_tabulate (Nat.lt_of_lt_of_le hstop h.symbols_le_dims)
        (Nat.lt_of_lt_of_le hport h.ports_le_dims) (Nat.lt_of_lt_of_le hlayer h.layers_le_dims),
      hstart, if_pos ⟨hfirst, hstop⟩, fittedRow_eq hp hw, Buffer.read,
      getElem?_spreadRow hk (Dmrs.nodup_allocated _) hplace, getD_layerCoefficients hplace,
      blockValue, List.getD_eq_getElem?_getD, hp, List.getD_eq_getElem?_getD, hw]
    rfl
  outside := by
    intro symbol port layer k hsymbol hport hlayer hk hout
    change symbol < dims.symbols at hsymbol
    change port < dims.ports at hport
    change layer < dims.layers at hlayer
    change k < dims.subcarriers at hk
    rw [coefficient_tabulate hsymbol hport hlayer]
    by_cases hin : q.start ≤ symbol ∧ symbol < q.start + q.symbolCount
    · rw [if_pos hin]
      have hstart : q.start = q.firstSymbol := if_neg (by omega)
      -- a row that was fitted is zero on the blocks that are not allocated, any other one
      -- everywhere
      by_cases hasked : q.ports.length ≤ port ∨ weights.length ≤ layer
      · rw [fittedRow_of_ge hasked, Buffer.read]
        simp only [getElem?_zeroRow hk]
      · rw [not_or, Nat.not_le, Nat.not_le] at hasked
        rw [fittedRow_eq (List.getElem?_eq_getElem hasked.1) (List.getElem?_eq_getElem hasked.2),
          Buffer.read, getElem?_spreadRow_of_notMem hk]
        rcases hout with hout | hout | hout | hout | hout
        · omega
        · omega
        · omega
        · omega
        · exact hout
    · rw [if_neg hin, Buffer.read]
      simp only [getElem?_zeroRow hk]
  port := by
    intro port hnone hport
    exact port_tabulate_of_ge hport (by rwa [List.size_toArray, fitted, List.length_map])
  layer := by
    intro port layer hport hnone hlayer
    refine layer_tabulate_of_ge hport hlayer fun fit hfit => ?_
    obtain ⟨p, -, rfl⟩ := List.mem_map.mp (List.mem_toArray.mp hfit)
    simp [fitPort, hweights, hnone]

/-- An estimator gives one and the same estimate whatever it kept and whatever
it estimated before: the coefficients of the request inside, and nothing
outside. -/
theorem estimateInPlace_frames (h : q.Covered grid dims) :
    ∃ (sent : List (Nat × Array Complex)) (weights : List DmrsWeights) (e : ChannelEstimate),
      q.Sends sent ∧ (List.range q.layers).mapM DmrsWeights.ofLayer = .ok weights ∧
      e.dims = dims ∧ e.Complete ∧ q.Frames (q.blockValue grid sent weights) e ∧
      ∀ (memory : EstimatorMemory) (earlier : ChannelEstimate), earlier.Complete →
        earlier.dims = dims →
        ∃ memory', q.estimateInPlace memory grid earlier = .ok (e, memory') := by
  have hcovered : q.Covered grid (ChannelEstimate.zeros dims).dims := h
  obtain ⟨sent, weights, hsent, hweights, hestimate⟩ := hcovered.exists_estimate_eq
  have hlength : weights.length = q.layers := by
    rw [length_of_mapM hweights, List.length_range]
  refine ⟨sent, weights, _, hsent, hweights, rfl, complete_tabulate _ _ _ _ _,
    h.frames_tabulate hlength, fun memory earlier hcomplete hdims => ?_⟩
  have hsame : earlier.dims = (ChannelEstimate.zeros dims).dims := hdims
  obtain ⟨⟨e, memory'⟩, hinPlace, rfl, -⟩ :=
    (estimateInPlace_alike memory hcomplete hsame).exists_ok_left hestimate
  exact ⟨memory', hinPlace⟩

/-- A layer on the first and the last of three blocks, with reference signals on
the first of two symbols. -/
def withGap : EstimationRequest where
  reference := ⟨⟨.khz15, 0, 0⟩, .normal, .type1, 0, false, 1⟩
  firstSymbol := 0
  symbolCount := 2
  dmrsMask := ⟨#[true], by decide⟩
  blockMask := #[true, false, true]
  layers := 1
  ports := [0]

/-- The block in between stays zero, and so does the second port; the last block
has one value. -/
theorem estimateInPlace_frames_withGap : ∃ e memory,
    withGap.estimateInPlace .fresh (ResourceGrid.zeros 1 1 3) (ChannelEstimate.zeros ⟨3, 2, 2, 2⟩) =
        .ok (e, memory) ∧
      e.coefficient 0 0 0 12 = .ok Complex.zero ∧ e.coefficient 0 1 0 0 = .ok Complex.zero ∧
      e.coefficient 0 0 0 24 = e.coefficient 1 0 0 35 ∧ e.port 1 = .ok (PortQuality.silent 2) := by
  have hcovered : withGap.Covered (ResourceGrid.zeros 1 1 3) ⟨3, 2, 2, 2⟩ :=
    { dmrsType_eq := rfl
      layers_le := by decide
      layers_le_dims := by decide
      ports_le_dims := by decide
      symbols_le_dims := by decide
      allocated_lt := by decide
      references := by decide
      ports := by decide
      blocks := by decide
      symbols_lt := by decide
      mask_lt := by decide }
  obtain ⟨sent, weights, e, -, -, hdims, -, hframes, hgives⟩ := estimateInPlace_frames hcovered
  obtain ⟨memory, hgiven⟩ := hgives .fresh (ChannelEstimate.zeros ⟨3, 2, 2, 2⟩)
    (complete_zeros _) rfl
  generalize withGap.blockValue _ sent weights = value at hframes
  have hlast : ∀ symbol < 2, ∀ k, k / 12 = 2 →
      e.coefficient symbol 0 0 k = .ok (value 0 0 2) := by
    intro symbol hsymbol k hk
    have hblock : k / subcarriersPerBlock = 2 := hk
    rw [hframes.inside (Nat.zero_le _) (by simpa [withGap] using hsymbol) (by decide) (by decide)
      (by rw [hblock]; decide), hblock]
  refine ⟨e, memory, hgiven, ?_, ?_, ?_, ?_⟩
  · exact hframes.outside (by rw [hdims]; decide) (by rw [hdims]; decide) (by rw [hdims]; decide)
      (by rw [hdims]; decide) (.inr (.inr (.inr (.inr (by decide)))))
  · exact hframes.outside (by rw [hdims]; decide) (by rw [hdims]; decide) (by rw [hdims]; decide)
      (by rw [hdims]; decide) (.inl (by decide))
  · rw [hlast 0 (by decide) 24 rfl, hlast 1 (by decide) 35 rfl]
  · rw [hframes.port (by decide) (by rw [hdims]; decide), hdims]

end EstimationRequest

end Uplink
