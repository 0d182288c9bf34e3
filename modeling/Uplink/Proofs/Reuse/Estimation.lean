import Uplink.Proofs.Receiver.Estimation
import Uplink.Proofs.Reuse.Buffer
import Uplink.Reuse.Estimation

/-!
# Estimation in place gives the same estimate

An earlier estimate is cleared before it is written, and every row of received elements is read as a
whole. Nothing of either is found in the next estimate.

- `ChannelEstimate.Complete.clear_eq`: a cleared estimate is that of a slot without any signal.
- `LeastSquares.enter_tabulate`: what is found for one port more.
- `EstimationRequest.estimateInPlace_alike`: the estimate in place is the estimate.
-/

namespace Uplink

open LeastSquares

namespace ChannelEstimate

variable {e : ChannelEstimate}

/-- Estimates of one size are the same if all their rows and ports are. -/
theorem ext_rows {e e' : ChannelEstimate} (hdims : e.dims = e'.dims) (hrows : e.rows = e'.rows)
    (hports : e.ports = e'.ports) : e = e' := by
  obtain ⟨dims, rows, ports, _⟩ := e
  obtain ⟨dims', rows', ports', _⟩ := e'
  obtain rfl : dims = dims' := hdims
  obtain rfl : rows = rows' := hrows
  obtain rfl : ports = ports' := hports
  rfl

/-- A complete estimate is cleared to that of a slot without any signal, so only
its dimensions are left of the one before. -/
theorem Complete.clear_eq (h : e.Complete) : e.clear = zeros e.dims := by
  refine ext_rows rfl (Array.ext ?_ fun i hi _ => ?_) (Array.ext ?_ fun i hi _ => ?_)
  · simp [clear, zeros, e.size_eq]
  · have hin : i < e.rows.size := by simpa [clear] using hi
    simp [clear, zeros, zeroRow, h.row _ (Array.getElem_mem hin)]
  · simp [clear, zeros, h.ports]
  · have hin : i < e.ports.size := by simpa [clear] using hi
    simp [clear, zeros, h.layers _ (Array.getElem_mem hin)]

variable {first stop port : Nat} {blocks : List Nat} {fit : PortFit}

theorem getElem_rows_enter {i : Nat} (hi : i < (e.enter first stop blocks port fit).rows.size)
    (hin : i < e.rows.size) :
    (e.enter first stop blocks port fit).rows[i] =
      if first ≤ i / e.dims.rowsPerSymbol ∧ i / e.dims.rowsPerSymbol < stop ∧
          i % e.dims.rowsPerSymbol / e.dims.layers = port then
        fit.enterLayer blocks (i % e.dims.rowsPerSymbol % e.dims.layers) e.rows[i]
      else e.rows[i] :=
  Array.getElem_mapIdx ..

theorem getElem_ports_enter {i : Nat} (hi : i < (e.enter first stop blocks port fit).ports.size)
    (hin : i < e.ports.size) :
    (e.enter first stop blocks port fit).ports[i] =
      if port = i then mergeQuality e.ports[i] fit.quality else e.ports[i] :=
  Array.getElem_modify ..

end ChannelEstimate

namespace LeastSquares

variable {dims : ChannelDimensions} {first stop : Nat} {blocks : List Nat} {fits : Array PortFit}
  {fit : PortFit}

/-- The rows of an estimate, by their symbol, port and layer: those outside of
the symbols are zero. -/
theorem getElem_rows_tabulate {i : Nat}
    (hi : i < (tabulate dims first stop blocks fits).rows.size) :
    (tabulate dims first stop blocks fits).rows[i] =
      if first ≤ i / dims.rowsPerSymbol ∧ i / dims.rowsPerSymbol < stop then
        fittedRow dims blocks fits (i % dims.rowsPerSymbol / dims.layers)
          (i % dims.rowsPerSymbol % dims.layers)
      else ChannelEstimate.zeroRow dims := by
  have hin : i < dims.symbols * dims.rowsPerSymbol := by simpa [tabulate] using hi
  have hpos : 0 < dims.rowsPerSymbol := Nat.pos_of_mul_pos_left (Nat.zero_lt_of_lt hin)
  have hrow : i % dims.rowsPerSymbol < dims.rowsPerSymbol := Nat.mod_lt _ hpos
  simp [tabulate, hrow]

/-- Before the first port nothing is received. -/
theorem tabulate_empty (dims : ChannelDimensions) (first stop : Nat) (blocks : List Nat) :
    tabulate dims first stop blocks #[] = ChannelEstimate.zeros dims := by
  refine ChannelEstimate.ext_rows rfl (Array.ext ?_ fun i hi _ => ?_)
    (Array.ext ?_ fun i hi _ => ?_)
  · simp [tabulate, ChannelEstimate.zeros]
  · rw [getElem_rows_tabulate]
    simp [fittedRow, ChannelEstimate.zeros]
  · simp [tabulate, ChannelEstimate.zeros]
  · simp [tabulate, ChannelEstimate.zeros]

theorem complete_zeros (dims : ChannelDimensions) : (ChannelEstimate.zeros dims).Complete :=
  tabulate_empty dims 0 0 [] ▸ complete_tabulate _ _ _ _ _

theorem mergeQuality_silent (layers : Nat) (found : PortQuality) :
    mergeQuality (PortQuality.silent layers) found = extendQuality layers found := by
  have hlayers : (mergeQuality (PortQuality.silent layers) found).layers =
      (extendQuality layers found).layers := by
    refine Array.ext ?_ fun i hi _ => ?_
    · simp [mergeQuality, extendQuality, PortQuality.silent]
    · simp [mergeQuality, extendQuality, PortQuality.silent]
  exact congrArg (fun layers => { found with layers }) hlayers

theorem fittedRow_push_self (layer : Nat) :
    fittedRow dims blocks (fits.push fit) fits.size layer =
      fit.enterLayer blocks layer (fittedRow dims blocks fits fits.size layer) := by
  rw [fittedRow, fittedRow, Array.getElem?_push_size, Array.getElem?_eq_none (Nat.le_refl _)]
  rfl

theorem fittedRow_push_of_ne {port : Nat} (h : port ≠ fits.size) (layer : Nat) :
    fittedRow dims blocks (fits.push fit) port layer = fittedRow dims blocks fits port layer := by
  rw [fittedRow, fittedRow, Array.getElem?_push, if_neg h]

theorem getElem_ports_tabulate_of_lt {i : Nat}
    (hi : i < (tabulate dims first stop blocks fits).ports.size) (hfound : i < fits.size) :
    (tabulate dims first stop blocks fits).ports[i] =
      extendQuality dims.layers fits[i].quality := by
  simp [tabulate, Array.getElem?_eq_getElem hfound]

theorem getElem_ports_tabulate_of_ge {i : Nat}
    (hi : i < (tabulate dims first stop blocks fits).ports.size) (hnone : fits.size ≤ i) :
    (tabulate dims first stop blocks fits).ports[i] = PortQuality.silent dims.layers := by
  simp [tabulate, Array.getElem?_eq_none hnone]

/-- What is found for one port more is entered after the others. Its rows have
been zero so far, and no other port's rows change. -/
theorem enter_tabulate (dims : ChannelDimensions) (first stop : Nat) (blocks : List Nat)
    (fits : Array PortFit) (fit : PortFit) :
    (tabulate dims first stop blocks fits).enter first stop blocks fits.size fit =
      tabulate dims first stop blocks (fits.push fit) := by
  refine ChannelEstimate.ext_rows rfl (Array.ext ?_ fun i hi _ => ?_)
    (Array.ext ?_ fun i hi _ => ?_)
  · simp [tabulate, ChannelEstimate.enter]
  · have hin : i < (tabulate dims first stop blocks fits).rows.size := by
      simpa [ChannelEstimate.enter] using hi
    rw [ChannelEstimate.getElem_rows_enter hi hin, getElem_rows_tabulate, getElem_rows_tabulate]
    show (if first ≤ i / dims.rowsPerSymbol ∧ i / dims.rowsPerSymbol < stop ∧
      i % dims.rowsPerSymbol / dims.layers = fits.size then _ else _) = _
    by_cases hsymbol : first ≤ i / dims.rowsPerSymbol ∧ i / dims.rowsPerSymbol < stop
    · rw [if_pos hsymbol, if_pos hsymbol]
      by_cases hport : i % dims.rowsPerSymbol / dims.layers = fits.size
      · rw [if_pos ⟨hsymbol.1, hsymbol.2, hport⟩, hport, fittedRow_push_self]
        rfl
      · rw [if_neg fun h => hport h.2.2, fittedRow_push_of_ne hport]
    · rw [if_neg fun h => hsymbol ⟨h.1, h.2.1⟩, if_neg hsymbol, if_neg hsymbol]
  · simp [tabulate, ChannelEstimate.enter]
  · have hin : i < (tabulate dims first stop blocks fits).ports.size := by
      simpa [ChannelEstimate.enter] using hi
    rw [ChannelEstimate.getElem_ports_enter hi hin]
    rcases Nat.lt_trichotomy i fits.size with hlt | rfl | hgt
    · rw [if_neg (by omega), getElem_ports_tabulate_of_lt _ hlt,
        getElem_ports_tabulate_of_lt _ (by rw [Array.size_push]; omega), Array.getElem_push_lt hlt]
    · rw [if_pos rfl, getElem_ports_tabulate_of_ge _ (Nat.le_refl _), mergeQuality_silent,
        getElem_ports_tabulate_of_lt _ (by rw [Array.size_push]; omega), Array.getElem_push_eq]
    · rw [if_neg (by omega), getElem_ports_tabulate_of_ge _ (Nat.le_of_lt hgt),
        getElem_ports_tabulate_of_ge _ (by rw [Array.size_push]; omega)]

/-- Without layers it does not matter where the symbols of a port begin: there
is no row to enter. -/
theorem enter_of_isEmpty {e : ChannelEstimate} {port : Nat} (h : fit.coefficients = #[])
    (first stop first' stop' : Nat) :
    e.enter first stop blocks port fit = e.enter first' stop' blocks port fit := by
  have hlayer : ∀ layer row, fit.enterLayer blocks layer row = row := by
    intro layer row
    rw [PortFit.enterLayer, h]
    rfl
  refine ChannelEstimate.ext_rows rfl ?_ rfl
  simp only [ChannelEstimate.enter, hlayer, ite_self]

end LeastSquares

namespace EstimationRequest

variable {q : EstimationRequest} {grid : ResourceGrid}

/-- Each symbol is read as if there had been none before it, into a row that is
used for all of them. -/
theorem observeInPlace_alike (values : List (Nat × Array Complex)) (port : Nat)
    {row : Array Complex} (hrow : row.size = q.blockMask.size * subcarriersPerBlock) :
    Alike (fun x observations => x.1 = observations ∧
        x.2.size = q.blockMask.size * subcarriersPerBlock)
      (observeInPlace grid values port row) (q.observe grid values port) := by
  refine Alike.foldlM_mapM (fun (x : List Observation × Array Complex) observations =>
    x.1 = observations ∧ x.2.size = q.blockMask.size * subcarriersPerBlock) ⟨rfl, hrow⟩ ?_
  rintro done ⟨symbol, values⟩ rest ⟨seen, row⟩ observations - - ⟨rfl, hrow⟩
  dsimp only at hrow ⊢
  rw [ResourceGrid.readOver_eq, hrow]
  exact .after _ fun read hread => .ok ⟨rfl, ResourceGrid.size_of_readRange hread⟩

theorem coefficients_fitPort_nil (observations : List Observation) (blocks : List Nat)
    (amplitude : Float32) : (fitPort observations blocks [] amplitude).coefficients = #[] := rfl

/-- The estimate in place is the estimate, whatever the estimator kept and
whatever it estimated before. -/
theorem estimateInPlace_alike (memory : EstimatorMemory) {earlier earlier' : ChannelEstimate}
    (h : earlier.Complete) (hdims : earlier.dims = earlier'.dims) :
    Alike (fun x e => x.1 = e ∧ e.Complete ∧ e.dims = earlier'.dims)
      (q.estimateInPlace memory grid earlier) (q.estimate grid earlier') := by
  unfold estimateInPlace estimate
  dsimp only
  rw [hdims, h.clear_eq, hdims]
  refine .after _ fun _ _ => .after _ fun _ _ => .after _ fun values _ =>
    .after _ fun weights _ => ?_
  generalize Dmrs.allocated q.blockMask = blocks
  generalize hfirst : (q.extent earlier'.dims blocks).toOption.getD 0 = first
  -- the ports entered so far are those whose fits are found
  refine Alike.bind (R := fun (x : ChannelEstimate × Array Complex) fits =>
    x.1 = tabulate earlier'.dims first (first + q.symbolCount) blocks fits.toArray)
    ?ports ?result
  case result =>
    rintro ⟨e, row⟩ fits he
    dsimp only at he ⊢
    rw [he]
    exact .ok ⟨rfl, complete_tabulate _ _ _ _ _, rfl⟩
  rw [← List.zipIdx_map_fst 0 q.ports, List.mapM_map, List.zipIdx_map_fst]
  refine (Alike.foldlM_mapM (fun (x : ChannelEstimate × Array Complex) fits =>
    x.1 = tabulate earlier'.dims first (first + q.symbolCount) blocks fits.toArray ∧
      x.2.size = q.blockMask.size * subcarriersPerBlock)
    ⟨(tabulate_empty ..).symm, Buffer.size_resize ..⟩ ?_).mono fun _ _ h => h.1
  rintro done ⟨port, place⟩ rest ⟨e, row⟩ fits hsplit hlength ⟨he, hrow⟩
  obtain rfl : place = fits.length := (zipIdx_split hsplit).trans hlength.symm
  dsimp only at he hrow ⊢
  refine (observeInPlace_alike values port hrow).bind ?_
  rintro ⟨seen, read⟩ _ ⟨rfl, hread⟩
  dsimp only at hread ⊢
  have hentered : ∀ fit : PortFit,
      e.enter first (first + q.symbolCount) blocks fits.length fit =
        tabulate earlier'.dims first (first + q.symbolCount) blocks (fits ++ [fit]).toArray := by
    intro fit
    rw [he, ← List.size_toArray, enter_tabulate, List.push_toArray]
  cases weights with
  | nil =>
    refine .ok ⟨?_, hread⟩
    rw [← hentered]
    exact enter_of_isEmpty (coefficients_fitPort_nil _ _ _) _ _ _ _
  | cons w weights =>
    simp only [List.isEmpty_cons, Bool.not_false, if_true, Bool.false_eq_true, if_false]
    refine .after _ fun found hfound => .ok ⟨?_, hread⟩
    rw [hfound] at hfirst
    rw [← hentered, ← hfirst]
    rfl

end EstimationRequest

end Uplink
