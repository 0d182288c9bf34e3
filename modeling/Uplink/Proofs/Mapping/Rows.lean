import Uplink.Proofs.Mapping.Places

/-!
# The rows of a symbol

- `MappingRequest.Row`: a row that holds the data of a layer and its reference signals, and nothing
  else.
- `MappingRequest.row_of_layerRow`: every row that is laid out is such a row.
-/

namespace Uplink

universe u

/-! ## Writes to known places -/

namespace Buffer

variable {α : Type u} {d : α}

/-- A loop that writes to the places of a list, one value for each place. -/
theorem foldl_zipIdx_eq_scatter (places : List Nat) (value : Nat → α) (buffer : Array α) :
    places.zipIdx.foldl (fun b x => b.setIfInBounds x.1 (value x.2)) buffer =
      scatter (fun i => places.getD i 0) value places.length buffer := by
  have hpairs : places.zipIdx = (List.range places.length).map fun i => (places.getD i 0, i) := by
    refine List.ext_getElem (by simp) fun i hi hi' => ?_
    have hi : i < places.length := by simpa using hi
    rw [List.getElem_zipIdx, List.getElem_map, List.getElem_range, Nat.zero_add,
      List.getD_eq_getElem _ _ hi]
  rw [hpairs, List.foldl_map]
  rfl

/-- Writes leave all other places as they are, however many there are. -/
theorem getD_foldl_of_ne {writes : List (Nat × α)} {buffer : Array α} {p : Nat}
    (h : ∀ w ∈ writes, w.1 ≠ p) :
    (writes.foldl (fun b w => b.setIfInBounds w.1 w.2) buffer).getD p d = buffer.getD p d := by
  induction writes generalizing buffer with
  | nil => rfl
  | cons w writes ih =>
    obtain ⟨hw, hwrites⟩ := List.forall_mem_cons.mp h
    rw [List.foldl_cons, ih hwrites, getD_setIfInBounds, if_neg fun hp => hw hp.1]

theorem size_foldl {writes : List (Nat × α)} {buffer : Array α} :
    (writes.foldl (fun b w => b.setIfInBounds w.1 w.2) buffer).size = buffer.size := by
  induction writes generalizing buffer with
  | nil => rfl
  | cons w writes ih => rw [List.foldl_cons, ih, Array.size_setIfInBounds]

end Buffer

/-! ## Rows -/

namespace MappingRequest

variable {q : MappingRequest} {symbols : Array Complex} {layer done k : Nat} {onDmrs : Bool}
  {row : Array Complex}

/-- What a row holds on a symbol, when `done` elements have been sent before:
the data of the layer on the places of the data, and nothing on other places
that are not those of its reference signals. -/
structure Row (q : MappingRequest) (symbols : Array Complex) (layer done : Nat) (onDmrs : Bool)
    (element : Nat → Complex) : Prop where
  data : ∀ i k, (q.dataSubcarriers onDmrs)[i]? = some k →
    element k = symbols.getD ((done + i) * q.ports.length + layer) Complex.zero
  empty : ∀ k < q.width, k ∉ q.dataSubcarriers onDmrs →
    (onDmrs = true → ∀ weights, DmrsWeights.ofLayer layer = .ok weights →
      k ∉ q.referenceSubcarriers weights.offset) →
    element k = Complex.zero

/-- The data of a layer are every `ports.length`-th symbol, written to the
places of the data in order. -/
theorem dataRow_eq (q : MappingRequest) (symbols : Array Complex) (layer done : Nat)
    (onDmrs : Bool) :
    q.dataRow symbols layer done onDmrs =
      Buffer.scatter (fun i => (q.dataSubcarriers onDmrs).getD i 0)
        (fun i => symbols.getD ((done + i) * q.ports.length + layer) Complex.zero)
        (q.dataSubcarriers onDmrs).length (Array.replicate q.width Complex.zero) :=
  Buffer.foldl_zipIdx_eq_scatter (q.dataSubcarriers onDmrs)
    (fun i => symbols.getD ((done + i) * q.ports.length + layer) Complex.zero) _

@[simp] theorem size_dataRow : (q.dataRow symbols layer done onDmrs).size = q.width := by
  rw [dataRow_eq, Buffer.size_scatter, Array.size_replicate]

/-- The data of a layer, and zeros elsewhere. No place is listed twice, so each
keeps what was written to it. -/
theorem row_dataRow :
    q.Row symbols layer done onDmrs
      fun k => (q.dataRow symbols layer done onDmrs).getD k Complex.zero := by
  have hplace {i : Nat} (hi : i < (q.dataSubcarriers onDmrs).length) :
      (q.dataSubcarriers onDmrs).getD i 0 = (q.dataSubcarriers onDmrs)[i] :=
    List.getD_eq_getElem _ _ hi
  constructor
  case data =>
    intro i k hk
    obtain ⟨hi, rfl⟩ := List.getElem?_eq_some_iff.mp hk
    have hlt := (q.mem_dataSubcarriers.mp (List.getElem_mem hi)).1
    have hdistinct : ∀ i < (q.dataSubcarriers onDmrs).length,
        ∀ j < (q.dataSubcarriers onDmrs).length,
        (q.dataSubcarriers onDmrs).getD i 0 = (q.dataSubcarriers onDmrs).getD j 0 → i = j := by
      intro i hi j hj hij
      rw [hplace hi, hplace hj] at hij
      exact (q.nodup_dataSubcarriers onDmrs).getElem_inj_iff.mp hij
    rw [dataRow_eq, ← hplace hi]
    refine Buffer.getD_scatter hi hdistinct ?_
    rw [Array.size_replicate]
    exact hplace hi ▸ hlt
  case empty =>
    intro k hk hdata _
    rw [dataRow_eq, Buffer.getD_scatter_of_ne, Buffer.getD_of_lt (by simpa using hk),
      Array.getElem_replicate]
    intro i hi heq
    rw [hplace hi] at heq
    exact hdata (heq ▸ List.getElem_mem hi)

/-- The reference signals of a layer are written to their places, whatever their
values are. -/
theorem withReference_eq (q : MappingRequest) (weights : DmrsWeights) (values row : Array Complex) :
    ∃ writes : List (Nat × Complex),
      writes.map Prod.fst = q.referenceSubcarriers weights.offset ∧
      q.withReference weights values row =
        writes.foldl (fun b w => b.setIfInBounds w.1 w.2) row := by
  let weighted := Dmrs.weigh values weights
  refine ⟨(Dmrs.allocated q.blockMask).zipIdx.flatMap fun x =>
    (List.range DmrsType.type1.perBlock).map fun j =>
      (x.1 * subcarriersPerBlock + 2 * j + weights.offset,
        weighted.getD (x.2 * DmrsType.type1.perBlock + j) Complex.zero), ?_, ?_⟩
  · have hblocks : Dmrs.allocated q.blockMask =
        (Dmrs.allocated q.blockMask).zipIdx.map Prod.fst := (List.zipIdx_map_fst _ _).symm
    rw [referenceSubcarriers, hblocks, List.map_flatMap, List.flatMap_map, ← hblocks]
    simp only [List.map_map]
    rfl
  · rw [List.foldl_flatMap]
    simp only [List.foldl_map]
    rfl

/-- Reference signals leave the data of a row, because they are on other places.
-/
theorem Row.withReference {weights : DmrsWeights} (hq : q.KeepsApart)
    (hlayer : layer < q.ports.length) (hweights : DmrsWeights.ofLayer layer = .ok weights)
    (values : Array Complex)
    (h : q.Row symbols layer done true fun k => row.getD k Complex.zero) :
    q.Row symbols layer done true
      fun k => (q.withReference weights values row).getD k Complex.zero := by
  obtain ⟨writes, hplaces, hrow⟩ := q.withReference_eq weights values row
  have hother {k : Nat} (hk : k ∉ q.referenceSubcarriers weights.offset) :
      (q.withReference weights values row).getD k Complex.zero = row.getD k Complex.zero := by
    rw [hrow]
    refine Buffer.getD_foldl_of_ne fun w hw heq => hk ?_
    rw [← hplaces, ← heq]
    exact List.mem_map_of_mem hw
  constructor
  case data =>
    intro i k hk
    rw [hother fun hreference => q.not_mem_dataSubcarriers hq hlayer hweights hreference
      (List.mem_of_getElem? hk)]
    exact h.data i k hk
  case empty =>
    intro k hk hdata hreference
    rw [hother (hreference rfl weights hweights)]
    exact h.empty k hk hdata hreference

/-- Every row that is laid out holds the data of its layer, with or without
reference signals. -/
theorem row_of_layerRow {values : Option (Array Complex)} (hq : q.KeepsApart)
    (hlayer : layer < q.ports.length) (h : q.layerRow symbols done values layer = .ok row) :
    row.size = q.width ∧
      q.Row symbols layer done values.isSome fun k => row.getD k Complex.zero := by
  cases values with
  | none =>
    obtain rfl := Except.ok.inj h
    exact ⟨size_dataRow, row_dataRow⟩
  | some values =>
    obtain ⟨weights, hweights, h⟩ := bind_eq_ok.mp h
    obtain rfl := Except.ok.inj h
    refine ⟨?_, row_dataRow.withReference hq hlayer hweights values⟩
    obtain ⟨writes, -, hrow⟩ := q.withReference_eq weights values
      (q.dataRow symbols layer done true)
    rw [Option.isSome_some, hrow, Buffer.size_foldl, size_dataRow]

end MappingRequest

end Uplink
