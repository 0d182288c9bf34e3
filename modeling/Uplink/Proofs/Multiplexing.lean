import Uplink.Receiver
import Uplink.Proofs.Checked
import Mathlib.Data.List.GetD

/-!
# Putting a codeword together and taking it apart

Both directions walk over the same elements. For each stream this fixes where the codeword holds its
positions: those of an element that carries the stream, and nowhere for data that an acknowledgement
replaced.

- `sources`: where the codeword holds the positions of a stream.
- `existsUnique_source`: every position of the codeword belongs to one position of one stream.
- `Multiplexed`: a codeword that holds the bits of the fields at their places.
- `Demultiplexer.exists_routeAll`: what the streams get of a codeword, in whatever blocks it comes.
- `exists_multiplex`, `exists_multiplex_of_sch_empty`: the codeword of fields that fill their
  elements, with and without data.
- `multiplex_routeAll`: the codeword of the fields, and the way back.
-/

namespace Uplink

/-! ## Places -/

namespace ElementUse

/-- The stream gets soft bits for an element: those of the element, or erased
ones where an acknowledgement replaced its data. -/
def feeds : FieldStream → ElementUse → Bool
  | .sch, use => use == .sch || use == .punctured
  | .harqAck, use => use == .harqAck || use == .punctured
  | .csiPart1, use => use == .csiPart1

/-- The stream whose positions an element holds. -/
def carries : ElementUse → FieldStream
  | .sch => .sch
  | .harqAck => .harqAck
  | .csiPart1 => .csiPart1
  | .punctured => .harqAck

/-- The places of the positions of a stream that an element accounts for, if it
begins at `start` and has `group` positions. Replaced data have no place. -/
def places (stream : FieldStream) (group start : Nat) (use : ElementUse) : List (Option Nat) :=
  if use.carries = stream then (List.range' start group).map some
  else if use.feeds stream then List.replicate group none
  else []

variable {stream : FieldStream} {group start : Nat} {use : ElementUse}

theorem feeds_carries (use : ElementUse) : use.feeds use.carries = true := by
  cases use <;> rfl

/-- Only data are fed by an element that carries something else. -/
theorem feeds_eq_false (hcarries : use.carries ≠ stream) (hstream : stream ≠ .sch) :
    use.feeds stream = false := by
  cases use <;> cases stream <;> simp_all [carries, feeds]

theorem length_places :
    (use.places stream group start).length = (if use.feeds stream then 1 else 0) * group := by
  rw [places]
  split
  · rename_i h
    rw [← h, feeds_carries]
    simp
  · split <;> simp

/-- The places of a run of elements continue those before it, so runs may be cut
anywhere. -/
theorem places_append (m n : Nat) :
    use.places stream m start ++ use.places stream n (start + m) =
      use.places stream (m + n) start := by
  rw [places, places, places]
  split
  · rw [← List.map_append, List.range'_append_1]
  · split
    · rw [List.replicate_append_replicate]
    · rfl

/-- Every place of an element lies in it, and belongs to the stream that the
element carries. -/
theorem places_getElem?_eq_some {j p : Nat}
    (h : (use.places stream group start)[j]? = some (some p)) :
    use.carries = stream ∧ j < group ∧ p = start + j := by
  rw [places] at h
  split at h
  · rename_i hcarries
    rw [List.getElem?_map, Option.map_eq_some_iff] at h
    obtain ⟨p', hp, hsome⟩ := h
    obtain rfl := Option.some.inj hsome
    obtain ⟨hj, rfl⟩ := List.getElem?_eq_some_iff.mp hp
    rw [List.length_range'] at hj
    exact ⟨hcarries, hj, by rw [List.getElem_range', Nat.one_mul]⟩
  · split at h
    · obtain ⟨_, hnone⟩ := List.getElem?_eq_some_iff.mp h
      rw [List.getElem_replicate] at hnone
      cases hnone
    · cases h

theorem places_carries {i : Nat} (h : i < group) :
    (use.places use.carries group start)[i]? = some (some (start + i)) := by
  rw [places, if_pos rfl, List.getElem?_map, List.getElem?_range' h, Nat.one_mul]
  rfl

end ElementUse

/-- The places of the positions of a stream, in order, in a codeword whose
elements begin at `start`. -/
def sources (stream : FieldStream) (group : Nat) : (start : Nat) → List ElementUse →
    List (Option Nat)
  | _, [] => []
  | start, use :: uses => use.places stream group start ++ sources stream group (start + group) uses

section Sources

variable {stream : FieldStream} {group start : Nat} {uses : List ElementUse}

/-- The places of a longer codeword continue those of its first part. -/
theorem sources_append (first second : List ElementUse) :
    sources stream group start (first ++ second) = sources stream group start first ++
      sources stream group (start + first.length * group) second := by
  induction first generalizing start with
  | nil => simp [sources]
  | cons use first ih =>
    rw [List.cons_append, sources, sources, ih, List.append_assoc, List.length_cons, Nat.add_mul,
      Nat.one_mul, Nat.add_assoc, Nat.add_comm group]

theorem sources_replicate (use : ElementUse) (n : Nat) :
    sources stream group start (List.replicate n use) = use.places stream (n * group) start := by
  induction n generalizing start with
  | zero =>
    rw [Nat.zero_mul, ElementUse.places]
    split
    · rfl
    · split <;> rfl
  | succ n ih =>
    rw [List.replicate_succ, sources, ih, ElementUse.places_append, Nat.add_one_mul, Nat.add_comm]

/-- A stream has as many positions as the elements that feed it. -/
theorem length_sources :
    (sources stream group start uses).length = uses.countP (·.feeds stream) * group := by
  induction uses generalizing start with
  | nil => simp [sources]
  | cons use uses ih =>
    rw [sources, List.length_append, ElementUse.length_places, ih, List.countP_cons, Nat.add_mul,
      Nat.add_comm]

/-- Places do not depend on where the codeword begins, but for being counted
from there. -/
theorem sources_shift (k : Nat) :
    sources stream group (k + start) uses =
      (sources stream group start uses).map (Option.map (k + ·)) := by
  induction uses generalizing start with
  | nil => rfl
  | cons use uses ih =>
    rw [sources, sources, Nat.add_assoc, ih, List.map_append]
    congr 1
    rw [ElementUse.places, ElementUse.places]
    split
    · rw [List.map_map]
      apply List.ext_getElem
      · simp
      · intro i h₁ h₂
        simp [Nat.add_assoc]
    · split <;> simp

/-- Every place of a stream lies in the codeword. -/
theorem source_lt {p : Nat} (h : some p ∈ sources stream group start uses) :
    start ≤ p ∧ p < start + uses.length * group := by
  induction uses generalizing start with
  | nil => cases h
  | cons use uses ih =>
    rw [List.length_cons, Nat.add_mul, Nat.one_mul]
    rw [sources, List.mem_append] at h
    rcases h with hfirst | hrest
    · obtain ⟨j, hj⟩ := List.mem_iff_getElem?.mp hfirst
      obtain ⟨-, hlt, rfl⟩ := ElementUse.places_getElem?_eq_some hj
      omega
    · have := ih hrest
      omega

/-- Only data are replaced, so control fields get back every bit that was sent.
-/
theorem none_notMem_sources (hstream : stream ≠ .sch) : none ∉ sources stream group start uses := by
  induction uses generalizing start with
  | nil => exact List.not_mem_nil
  | cons use uses ih =>
    rw [sources, List.mem_append]
    rintro (hfirst | hrest)
    · rw [ElementUse.places] at hfirst
      split at hfirst
      · simp at hfirst
      · rename_i hcarries
        rw [ElementUse.feeds_eq_false hcarries hstream] at hfirst
        cases hfirst
    · exact ih hrest

/-- Every position of the codeword belongs to one position of one stream. The
induction is on the elements: a position lies in the first one or behind it. -/
theorem existsUnique_source {p : Nat} (hstart : start ≤ p)
    (hstop : p < start + uses.length * group) :
    ∃! source : FieldStream × Nat,
      (sources source.1 group start uses)[source.2]? = some (some p) := by
  induction uses generalizing start with
  | nil =>
    rw [List.length_nil, Nat.zero_mul] at hstop
    omega
  | cons use uses ih =>
    rw [List.length_cons, Nat.add_mul, Nat.one_mul] at hstop
    by_cases hp : p < start + group
    · -- the position lies in the first element, and later places lie behind it
      obtain ⟨i, rfl⟩ := Nat.exists_eq_add_of_le hstart
      have hi : i < group := by omega
      refine ⟨(use.carries, i), ?_, ?_⟩
      · have hplace : (use.places use.carries group start)[i]? = some (some (start + i)) :=
          ElementUse.places_carries hi
        dsimp only
        rw [sources, List.getElem?_append_left (List.getElem?_eq_some_iff.mp hplace).1, hplace]
      · rintro ⟨stream, j⟩ hj
        dsimp only at hj
        rw [sources, List.getElem?_append] at hj
        split at hj
        · obtain ⟨rfl, -, heq⟩ := ElementUse.places_getElem?_eq_some hj
          rw [Nat.add_left_cancel heq]
        · have := source_lt (List.mem_of_getElem? hj)
          omega
    · -- it lies behind the first element, whose places are no longer met
      obtain ⟨⟨stream, j⟩, hj, hunique⟩ := @ih (start + group) (by omega) (by omega)
      refine ⟨(stream, (use.places stream group start).length + j), ?_, ?_⟩
      · dsimp only at hj ⊢
        rw [sources, List.getElem?_append_right (Nat.le_add_right _ _), Nat.add_sub_cancel_left, hj]
      · rintro ⟨stream', j'⟩ hj'
        dsimp only at hj'
        rw [sources, List.getElem?_append] at hj'
        split at hj'
        · obtain ⟨-, hlt, rfl⟩ := ElementUse.places_getElem?_eq_some hj'
          omega
        · rename_i hle
          obtain ⟨rfl, rfl⟩ := Prod.mk.inj (hunique (stream', _) hj')
          congr 1
          omega

end Sources

/-! ## Putting together -/

namespace FieldBits

/-- The bits of a stream. -/
def of (fields : FieldBits) : FieldStream → Bits
  | .sch => fields.sch
  | .harqAck => fields.harqAck
  | .csiPart1 => fields.csiPart1

end FieldBits

namespace FieldPositions

/-- The position of a stream. -/
def of (at_ : FieldPositions) : FieldStream → Nat
  | .sch => at_.sch
  | .harqAck => at_.harqAck
  | .csiPart1 => at_.csiPart1

end FieldPositions

variable {fields : FieldBits} {uses : List ElementUse} {group : Nat}

/-- A codeword that holds the bits of the fields at their places. -/
structure Multiplexed (fields : FieldBits) (uses : List ElementUse) (group : Nat)
    (codeword : Bits) : Prop where
  size_eq : codeword.size = uses.length * group
  bit_eq : ∀ (stream : FieldStream) (j p : Nat), (sources stream group 0 uses)[j]? = some (some p) →
    codeword[p]? = (fields.of stream)[j]?

/-- As many bits as the elements that feed a stream hold. -/
def FieldBits.Fill (fields : FieldBits) (uses : List ElementUse) (group : Nat) : Prop :=
  ∀ stream, (fields.of stream).size = uses.countP (·.feeds stream) * group

theorem FieldBits.elementAt_eq {bits : Bits} {p : Nat} (hpos : 0 < group)
    (h : p + group ≤ bits.size) : elementAt bits group p = some (bits.extract p (p + group)) :=
  if_pos (Nat.lt_of_lt_of_le (Nat.lt_add_of_pos_right hpos) h)

/-- The bits of the next element are there, and every stream that it feeds goes
on. An element that replaces data moves two streams at once. -/
theorem FieldBits.elementFor_eq {rest : List ElementUse} {use : ElementUse} {at_ : FieldPositions}
    (hfill : fields.Fill (uses ++ use :: rest) group) (hpos : 0 < group)
    (hat : ∀ stream, at_.of stream = uses.countP (·.feeds stream) * group) :
    at_.of use.carries + group ≤ (fields.of use.carries).size ∧
      ∃ next, fields.elementFor group use at_ =
        (some ((fields.of use.carries).extract (at_.of use.carries)
          (at_.of use.carries + group)), next) ∧
        ∀ stream, next.of stream = (uses ++ [use]).countP (·.feeds stream) * group := by
  have hle : at_.of use.carries + group ≤ (fields.of use.carries).size := by
    rw [hat, hfill, List.countP_append, List.countP_cons, if_pos use.feeds_carries,
      ← Nat.add_one_mul]
    exact Nat.mul_le_mul_right _ (by omega)
  have hnext : ∀ stream, (uses ++ [use]).countP (·.feeds stream) * group =
      at_.of stream + if use.feeds stream then group else 0 := by
    intro stream
    rw [List.countP_append, List.countP_singleton, Nat.add_mul, ← hat]
    split <;> simp
  simp only [hnext]
  refine ⟨hle, ?_⟩
  have hbits := elementAt_eq hpos hle
  -- by what the element carries; what goes on is counted in `hnext`
  cases use with
  | sch =>
    refine ⟨{ at_ with sch := at_.sch + group }, ?_, fun stream => by cases stream <;> rfl⟩
    have hsize : 0 < fields.sch.size :=
      Nat.lt_of_lt_of_le (Nat.lt_of_lt_of_le hpos (Nat.le_add_left _ _)) hle
    have hfull : fields.sch.isEmpty = false := by
      rw [Array.isEmpty_eq_false_iff]
      exact Array.ne_empty_of_size_pos hsize
    rw [elementFor, hfull, if_neg Bool.false_ne_true]
    exact congrArg (·, _) hbits
  | harqAck =>
    exact ⟨{ at_ with harqAck := at_.harqAck + group }, congrArg (·, _) hbits,
      fun stream => by cases stream <;> rfl⟩
  | csiPart1 =>
    exact ⟨{ at_ with csiPart1 := at_.csiPart1 + group }, congrArg (·, _) hbits,
      fun stream => by cases stream <;> rfl⟩
  | punctured =>
    exact ⟨{ at_ with sch := at_.sch + group, harqAck := at_.harqAck + group },
      congrArg (·, _) hbits, fun stream => by cases stream <;> rfl⟩

namespace Multiplexed

theorem start : Multiplexed fields [] group #[] where
  size_eq := by simp
  bit_eq := fun stream j p h => by
    rw [sources] at h
    cases h

/-- One more element with the next bits of the stream that it carries. The
places of the others are not moved. -/
theorem append {codeword : Bits} (h : Multiplexed fields uses group codeword) {use : ElementUse}
    {k : Nat} (hk : k = uses.countP (·.feeds use.carries) * group)
    (hle : k + group ≤ (fields.of use.carries).size) :
    Multiplexed fields (uses ++ [use]) group
      (codeword ++ (fields.of use.carries).extract k (k + group)) where
  size_eq := by
    rw [Array.size_append, h.size_eq, Array.size_extract, Nat.min_eq_left hle,
      Nat.add_sub_cancel_left, List.length_append, List.length_singleton, Nat.add_one_mul]
  bit_eq := by
    intro stream j p hsource
    rw [sources_append, List.getElem?_append, length_sources] at hsource
    split at hsource
    · -- a position that was there before
      have hlt := (source_lt (List.mem_of_getElem? hsource)).2
      rw [Nat.zero_add, ← h.size_eq] at hlt
      rw [Array.getElem?_append_left hlt]
      exact h.bit_eq stream j p hsource
    · rename_i hj
      rw [sources, sources, List.append_nil, Nat.zero_add, ← h.size_eq] at hsource
      obtain ⟨rfl, hlt, rfl⟩ := ElementUse.places_getElem?_eq_some hsource
      rw [← hk] at hj hlt ⊢
      rw [Array.getElem?_append_right (Nat.le_add_right _ _), Nat.add_sub_cancel_left,
        Array.getElem?_extract, if_pos (by omega)]
      congr 1
      omega

end Multiplexed

/-- A request whose fields are placed has elements of a machine size, because
the placement has counted their bits. -/
theorem PlacementRequest.bitsPerElement_eq {q : PlacementRequest} {placement : Array ElementUse}
    (h : Placement.ofRequest q = .ok placement) :
    q.bitsPerElement = .ok (q.layers * q.modulation.order) := by
  unfold Placement.ofRequest Placement.rows at h
  rw [bind_eq_ok] at h
  obtain ⟨rows, hrows, -⟩ := h
  rw [bind_eq_ok] at hrows
  obtain ⟨group, hgroup, -⟩ := hrows
  have hgroup' := hgroup
  rw [bitsPerElement, Size.mul_eq_ok] at hgroup'
  rw [hgroup, hgroup'.2]

/-- An element of the request is not empty, and all of them, one in any case,
have a size that a buffer can hold. -/
structure PlacementRequest.Sized (q : PlacementRequest) (elements : Nat) : Prop where
  layers_pos : 0 < q.layers
  size_lt : max elements 1 * (q.layers * q.modulation.order) < Size.signedLimit

namespace PlacementRequest.Sized

variable {q : PlacementRequest} {elements : Nat}

theorem group_pos (h : q.Sized elements) : 0 < q.layers * q.modulation.order :=
  Nat.mul_pos h.layers_pos q.modulation.order_pos

theorem cells_group (h : q.Sized elements) : Size.cells 1 [q.layers * q.modulation.order] =
    .ok (q.layers * q.modulation.order) := by
  refine Size.cells_of_lt Nat.one_pos ?_
  rw [Nat.one_mul, Nat.max_eq_left h.group_pos]
  exact Nat.lt_of_le_of_lt (Nat.le_mul_of_pos_left _ (by omega)) h.size_lt

/-- The codeword can be stored, also when it is empty. -/
theorem cells_codeword (h : q.Sized elements) :
    Size.cells 1 [elements * (q.layers * q.modulation.order)] =
      .ok (elements * (q.layers * q.modulation.order)) := by
  refine Size.cells_of_lt Nat.one_pos ?_
  rw [Nat.one_mul]
  refine Nat.lt_of_le_of_lt (Nat.max_le.mpr ⟨?_, ?_⟩) h.size_lt
  · exact Nat.mul_le_mul_right _ (Nat.le_max_left _ _)
  · exact Nat.mul_pos (by omega) h.group_pos

end PlacementRequest.Sized

/-- The codeword so far and the positions of the streams, once the elements
`seen` are filled. -/
def Filled (fields : FieldBits) (group : Nat) (seen : List ElementUse)
    (state : Bits × FieldPositions) : Prop :=
  Multiplexed fields seen group state.1 ∧
    ∀ stream, state.2.of stream = seen.countP (·.feeds stream) * group

/-- The codeword of fields that fill their elements. The loop is followed
element by element, and every element finds its bits. -/
theorem exists_multiplex {q : PlacementRequest} {placement : Array ElementUse}
    (hplaced : Placement.ofRequest q = .ok placement) (hsized : q.Sized placement.size)
    (hfill : fields.Fill placement.toList (q.layers * q.modulation.order)) :
    ∃ codeword, multiplex fields q = .ok codeword ∧
      Multiplexed fields placement.toList (q.layers * q.modulation.order) codeword := by
  have hcells := hsized.cells_codeword
  have hcell := hsized.cells_group
  have hpos := hsized.group_pos
  rw [multiplex, hplaced, ok_bind, PlacementRequest.bitsPerElement_eq hplaced, ok_bind, hcells,
    ok_bind, require_of (by simpa using Nat.ne_of_gt hpos), ok_bind, hcell, ok_bind]
  generalize q.layers * q.modulation.order = group at *
  rw [← Array.foldlM_toList]
  refine exists_bind (Filled fields group placement.toList)
    (foldlM_total (Filled fields group) ?_ ?_) ?_
  · exact ⟨Multiplexed.start, fun stream => by cases stream <;> exact (Nat.zero_mul _).symm⟩
  · rintro seen use rest ⟨codeword, at_⟩ hsplit ⟨hcodeword, hat⟩
    rw [hsplit] at hfill
    obtain ⟨hle, next, hnext, hat'⟩ := FieldBits.elementFor_eq hfill hpos hat
    dsimp only
    rw [hnext]
    exact ⟨_, rfl, hcodeword.append (hat _) hle, hat'⟩
  · rintro ⟨codeword, at_⟩ ⟨hcodeword, -⟩
    exact ⟨codeword, rfl, hcodeword⟩

/-! ## Without data -/

/-- The next element of a codeword without data: zeros, or the next bits of a
control field. -/
theorem FieldBits.exists_elementFor {rest : List ElementUse} {use : ElementUse}
    {at_ : FieldPositions} (hsch : fields.sch = #[]) (hpos : 0 < group)
    (hfill : ∀ stream ≠ .sch,
      (fields.of stream).size = (uses ++ use :: rest).countP (·.feeds stream) * group)
    (hat : ∀ stream ≠ .sch, at_.of stream = uses.countP (·.feeds stream) * group) :
    ∃ bits next, fields.elementFor group use at_ = (some bits, next) ∧ bits.size = group ∧
      ∀ stream ≠ .sch, next.of stream = (uses ++ [use]).countP (·.feeds stream) * group := by
  have hnext : ∀ stream ≠ .sch, (uses ++ [use]).countP (·.feeds stream) * group =
      at_.of stream + if use.feeds stream then group else 0 := by
    intro stream hstream
    rw [List.countP_append, List.countP_singleton, Nat.add_mul, ← hat stream hstream]
    split <;> simp
  -- a field that the element carries has bits left for it
  have hbits : ∀ stream ≠ .sch, use.feeds stream = true →
      elementAt (fields.of stream) group (at_.of stream) =
        some ((fields.of stream).extract (at_.of stream) (at_.of stream + group)) ∧
      ((fields.of stream).extract (at_.of stream) (at_.of stream + group)).size = group := by
    intro stream hstream hfeeds
    have hle : at_.of stream + group ≤ (fields.of stream).size := by
      rw [hat stream hstream, hfill stream hstream, List.countP_append, List.countP_cons,
        if_pos hfeeds, ← Nat.add_one_mul]
      exact Nat.mul_le_mul_right _ (by omega)
    refine ⟨elementAt_eq hpos hle, ?_⟩
    rw [Array.size_extract, Nat.min_eq_left hle, Nat.add_sub_cancel_left]
  cases use with
  | sch =>
    refine ⟨Array.replicate group 0, at_, ?_, Array.size_replicate, fun stream hstream => ?_⟩
    · rw [elementFor, hsch]
      rfl
    · rw [hnext stream hstream]
      cases stream <;> first | exact absurd rfl hstream | rfl
  | harqAck =>
    obtain ⟨hsome, hsize⟩ := hbits .harqAck (by decide) rfl
    refine ⟨_, { at_ with harqAck := at_.harqAck + group }, congrArg (·, _) hsome, hsize,
      fun stream hstream => ?_⟩
    rw [hnext stream hstream]
    cases stream <;> first | exact absurd rfl hstream | rfl
  | csiPart1 =>
    obtain ⟨hsome, hsize⟩ := hbits .csiPart1 (by decide) rfl
    refine ⟨_, { at_ with csiPart1 := at_.csiPart1 + group }, congrArg (·, _) hsome, hsize,
      fun stream hstream => ?_⟩
    rw [hnext stream hstream]
    cases stream <;> first | exact absurd rfl hstream | rfl
  | punctured =>
    obtain ⟨hsome, hsize⟩ := hbits .harqAck (by decide) rfl
    refine ⟨_, { at_ with sch := at_.sch + group, harqAck := at_.harqAck + group },
      congrArg (·, _) hsome, hsize, fun stream hstream => ?_⟩
    rw [hnext stream hstream]
    cases stream <;> first | exact absurd rfl hstream | rfl

/-- The length of the codeword so far, and the positions of the control fields.
-/
def ControlFilled (group : Nat) (seen : List ElementUse) (state : Bits × FieldPositions) : Prop :=
  state.1.size = seen.length * group ∧
    ∀ stream ≠ .sch, state.2.of stream = seen.countP (·.feeds stream) * group

/-- The codeword of control fields that fill their elements, without data. The
elements of the data are then filled with zeros. -/
theorem exists_multiplex_of_sch_empty {q : PlacementRequest} {placement : Array ElementUse}
    (hplaced : Placement.ofRequest q = .ok placement) (hsized : q.Sized placement.size)
    (hsch : fields.sch = #[]) (hfill : ∀ stream ≠ .sch, (fields.of stream).size =
      placement.toList.countP (·.feeds stream) * (q.layers * q.modulation.order)) :
    ∃ codeword, multiplex fields q = .ok codeword ∧
      codeword.size = placement.size * (q.layers * q.modulation.order) := by
  have hcells := hsized.cells_codeword
  have hcell := hsized.cells_group
  have hpos := hsized.group_pos
  rw [multiplex, hplaced, ok_bind, PlacementRequest.bitsPerElement_eq hplaced, ok_bind, hcells,
    ok_bind, require_of (by simpa using Nat.ne_of_gt hpos), ok_bind, hcell, ok_bind]
  generalize q.layers * q.modulation.order = group at *
  rw [← Array.foldlM_toList, ← Array.length_toList]
  refine exists_bind (ControlFilled group placement.toList) (foldlM_total (ControlFilled group) ?_ ?_) ?_
  · exact ⟨(Nat.zero_mul _).symm, fun stream _ => by cases stream <;> exact (Nat.zero_mul _).symm⟩
  · rintro seen use rest ⟨codeword, at_⟩ hsplit ⟨hcodeword, hat⟩
    rw [hsplit] at hfill
    obtain ⟨bits, next, hnext, hbits, hat'⟩ := FieldBits.exists_elementFor hsch hpos hfill hat
    dsimp only
    rw [hnext]
    refine ⟨_, rfl, ?_, hat'⟩
    show (codeword ++ bits).size = _
    rw [Array.size_append, hbits, show codeword.size = seen.length * group from hcodeword,
      List.length_append, List.length_singleton, Nat.add_one_mul]
  · rintro ⟨codeword, at_⟩ ⟨hcodeword, -⟩
    exact ⟨codeword, rfl, hcodeword⟩

/-! ## Taking apart -/

/-- The soft bit at a place of a codeword; replaced data are erased. -/
def softAt (word : List SoftBit) : Option Nat → SoftBit
  | some p => word.getD p SoftBit.erased
  | none => SoftBit.erased

theorem softAt_append_left {first second : List SoftBit} {places : List (Option Nat)}
    (h : ∀ p, some p ∈ places → p < first.length) :
    places.map (softAt (first ++ second)) = places.map (softAt first) := by
  refine List.map_congr_left fun place hplace => ?_
  cases place with
  | none => rfl
  | some p => exact List.getD_append _ _ _ _ (h p hplace)

theorem softAt_append_right (first second : List SoftBit) (places : List (Option Nat)) :
    (places.map (Option.map (first.length + ·))).map (softAt (first ++ second)) =
      places.map (softAt second) := by
  rw [List.map_map]
  refine List.map_congr_left fun place _ => ?_
  cases place with
  | none => rfl
  | some p =>
    show (first ++ second).getD (first.length + p) SoftBit.erased = second.getD p SoftBit.erased
    rw [List.getD_append_right _ _ _ _ (Nat.le_add_right _ _), Nat.add_sub_cancel_left]

namespace Demultiplexer

/-- The soft bits that a stream gets, in order. -/
def received (stream : FieldStream) (deliveries : List Delivery) : List SoftBit :=
  deliveries.flatMap fun d => if d.stream = stream then d.softBits.toList else []

theorem received_append (stream : FieldStream) (first second : List Delivery) :
    received stream (first ++ second) = received stream first ++ received stream second :=
  List.flatMap_append

/-- The elements of runs. -/
def expand (runs : List (ElementUse × Nat)) : List ElementUse :=
  runs.flatMap fun run => List.replicate run.2 run.1

/-- Elements of one use that follow each other are taken as one run, and nothing
else is changed. -/
theorem expand_runs (uses : List ElementUse) : expand (runs uses) = uses := by
  induction uses with
  | nil => rfl
  | cons use uses ih =>
    rw [runs]
    cases hruns : runs uses with
    | nil =>
      rw [hruns] at ih
      rw [← ih]
      rfl
    | cons run more =>
      obtain ⟨use', n⟩ := run
      rw [hruns] at ih
      dsimp only
      by_cases hsame : use = use'
      · subst hsame
        rw [if_pos rfl, ← ih, expand, expand, List.flatMap_cons, List.flatMap_cons,
          List.replicate_succ, List.cons_append]
      · rw [if_neg hsame, ← ih]
        rfl

variable {stream : FieldStream} {group : Nat} {block : Array SoftBit}

/-- What a stream gets of a run: the soft bits if the run carries it, erased
ones if its data were replaced, else nothing. -/
theorem received_deliver (use : ElementUse) (n : Nat) (softBits : Array SoftBit) :
    received stream (deliver group use n softBits) =
      if use.carries = stream then softBits.toList
      else if use.feeds stream then List.replicate (n * group) SoftBit.erased else [] := by
  cases use with
  | punctured =>
    cases stream <;>
      simp [deliver, received, ElementUse.carries, ElementUse.feeds, List.flatMap_replicate]
  | _ => cases stream <;> simp [deliver, received, ElementUse.carries, ElementUse.feeds]

/-- The soft bits of a span are those at its positions. -/
theorem map_softAt_range {offset n : Nat} (h : offset + n ≤ block.size) :
    ((List.range' offset n).map some).map (softAt block.toList) =
      (block.extract offset (offset + n)).toList := by
  rw [List.map_map]
  apply List.ext_getElem
  · simp only [List.length_map, List.length_range', Array.length_toList, Array.size_extract]
    omega
  · intro i h₁ h₂
    rw [List.length_map, List.length_range'] at h₁
    have hlt : offset + i < block.size := by omega
    simp [softAt, hlt]

/-- A run delivers the soft bits at its own places. -/
theorem received_deliver_extract {offset n : Nat} (use : ElementUse)
    (h : offset + n * group ≤ block.size) :
    received stream (deliver group use n (block.extract offset (offset + n * group))) =
      (use.places stream (n * group) offset).map (softAt block.toList) := by
  rw [received_deliver, ElementUse.places]
  split
  · exact (map_softAt_range h).symm
  · split
    · rw [List.map_replicate]
      rfl
    · rfl

theorem received_deliverRuns :
    ∀ {offset : Nat} {runs : List (ElementUse × Nat)},
      offset + (expand runs).length * group ≤ block.size →
      received stream (deliverRuns group block offset runs) =
        (sources stream group offset (expand runs)).map (softAt block.toList)
  | offset, [], _ => rfl
  | offset, (use, n) :: rest, h => by
    rw [expand, List.flatMap_cons, ← expand] at h ⊢
    dsimp only at h ⊢
    rw [List.length_append, List.length_replicate, Nat.add_mul, ← Nat.add_assoc] at h
    rw [deliverRuns, received_append, received_deliver_extract use (by omega),
      received_deliverRuns h, sources_append, List.map_append, sources_replicate,
      List.length_replicate]

variable {d : Demultiplexer}

/-- A block of whole elements within the codeword is taken apart, and every
stream gets the soft bits at its places. -/
theorem exists_route {n : Nat} (hgroup : 0 < d.group) (hblock : block.size = n * d.group)
    (hdone : d.done + n ≤ d.placement.size) :
    ∃ deliveries, d.route block = .ok (deliveries, { d with done := d.done + n }) ∧
      ∀ stream, received stream deliveries =
        (sources stream d.group 0 ((d.placement.toList.drop d.done).take n)).map
          (softAt block.toList) := by
  have hwhole : block.size % d.group = 0 := by rw [hblock, Nat.mul_mod_left]
  have helements : block.size / d.group = n := by rw [hblock, Nat.mul_div_cancel _ hgroup]
  have huses : (d.placement.extract d.done (d.done + n)).toList =
      (d.placement.toList.drop d.done).take n := by
    rw [Array.toList_extract, List.extract_eq_take_drop, Nat.add_sub_cancel_left]
  refine ⟨deliverRuns d.group block 0 (runs ((d.placement.toList.drop d.done).take n)), ?_,
    fun stream => ?_⟩
  · rw [route, Size.mod_of_pos hgroup, ok_bind, hwhole]
    dsimp only
    rw [helements, require_of (beq_self_eq_true 0), ok_bind, require_of (decide_eq_true hdone),
      ok_bind, huses]
    rfl
  · rw [received_deliverRuns, expand_runs]
    rw [expand_runs, List.length_take, hblock, Nat.zero_add]
    exact Nat.mul_le_mul_right _ (Nat.min_le_left _ _)

/-- A block that goes beyond the codeword is refused, before anything of it is
passed on. -/
theorem consume_of_beyond {sinks : FieldSinks} (hgroup : 0 < d.group)
    (hwhole : d.group ∣ block.size)
    (hbeyond : d.placement.size * d.group < d.done * d.group + block.size) :
    FieldSinks.consume (d, sinks) block =
      .error (.requirement s!"Codeword exceeds the {d.placement.size} data resource elements") := by
  obtain ⟨n, hn⟩ := hwhole
  rw [Nat.mul_comm] at hn
  rw [hn, ← Nat.add_mul, Nat.mul_lt_mul_right hgroup] at hbeyond
  have hroute : d.route block =
      .error (.requirement s!"Codeword exceeds the {d.placement.size} data resource elements") := by
    rw [route, Size.mod_of_pos hgroup, ok_bind, hn, Nat.mul_mod_left]
    dsimp only
    rw [Nat.mul_div_cancel _ hgroup, require_of (beq_self_eq_true 0), ok_bind,
      decide_eq_false (by omega), require_false]
    rfl
  rw [FieldSinks.consume]
  dsimp only
  rw [hroute]
  rfl

/-! ## Blocks -/

/-- Blocks of whole elements hold whole elements together. -/
theorem length_flatMap_of_dvd {group : Nat} {blocks : List (Array SoftBit)}
    (h : ∀ block ∈ blocks, group ∣ block.size) :
    ∃ n, (blocks.flatMap Array.toList).length = n * group := by
  induction blocks with
  | nil => exact ⟨0, (Nat.zero_mul _).symm⟩
  | cons block blocks ih =>
    obtain ⟨⟨k, hk⟩, hrest⟩ := List.forall_mem_cons.mp h
    obtain ⟨n, hn⟩ := ih hrest
    refine ⟨k + n, ?_⟩
    rw [List.flatMap_cons, List.length_append, hn, Array.length_toList, hk, Nat.add_mul,
      Nat.mul_comm k]

/-- Take blocks apart one after the other. -/
def routeAll (d : Demultiplexer) : List (Array SoftBit) → Checked (List Delivery × Demultiplexer)
  | [] => .ok ([], d)
  | block :: blocks => do
    let (first, d) ← d.route block
    let (rest, d) ← d.routeAll blocks
    return (first ++ rest, d)

/-- Blocks of whole elements within the codeword: every stream gets the soft
bits at its places, wherever the blocks begin and end. -/
theorem exists_routeAll {blocks : List (Array SoftBit)} {n : Nat} (hgroup : 0 < d.group)
    (hwhole : ∀ block ∈ blocks, d.group ∣ block.size)
    (hlength : (blocks.flatMap Array.toList).length = n * d.group)
    (hdone : d.done + n ≤ d.placement.size) :
    ∃ deliveries, d.routeAll blocks = .ok (deliveries, { d with done := d.done + n }) ∧
      ∀ stream, received stream deliveries =
        (sources stream d.group 0 ((d.placement.toList.drop d.done).take n)).map
          (softAt (blocks.flatMap Array.toList)) := by
  induction blocks generalizing d n with
  | nil =>
    obtain rfl : n = 0 := (Nat.mul_eq_zero.mp hlength.symm).resolve_right (Nat.ne_of_gt hgroup)
    exact ⟨[], rfl, fun stream => rfl⟩
  | cons block blocks ih =>
    obtain ⟨hfirst, hrest⟩ := List.forall_mem_cons.mp hwhole
    obtain ⟨k, hk⟩ := hfirst
    rw [Nat.mul_comm] at hk
    rw [List.flatMap_cons] at hlength ⊢
    rw [List.length_append, Array.length_toList, hk] at hlength
    -- the elements of the first block, and those of the others
    obtain ⟨m, rfl⟩ : ∃ m, n = k + m := by
      refine Nat.exists_eq_add_of_le (Nat.le_of_mul_le_mul_right ?_ hgroup)
      rw [← hlength]
      exact Nat.le_add_right _ _
    rw [Nat.add_mul, Nat.add_left_cancel_iff] at hlength
    obtain ⟨first, hroute, hreceived⟩ := exists_route hgroup hk (by omega : d.done + k ≤ _)
    obtain ⟨rest, hroutes, hreceived'⟩ :=
      ih (d := { d with done := d.done + k }) hgroup hrest hlength
        (by rw [Nat.add_assoc]; exact hdone)
    refine ⟨first ++ rest, ?_, fun stream => ?_⟩
    · rw [routeAll, hroute, ok_bind]
      dsimp only
      rw [hroutes, ok_bind, Nat.add_assoc]
      rfl
    · have hsplit : (d.placement.toList.drop d.done).take (k + m) =
          (d.placement.toList.drop d.done).take k ++
            (d.placement.toList.drop (d.done + k)).take m := by
        rw [List.take_add, List.drop_drop]
      have htaken : ((d.placement.toList.drop d.done).take k).length * d.group =
          block.toList.length := by
        rw [List.length_take, List.length_drop, Array.length_toList, Array.length_toList, hk,
          Nat.min_eq_left (by omega)]
      rw [received_append, hreceived, hreceived', hsplit, sources_append, Nat.zero_add, htaken,
        List.map_append]
      congr 1
      · refine (softAt_append_left fun p hp => ?_).symm
        have := (source_lt hp).2
        omega
      · rw [← Nat.add_zero block.toList.length, sources_shift, softAt_append_right]

end Demultiplexer

/-! ## There and back -/

/-- The codeword of the fields: every position of it holds one bit of one
stream, and every bit of a stream is at its place, but for the data that an
acknowledgement replaced. -/
structure CodewordOf (fields : FieldBits) (uses : List ElementUse) (group : Nat)
    (codeword : Bits) : Prop extends Multiplexed fields uses group codeword where
  length_eq : ∀ stream, (sources stream group 0 uses).length = (fields.of stream).size
  existsUnique : ∀ p < codeword.size, ∃! source : FieldStream × Nat,
    (sources source.1 group 0 uses)[source.2]? = some (some p)
  /-- Only data are replaced. -/
  placed : ∀ stream, stream ≠ .sch → none ∉ sources stream group 0 uses

/-- What is known once the soft bits of `word` have been taken apart. -/
structure TakenApart (placement : Array ElementUse) (group : Nat) (word : List SoftBit)
    (deliveries : List Delivery) (d : Demultiplexer) : Prop where
  received_eq : ∀ stream, Demultiplexer.received stream deliveries =
    (sources stream group 0 (placement.toList.take (word.length / group))).map (softAt word)
  /-- The codeword ends when all its elements were taken apart. -/
  finish_iff : d.finish = .ok () ↔ word.length = placement.size * group
  /-- Nothing is passed on of a block that goes beyond it, whatever the fields do with it. -/
  beyond : ∀ (sinks : FieldSinks) (block : Array SoftBit), group ∣ block.size →
    placement.size * group < word.length + block.size →
    FieldSinks.consume (d, sinks) block =
      .error (.requirement s!"Codeword exceeds the {placement.size} data resource elements")

/-- Fields that fill their elements make a codeword. Its soft bits reach the
streams of its bits in order, in whatever blocks of whole elements they come,
with erased ones for replaced data. -/
theorem multiplex_routeAll {q : PlacementRequest} {placement : Array ElementUse}
    (hplaced : Placement.ofRequest q = .ok placement) (hsized : q.Sized placement.size)
    (hfill : fields.Fill placement.toList (q.layers * q.modulation.order)) :
    ∃ codeword d, multiplex fields q = .ok codeword ∧
      CodewordOf fields placement.toList (q.layers * q.modulation.order) codeword ∧
      Demultiplexer.start q = .ok d ∧
      ∀ blocks : List (Array SoftBit),
        (∀ block ∈ blocks, q.layers * q.modulation.order ∣ block.size) →
        (blocks.flatMap Array.toList).length ≤ codeword.size →
        ∃ deliveries d', d.routeAll blocks = .ok (deliveries, d') ∧
          TakenApart placement (q.layers * q.modulation.order) (blocks.flatMap Array.toList)
            deliveries d' := by
  obtain ⟨codeword, hmultiplex, hcodeword⟩ := exists_multiplex hplaced hsized hfill
  have hstart : Demultiplexer.start q = .ok ⟨placement, q.layers * q.modulation.order, 0⟩ := by
    rw [Demultiplexer.start, hplaced, ok_bind, PlacementRequest.bitsPerElement_eq hplaced, ok_bind,
      hsized.cells_group]
    rfl
  have hpos := hsized.group_pos
  generalize q.layers * q.modulation.order = group at *
  refine ⟨codeword, _, hmultiplex, ⟨hcodeword, fun stream => ?_, fun p hp => ?_,
    fun stream hstream => none_notMem_sources hstream⟩, hstart, fun blocks hwhole hle => ?_⟩
  · rw [length_sources, hfill]
  · rw [hcodeword.size_eq] at hp
    exact existsUnique_source (Nat.zero_le p) (by rwa [Nat.zero_add])
  · obtain ⟨n, hn⟩ := Demultiplexer.length_flatMap_of_dvd hwhole
    have hle' : n ≤ placement.size := by
      rw [hn, hcodeword.size_eq, Array.length_toList] at hle
      exact Nat.le_of_mul_le_mul_right hle hpos
    obtain ⟨deliveries, hroutes, hreceived⟩ :=
      Demultiplexer.exists_routeAll (d := ⟨placement, group, 0⟩) hpos hwhole hn
        (by rwa [Nat.zero_add])
    refine ⟨deliveries, _, hroutes, fun stream => ?_, ?_, fun sinks block hblock hbeyond => ?_⟩
    · rw [hreceived, hn, Nat.mul_div_cancel _ hpos, List.drop_zero]
    · rw [Demultiplexer.finish, hn, Nat.mul_left_inj (Nat.ne_of_gt hpos), require_eq_ok, beq_iff_eq,
        Nat.zero_add]
    · refine Demultiplexer.consume_of_beyond hpos hblock ?_
      rwa [Nat.zero_add, ← hn]

/-- Two symbols of a block, the first one with reference signals: an
acknowledgement that replaces data, a channel state report and data. -/
def shortRequest : PlacementRequest :=
  { modulation := .qpsk, layers := 1
    region := { blocks := 1, firstSymbol := 0, symbolCount := 2, dmrsType := .type1
                dmrsMask := ⟨#[true] ++ Array.replicate 13 false, by decide⟩, freeGroups := 2 }
    ackPayload := 1, ackBits := 2, reservedBits := 4, csi1Bits := 2 }

/-- The fields of that request. -/
def shortFields : FieldBits := ⟨Array.replicate 22 1, #[0, 1], #[1, 0]⟩

/-- The elements of that request. -/
def shortPlacement : Array ElementUse := #[.punctured, .csiPart1] ++ Array.replicate 10 .sch

/-- An acknowledgement replaces data on the way out, and comes back beside
erased soft bits. -/
theorem multiplex_routeAll_short :
    ∃ codeword d, multiplex shortFields shortRequest = .ok codeword ∧
      CodewordOf shortFields shortPlacement.toList 2 codeword ∧
      Demultiplexer.start shortRequest = .ok d ∧
      ∀ blocks : List (Array SoftBit), (∀ block ∈ blocks, 2 ∣ block.size) →
        (blocks.flatMap Array.toList).length ≤ codeword.size →
        ∃ deliveries d', d.routeAll blocks = .ok (deliveries, d') ∧
          TakenApart shortPlacement 2 (blocks.flatMap Array.toList) deliveries d' :=
  multiplex_routeAll (q := shortRequest) (by decide +kernel) ⟨by decide, by decide⟩
    (fun stream => by cases stream <;> decide)

/-- Without layers an element has no bits, and without blocks there is no
element, but one of too many layers is no size of a buffer. In both cases the
empty fields fill all elements, and there is no codeword. -/
theorem not_multiplexed :
    let nothing : FieldBits := ⟨#[], #[], #[]⟩
    let plain : PlacementRequest :=
      { shortRequest with ackPayload := 0, ackBits := 0, reservedBits := 0, csi1Bits := 0 }
    let noLayers : PlacementRequest := { plain with layers := 0 }
    let wide : PlacementRequest :=
      { plain with layers := Size.signedLimit / 2, region := { plain.region with blocks := 0 } }
    (Placement.ofRequest noLayers = .ok (Array.replicate 12 .sch) ∧
        nothing.Fill (List.replicate 12 .sch) (0 * 2) ∧
        multiplex nothing noLayers = .error (.requirement "chunk size must be non-zero")) ∧
      Placement.ofRequest wide = .ok #[] ∧ nothing.Fill [] (Size.signedLimit / 2 * 2) ∧
        multiplex nothing wide = .error .arithmetic := by
  refine ⟨⟨by decide +kernel, fun stream => ?_, by decide +kernel⟩, by decide +kernel,
    fun stream => ?_, by decide +kernel⟩
  · cases stream <;> rfl
  · cases stream <;> rfl

end Uplink
