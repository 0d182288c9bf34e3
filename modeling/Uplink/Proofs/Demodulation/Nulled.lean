import Uplink.Proofs.Alike
import Uplink.Proofs.Demodulation.Silence
import Uplink.Proofs.Mapping.Places
import Uplink.Proofs.Receiver.Estimation

/-!
# Demodulation with a nulled subcarrier

A subcarrier whose channel is cleared gives erased soft bits, and nothing else changes: the elements
are equalized one by one, and each soft bit is turned by the bit of its own place.

- `Nulled`: values of elements, with those of one subcarrier replaced; what is made of them element
  by element (`Nulled.flatMap`) or place by place (`Nulled.mapIdx`) is nulled, too.
- `ChannelEstimate.row_of_clearSubcarrier`: what is read of a cleared estimate.
- `DemodulationRequest.equalizeSymbol_nulled`, `receive_nulled`: the symbols and soft bits of a
  symbol.
-/

namespace Uplink

/-! ## Values of elements -/

/-- Two lists of values, `n` of each element on the subcarriers `ks`. The first
one is the second with the values of the elements on subcarrier `d` replaced by
`x`. -/
inductive Nulled {α : Type} (d n : Nat) (x : α) : List Nat → List α → List α → Prop
  | nil : Nulled d n x [] [] []
  | hit {ks : List Nat} {a b piece : List α} (hpiece : piece.length = n)
      (rest : Nulled d n x ks a b) :
      Nulled d n x (d :: ks) (List.replicate n x ++ a) (piece ++ b)
  | miss {k : Nat} {ks : List Nat} {a b piece : List α} (hk : k ≠ d) (hpiece : piece.length = n)
      (rest : Nulled d n x ks a b) : Nulled d n x (k :: ks) (piece ++ a) (piece ++ b)

namespace Nulled

variable {α β : Type} {d n e j k : Nat} {x : α} {ks ks' : List Nat} {a a' b b' : List α}

/-- Both lists have `n` values for each of the subcarriers. -/
theorem length_eq (h : Nulled d n x ks a b) :
    a.length = ks.length * n ∧ b.length = ks.length * n := by
  induction h with
  | nil => exact ⟨(Nat.zero_mul n).symm, (Nat.zero_mul n).symm⟩
  | hit hpiece _ ih =>
    rw [List.length_append, List.length_append, List.length_replicate, hpiece, ih.1, ih.2,
      List.length_cons, Nat.succ_mul, Nat.add_comm]
    exact ⟨rfl, rfl⟩
  | miss _ hpiece _ ih =>
    rw [List.length_append, List.length_append, hpiece, ih.1, ih.2, List.length_cons, Nat.succ_mul,
      Nat.add_comm]
    exact ⟨rfl, rfl⟩

theorem append (h : Nulled d n x ks a b) (h' : Nulled d n x ks' a' b') :
    Nulled d n x (ks ++ ks') (a ++ a') (b ++ b') := by
  induction h with
  | nil => exact h'
  | hit hpiece _ ih =>
    rw [List.cons_append, List.append_assoc, List.append_assoc]
    exact .hit hpiece ih
  | miss hk hpiece _ ih =>
    rw [List.cons_append, List.append_assoc, List.append_assoc]
    exact .miss hk hpiece ih

/-- The values of one more element. -/
theorem snoc (h : Nulled d n x ks a b) {piece piece' : List α} (hpiece : piece'.length = n)
    (hhit : k = d → piece = List.replicate n x) (hmiss : k ≠ d → piece = piece') :
    Nulled d n x (ks ++ [k]) (a ++ piece) (b ++ piece') := by
  refine h.append ?_
  rw [← List.append_nil piece, ← List.append_nil piece']
  by_cases hk : k = d
  · rw [hhit hk, hk]
    exact .hit hpiece .nil
  · rw [hmiss hk]
    exact .miss hk hpiece .nil

/-- Several values are found from each one. What is found from the replacement
is to be one value over and over, and becomes the new replacement. -/
theorem flatMap (h : Nulled d n x ks a b) {f : α → List β} {m : Nat} {y : β}
    (hlength : ∀ z, (f z).length = m) (hf : f x = List.replicate m y) :
    Nulled d (n * m) y ks (a.flatMap f) (b.flatMap f) := by
  have hpieces : ∀ {piece : List α}, piece.length = n → (piece.flatMap f).length = n * m := by
    intro piece hpiece
    rw [List.length_flatMap, List.map_congr_left fun z _ => hlength z, List.map_const',
      List.sum_replicate, hpiece, smul_eq_mul]
  induction h with
  | nil => exact .nil
  | hit hpiece _ ih =>
    have hreplicate : (List.replicate n x).flatMap f = List.replicate (n * m) y := by
      rw [List.flatMap_replicate, hf, List.flatten_replicate_replicate]
    rw [List.flatMap_append, List.flatMap_append, hreplicate]
    exact .hit (hpieces hpiece) ih
  | miss hk hpiece _ ih =>
    rw [List.flatMap_append, List.flatMap_append]
    exact .miss hk (hpieces hpiece) ih

/-- Each value is changed by what stands at its place, as the scrambling does.
The replacement has to be left as it is everywhere. -/
theorem mapIdx (h : Nulled d n x ks a b) {f : Nat → α → α} (hf : ∀ i, f i x = x) :
    Nulled d n x ks (a.mapIdx f) (b.mapIdx f) := by
  induction h generalizing f with
  | nil => exact .nil
  -- the places of the rest start `n` later, so the induction is over any `f`
  | hit hpiece _ ih =>
    have hreplicate : (List.replicate n x).mapIdx f = List.replicate n x := by
      have := (List.mapIdx_eq_replicate_iff (l := List.replicate n x) (f := f) (b := x)).mpr
        fun i hi => by rw [List.getElem_replicate, hf]
      rwa [List.length_replicate] at this
    rw [List.mapIdx_append, List.mapIdx_append, hreplicate, List.length_replicate, hpiece]
    exact .hit (by rw [List.length_mapIdx, hpiece]) (ih fun i => hf (i + n))
  | miss hk hpiece _ ih =>
    rw [List.mapIdx_append, List.mapIdx_append, hpiece]
    exact .miss hk (by rw [List.length_mapIdx, hpiece]) (ih fun i => hf (i + n))

theorem getElem?_first {piece : List α} (hpiece : piece.length = n) (hj : j < n) :
    (piece ++ a)[0 * n + j]? = piece[j]? := by
  rw [Nat.zero_mul, Nat.zero_add, List.getElem?_append_left (by omega)]

theorem getElem?_later {piece : List α} (hpiece : piece.length = n) :
    (piece ++ a)[(e + 1) * n + j]? = a[e * n + j]? := by
  rw [Nat.succ_mul, List.getElem?_append_right (by omega), hpiece]
  congr 1
  omega

/-- The values of an element on the subcarrier are replaced. -/
theorem getElem?_hit (h : Nulled d n x ks a b) (he : ks[e]? = some d) (hj : j < n) :
    a[e * n + j]? = some x := by
  induction h generalizing e with
  | nil => cases he
  | hit _ _ ih =>
    cases e with
    | zero =>
      rw [getElem?_first List.length_replicate hj, List.getElem?_replicate_of_lt hj]
    | succ e =>
      rw [getElem?_later List.length_replicate]
      exact ih he
  | miss hk hpiece _ ih =>
    cases e with
    | zero => exact absurd (Option.some.inj he) hk
    | succ e =>
      rw [getElem?_later hpiece]
      exact ih he

/-- The values of the other elements stay. -/
theorem getElem?_miss (h : Nulled d n x ks a b) (he : ks[e]? = some k) (hk : k ≠ d) (hj : j < n) :
    a[e * n + j]? = b[e * n + j]? := by
  induction h generalizing e with
  | nil => cases he
  | hit hpiece _ ih =>
    cases e with
    | zero => exact absurd (Option.some.inj he).symm hk
    | succ e =>
      rw [getElem?_later List.length_replicate, getElem?_later hpiece]
      exact ih he
  | miss _ hpiece _ ih =>
    cases e with
    | zero => rw [getElem?_first hpiece hj, getElem?_first hpiece hj]
    | succ e =>
      rw [getElem?_later hpiece, getElem?_later hpiece]
      exact ih he

end Nulled

/-! ## The estimate -/

namespace ChannelEstimate

variable {estimate cleared : ChannelEstimate} {d : Nat}

/-- What is cleared in a table of rows. -/
def clearRows (d : Nat) (rows : Array (Array (Array Complex))) : Array (Array (Array Complex)) :=
  rows.map (·.map (·.setIfInBounds d Complex.zero))

/-- A row of the cleared estimate is the row of the estimate with one entry
zero. -/
theorem row_of_clearSubcarrier (h : estimate.clearSubcarrier d = .ok cleared)
    (hd : d < Size.signedLimit) (symbol port layer : Nat) :
    cleared.row symbol port layer = do
      return (← estimate.row symbol port layer).setIfInBounds d Complex.zero := by
  obtain ⟨k, hk, h⟩ := bind_eq_ok.mp h
  rw [Buffer.position, if_pos hd] at hk
  split at hk
  case isFalse => cases hk
  case isTrue =>
    obtain rfl := Except.ok.inj hk
    obtain rfl := Except.ok.inj h
    rw [row, row]
    dsimp only
    split
    · refine congrArg Except.ok ?_
      rw [Array.getD_eq_getD_getElem?, Array.getD_eq_getD_getElem?, Array.getElem?_map]
      cases estimate.rows[estimate.dims.place symbol port layer]? with
      | none => rfl
      | some row => rfl
    · rfl

/-- The rows of a symbol, for some ports and layers, are the same rows cleared.
-/
theorem rows_of_clearSubcarrier (h : estimate.clearSubcarrier d = .ok cleared)
    (hd : d < Size.signedLimit) (symbol : Nat) (ports layers : Array Nat) :
    (ports.mapM fun port => layers.mapM (cleared.row symbol port)) = do
      return clearRows d (← ports.mapM fun port => layers.mapM (estimate.row symbol port)) := by
  have hlayers : ∀ port, layers.mapM (cleared.row symbol port) = do
      return (← layers.mapM (estimate.row symbol port)).map (·.setIfInBounds d Complex.zero) :=
    fun port => by
      rw [← mapM_map_result_array]
      exact congrArg (layers.mapM ·) (funext (row_of_clearSubcarrier h hd symbol port))
  simp only [hlayers]
  exact mapM_map_result_array _ _ _

theorem port_of_clearSubcarrier (h : estimate.clearSubcarrier d = .ok cleared) :
    cleared.port = estimate.port := by
  obtain ⟨k, -, h⟩ := bind_eq_ok.mp h
  rw [← Except.ok.inj h]
  rfl

/-- Other subcarriers are read as before. -/
theorem read_clearRows_of_ne {k : Nat} (hk : k ≠ d) (rows : Array (Array (Array Complex))) :
    ((clearRows d rows).mapM (·.mapM (Buffer.read · k)) : Checked _) =
      rows.mapM (·.mapM (Buffer.read · k)) := by
  rw [clearRows, Array.mapM_map]
  refine congrArg (rows.mapM ·) (funext fun layers => ?_)
  rw [Function.comp_apply, Array.mapM_map]
  exact congrArg (layers.mapM ·) (funext fun row => Buffer.read_setIfInBounds_of_ne hk row _)

/-- The subcarrier is read as zeros. -/
theorem read_clearRows_self (rows : Array (Array (Array Complex))) :
    ((clearRows d rows).mapM (·.mapM (Buffer.read · d)) : Checked _) = do
      return (← rows.mapM (·.mapM (Buffer.read · d))).map (·.map fun _ => Complex.zero) := by
  rw [clearRows, Array.mapM_map, ← mapM_map_result_array]
  refine congrArg (rows.mapM ·) (funext fun layers => ?_)
  rw [Function.comp_apply, Array.mapM_map, ← mapM_map_result_array]
  exact congrArg (layers.mapM ·) (funext fun row => Buffer.read_setIfInBounds_self row d _)

end ChannelEstimate

/-! ## One symbol -/

/-- The soft bits of symbols, one symbol after the other. -/
theorem Modulation.toList_demapAll (m : Modulation) (symbols : Array Equalized) :
    (m.demapAll (symbols.map (·.symbol)) (symbols.map (·.noise))).toList =
      symbols.toList.flatMap fun z => (m.softBits m.axisLevels z.symbol z.noise).toList := by
  have hpieces : (symbols.map (·.symbol)).zipWith (m.softBits m.axisLevels)
      (symbols.map (·.noise)) =
        symbols.map fun z => m.softBits m.axisLevels z.symbol z.noise := by
    refine Array.ext (by simp) fun i hi _ => ?_
    simp
  rw [demapAll, hpieces, ← Array.foldl_toList, toList_foldl_append, Array.toList_map,
    List.flatMap_map]
  rfl

namespace DemodulationRequest

variable {q : DemodulationRequest} {grid : ResourceGrid} {estimate cleared : ChannelEstimate}
  {noise : Array Float32} {d symbol : Nat}

open ChannelEstimate

/-- An element is equalized as before, or its symbols are erased. It depends
only on whether the element is on the cleared subcarrier. -/
theorem equalizeElement_nulled (hlayers : 0 < q.layers) (rows : Array (Array (Array Complex)))
    (received : Array (Array Complex)) (i k : Nat) :
    Alike (fun found found' => found'.size = q.layers ∧
        (k = d → found = Array.replicate q.layers Equalized.erased) ∧ (k ≠ d → found = found'))
      (q.equalizeElement (clearRows d rows) noise received i k)
      (q.equalizeElement rows noise received i k) := by
  have hsize := fun channel => Equalizer.size_equalize q.layers
    (received.map (·.getD i Complex.zero)) channel noise
  unfold equalizeElement
  by_cases hk : k = d
  · -- on the subcarrier every gain is read as zero, so the channel is silent
    subst hk
    rw [read_clearRows_self]
    generalize rows.mapM (·.mapM (Buffer.read · k)) = found
    cases found with
    | error fault => exact .fault fault
    | ok channel =>
      refine .ok ⟨hsize _, fun _ => ?_, fun h => absurd rfl h⟩
      refine Equalizer.equalize_silent hlayers (fun row hrow x hx => ?_) _ _
      obtain ⟨row, -, rfl⟩ := Array.mem_map.mp hrow
      obtain ⟨x, -, rfl⟩ := Array.mem_map.mp hx
      rfl
  · rw [read_clearRows_of_ne hk]
    refine .after _ fun channel _ => .ok ⟨hsize _, fun h => absurd h hk, fun _ => rfl⟩

/-- The symbols of a symbol's elements: erased on the cleared subcarrier and as
before on the others. -/
theorem equalizeSymbol_nulled (h : estimate.clearSubcarrier d = .ok cleared)
    (hd : d < Size.signedLimit) (hlayers : 0 < q.layers) (mask : Array Bool)
    (subcarriers : Array Nat) :
    Alike (fun symbols symbols' =>
        Nulled d q.layers Equalized.erased subcarriers.toList symbols.toList symbols'.toList)
      (q.equalizeSymbol grid cleared noise symbol mask subcarriers)
      (q.equalizeSymbol grid estimate noise symbol mask subcarriers) := by
  unfold equalizeSymbol
  refine .after _ fun received _ => ?_
  rw [rows_of_clearSubcarrier h hd]
  generalize ((Array.range received.size).mapM fun port =>
    (Array.range q.layers).mapM (estimate.row symbol port)) = found
  cases found with
  | error fault => exact .fault fault
  | ok rows =>
    simp only [ok_bind, pure_eq_ok]
    rw [← Array.foldlM_toList, ← Array.foldlM_toList, Array.toList_zipIdx]
    refine (Alike.foldlM (fun done (symbols symbols' : Array Equalized) => Nulled d q.layers
      Equalized.erased (done.map Prod.fst) symbols.toList symbols'.toList) .nil ?step).mono ?whole
    case step =>
      rintro done ⟨k, i⟩ rest symbols symbols' - hdone
      refine (equalizeElement_nulled hlayers rows received i k).bind ?_
      rintro found found' ⟨hsize, hhit, hmiss⟩
      refine .ok ?_
      rw [List.map_append, Array.toList_append, Array.toList_append]
      refine hdone.snoc (by rw [Array.length_toList, hsize]) (fun hk => ?_) fun hk => ?_
      · rw [hhit hk, Array.toList_replicate]
      · rw [hmiss hk]
    case whole =>
      intro symbols symbols' hall
      rwa [List.zipIdx_map_fst] at hall

/-- The soft bits of a symbol. Demapping and descrambling keep the relation,
since an erased symbol has erased soft bits and the sequence leaves those as
they are. -/
theorem receive_nulled (h : estimate.clearSubcarrier d = .ok cleared) (hd : d < Size.signedLimit)
    (hlayers : 0 < q.layers) {progress progress' : Progress}
    (hprogress : progress.scrambling = progress'.scrambling) :
    Alike (fun x x' => Nulled d (q.layers * q.modulation.order) SoftBit.erased
        (q.dataPlaces symbol) x.1.toList x'.1.toList ∧ x.2.scrambling = x'.2.scrambling)
      (q.receive grid cleared noise symbol progress)
      (q.receive grid estimate noise symbol progress') := by
  unfold receive
  dsimp only
  generalize hmask : q.dataMask (q.dmrsMask.contains symbol) = mask
  have hplaces : q.dataPlaces symbol = ((Array.range mask.size).filter (mask.getD · false)).toList
      := by
    rw [Array.toList_filter, Array.toList_range, dataPlaces, hmask]
  generalize (Array.range mask.size).filter (mask.getD · false) = subcarriers at hplaces ⊢
  rw [hplaces]
  by_cases hempty : subcarriers.isEmpty = true
  · rw [if_pos hempty, if_pos hempty, Array.isEmpty_iff.mp hempty]
    exact .ok ⟨.nil, hprogress⟩
  · rw [if_neg hempty, if_neg hempty]
    refine (equalizeSymbol_nulled h hd hlayers mask subcarriers).bind ?_
    intro symbols symbols' hnulled
    obtain ⟨c, hreads⟩ := progress'.scrambling.exists_reads
    -- an erased symbol is demapped to `order` erased soft bits
    have hdemapped := hnulled.flatMap
      (f := fun z => (q.modulation.softBits q.modulation.axisLevels z.symbol z.noise).toList)
      (m := q.modulation.order) (y := SoftBit.erased)
      (fun z => by rw [Array.length_toList, Modulation.size_softBits])
      (by rw [Modulation.softBits_erased, Array.toList_replicate])
    rw [← Modulation.toList_demapAll, ← Modulation.toList_demapAll] at hdemapped
    -- both runs take the same number of bits off the sequence
    have hsize := hdemapped.length_eq.1.trans hdemapped.length_eq.2.symm
    rw [hprogress, GoldSequence.descramble_eq hreads, GoldSequence.descramble_eq hreads,
      if_pos (GoldSequence.turnable_of_inReach c (q.modulation.inReach_demapAll _ _)),
      if_pos (GoldSequence.turnable_of_inReach c (q.modulation.inReach_demapAll _ _)), ok_bind,
      ok_bind]
    refine .ok ⟨?_, ?_⟩
    · dsimp only
      rw [Array.toList_mapIdx, Array.toList_mapIdx]
      refine hdemapped.mapIdx fun i => ?_
      cases c i <;> rfl
    · dsimp only
      rw [← Array.length_toList, hsize, Array.length_toList]

end DemodulationRequest

end Uplink
