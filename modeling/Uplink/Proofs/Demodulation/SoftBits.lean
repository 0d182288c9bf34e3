import Uplink.Constellation
import Uplink.Equalizer
import Uplink.Proofs.GoldSequence.Recurrence
import Uplink.Proofs.Single.Quantization

/-!
# From received elements to soft bits

Every element gives one symbol on each layer and every symbol one soft bit for each of its bits,
whatever is received and whether the channel can be inverted or not.

- `Equalizer.size_equalize`: as many symbols as layers.
- `Modulation.size_demapAll`, `inReach_demapAll`: the soft bits of received symbols.
- `GoldSequence.exists_descramble`: soft bits in the reach of arithmetic can be descrambled.
-/

namespace Uplink

/-! ## Equalization -/

namespace ComplexMatrix

theorem size_eliminate {n column : Nat} {m m' : ComplexMatrix}
    (h : eliminate n m column = some m') : m'.rows.size = m.rows.size := by
  unfold eliminate at h
  dsimp only at h
  split at h
  case isTrue => cases h
  case isFalse =>
    rw [← Option.some.inj h, Array.size_mapIdx, Array.size_swapIfInBounds]

theorem size_foldlM_eliminate {n : Nat} {columns : List Nat} {m m' : ComplexMatrix}
    (h : columns.foldlM (eliminate n) m = some m') : m'.rows.size = m.rows.size := by
  induction columns generalizing m with
  | nil => rw [← Option.some.inj h]
  | cons column columns ih =>
    rw [List.foldlM_cons, Option.bind_eq_bind, Option.bind_eq_some_iff] at h
    obtain ⟨m₁, hcolumn, h⟩ := h
    rw [ih h, size_eliminate hcolumn]

/-- An inverse has as many rows as the matrix, by whichever path it was found.
-/
theorem size_invert {n : Nat} {m m' : ComplexMatrix} (h : m.invert n = some m') :
    m'.rows.size = n := by
  rw [invert, Option.bind_eq_bind, Option.bind_eq_some_iff] at h
  obtain ⟨reduced, hreduced, h⟩ := h
  rw [← Option.some.inj h, Array.size_map, size_foldlM_eliminate hreduced]
  exact Array.size_ofFn

end ComplexMatrix

namespace Equalizer

theorem size_separate (layers : Nat) (received : Array Complex) (channel : ComplexMatrix)
    (noise : Array Float32) : (separate layers received channel noise).size = layers := by
  unfold separate
  dsimp only
  split
  case h_1 inverse hinverse => rw [Array.size_mapIdx, ComplexMatrix.size_invert hinverse]
  case h_2 => exact Array.size_replicate

/-- An element gives one symbol on each layer, also when its channel cannot be
inverted. -/
theorem size_equalize (layers : Nat) (received : Array Complex) (channel : ComplexMatrix)
    (noise : Array Float32) : (equalize layers received channel noise).size = layers := by
  unfold equalize
  split
  case isTrue hone => exact hone.symm
  case isFalse => exact size_separate _ _ _ _

end Equalizer

/-! ## Pieces behind each other -/

theorem toList_foldl_append {α : Type} (pieces : List (Array α)) (start : Array α) :
    (pieces.foldl (· ++ ·) start).toList = start.toList ++ pieces.flatMap Array.toList := by
  induction pieces generalizing start with
  | nil => rw [List.foldl_nil, List.flatMap_nil, List.append_nil]
  | cons piece pieces ih =>
    rw [List.foldl_cons, ih, Array.toList_append, List.flatMap_cons, List.append_assoc]

theorem size_foldl_append {α : Type} {n : Nat} {pieces : List (Array α)}
    (h : ∀ piece ∈ pieces, piece.size = n) (start : Array α) :
    (pieces.foldl (· ++ ·) start).size = start.size + pieces.length * n := by
  have hlengths : pieces.map (fun piece => piece.toList.length) = pieces.map fun _ => n :=
    List.map_congr_left h
  rw [← Array.length_toList, toList_foldl_append, List.length_append, List.length_flatMap,
    hlengths, List.map_const', List.sum_replicate, smul_eq_mul, Array.length_toList]

theorem mem_foldl_append {α : Type} {pieces : List (Array α)} {start : Array α} {a : α}
    (h : a ∈ pieces.foldl (· ++ ·) start) : a ∈ start ∨ ∃ piece ∈ pieces, a ∈ piece := by
  rw [Array.mem_def, toList_foldl_append, List.mem_append, List.mem_flatMap] at h
  simpa only [Array.mem_def] using h

/-! ## Soft bits of symbols -/

namespace Modulation

/-- Soft bits of a symbol are quantized, and so never certain. -/
theorem inReach_softBits (m : Modulation) (levels : Array Float32) (symbol : Complex)
    (noise : Float32) : ∀ a ∈ m.softBits levels symbol noise, a.InReach := by
  intro a ha
  unfold softBits at ha
  split at ha
  case isTrue =>
    obtain ⟨t, -, rfl⟩ := Array.mem_map.mp ha
    exact SoftBit.inReach_ofSingle _
  case isFalse =>
    rw [(Array.mem_replicate.mp ha).2]
    exact SoftBit.inReach_erased

theorem size_softBits (m : Modulation) (levels : Array Float32) (symbol : Complex)
    (noise : Float32) : (m.softBits levels symbol noise).size = m.order := by
  unfold softBits
  split
  case isTrue => rw [Array.size_map, Array.size_range]
  case isFalse => exact Array.size_replicate

variable (m : Modulation) {symbols : Array Complex} {noise : Array Float32}

/-- The soft bits of every symbol. -/
theorem mem_zipWith_softBits {piece : Array SoftBit}
    (h : piece ∈ (symbols.zipWith (m.softBits m.axisLevels) noise).toList) :
    ∃ symbol noise, piece = m.softBits m.axisLevels symbol noise := by
  rw [Array.toList_zipWith] at h
  obtain ⟨i, hi, rfl⟩ := List.mem_iff_getElem.mp h
  exact ⟨_, _, List.getElem_zipWith⟩

/-- As many soft bits as bits were mapped. -/
theorem size_demapAll (h : symbols.size = noise.size) :
    (m.demapAll symbols noise).size = symbols.size * m.order := by
  rw [demapAll, ← Array.foldl_toList, size_foldl_append (n := m.order), Array.length_toList,
    Array.size_zipWith, ← h, Nat.min_self, Array.size_empty, Nat.zero_add]
  intro piece hpiece
  obtain ⟨symbol, noise, rfl⟩ := m.mem_zipWith_softBits hpiece
  exact m.size_softBits _ _ _

theorem inReach_demapAll (symbols : Array Complex) (noise : Array Float32) :
    ∀ a ∈ m.demapAll symbols noise, a.InReach := by
  intro a ha
  rw [demapAll, ← Array.foldl_toList] at ha
  rcases mem_foldl_append ha with hempty | ⟨piece, hpiece, ha⟩
  · exact absurd hempty (Array.not_mem_empty a)
  · obtain ⟨symbol, noise, rfl⟩ := m.mem_zipWith_softBits hpiece
    exact m.inReach_softBits _ _ _ a ha

end Modulation

/-! ## Descrambling -/

namespace GoldSequence

/-- What demodulation produces has an opposite, so descrambling cannot fail on
it. -/
theorem turnable_of_inReach (c : Nat → Bool) {softBits : Array SoftBit}
    (h : ∀ a ∈ softBits, a.InReach) : Turnable c softBits := by
  refine turnable_of_le c fun i hi => ?_
  have hreach : -120 ≤ softBits[i].value.toInt := (h _ (Array.getElem_mem hi)).1
  rw [Buffer.getD_of_lt hi]
  omega

/-- Soft bits in the reach of arithmetic can be descrambled. -/
theorem exists_descramble (g : GoldSequence) {softBits : Array SoftBit}
    (h : ∀ a ∈ softBits, a.InReach) :
    ∃ out g', g.descramble softBits = .ok (out, g') ∧ out.size = softBits.size := by
  obtain ⟨c, hreads⟩ := g.exists_reads
  have hturned := descramble_eq hreads softBits
  rw [if_pos (turnable_of_inReach c h)] at hturned
  exact ⟨_, _, hturned, Array.size_mapIdx⟩

end GoldSequence

end Uplink
