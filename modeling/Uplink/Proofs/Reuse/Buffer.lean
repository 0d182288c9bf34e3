import Uplink.Proofs.Alike
import Uplink.Reuse.Buffer

/-!
# Buffers that are written over

A buffer that is written over from its start to its end holds nothing of what it held before.

- `Buffer.getElem?_overwrite`: what is where after a write.
- `Buffer.Begins`: a buffer that is written so far.
- `Buffer.overwriteEach_eq`: pieces that fill a buffer.
- `ResourceGrid.readOver_eq`, `ResourceGrid.readMasked_eq`: reads that fill a buffer.
-/

namespace Uplink

namespace Buffer

universe u

variable {α : Type u} {n p start : Nat} {buffer values done : Array α}

@[simp] theorem size_resize (buffer : Array α) (length : Nat) (value : α) :
    (resize buffer length value).size = length := by
  rw [resize, Array.size_append, Array.size_extract, Array.size_replicate]
  omega

/-- Overwriting changes the places from `start` on, as many as there are values.
-/
theorem getElem?_overwrite (hp : p < buffer.size) :
    (overwrite buffer start values)[p]? =
      if start ≤ p ∧ p < start + values.size then values[p - start]? else buffer[p]? := by
  have hsize : p < (overwrite buffer start values).size := by rwa [size_overwrite]
  have hfound := @getD_overwrite α buffer values start p buffer[p] hp
  rw [getD_of_lt hsize, getD_of_lt hp] at hfound
  rw [Array.getElem?_eq_getElem hsize, hfound, Array.getElem?_eq_getElem hp]
  split
  case isTrue h =>
    have hvalue : p - start < values.size := by omega
    rw [getD_of_lt hvalue, Array.getElem?_eq_getElem hvalue]
  case isFalse => rfl

/-- Written so far: a buffer of `n` elements, the first of which are the values.
-/
structure Begins (n : Nat) (values buffer : Array α) : Prop where
  size_eq : buffer.size = n
  getElem?_eq : ∀ p < values.size, buffer[p]? = values[p]?

namespace Begins

/-- Nothing is written yet. -/
theorem empty (h : buffer.size = n) : Begins n #[] buffer :=
  ⟨h, fun p hp => absurd hp (Nat.not_lt_zero p)⟩

/-- A piece is written behind what has been written before. -/
theorem append (h : Begins n done buffer) (hroom : done.size + values.size ≤ n) :
    Begins n (done ++ values) (overwrite buffer done.size values) where
  size_eq := (size_overwrite ..).trans h.size_eq
  getElem?_eq p hp := by
    rw [Array.size_append] at hp
    have hin : p < buffer.size := by
      rw [h.size_eq]
      omega
    rw [getElem?_overwrite hin]
    by_cases hdone : p < done.size
    · rw [if_neg (by omega), h.getElem?_eq p hdone, Array.getElem?_append_left hdone]
    · rw [if_pos (by omega), Array.getElem?_append_right (by omega)]

/-- A field of the values is written behind that of the values before. -/
theorem append_map {β : Type*} {f : β → α} {done values : Array β}
    (h : Begins n (done.map f) buffer) (hroom : done.size + values.size ≤ n) :
    Begins n ((done ++ values).map f) (overwrite buffer done.size (values.map f)) := by
  have hwritten : Begins n (done.map f ++ values.map f)
      (overwrite buffer (done.map f).size (values.map f)) :=
    h.append (by rwa [Array.size_map, Array.size_map])
  rwa [Array.size_map, ← Array.map_append] at hwritten

theorem push (h : Begins n done buffer) (hroom : done.size < n) (x : α) :
    Begins n (done.push x) (buffer.setIfInBounds done.size x) where
  size_eq := Array.size_setIfInBounds.trans h.size_eq
  getElem?_eq p hp := by
    rw [Array.size_push] at hp
    rw [Array.getElem?_setIfInBounds, Array.getElem?_push, h.size_eq]
    by_cases hlast : p = done.size
    · rw [if_pos hlast.symm, if_pos hroom, if_pos hlast]
    · rw [if_neg (Ne.symm hlast), if_neg hlast]
      exact h.getElem?_eq p (by omega)

/-- A buffer that is written to its end is what was written: nothing of what it
held before is left. -/
theorem eq_of_size (h : Begins n values buffer) (hsize : values.size = n) : buffer = values := by
  refine Array.ext_getElem? fun p => ?_
  by_cases hp : p < values.size
  · exact h.getElem?_eq p hp
  · rw [Array.getElem?_eq_none (by rw [h.size_eq]; omega), Array.getElem?_eq_none (by omega)]

end Begins

theorem overwrite_eq_of_size (h : values.size = buffer.size) :
    overwrite buffer 0 values = values := by
  have hwritten : Begins buffer.size (#[] ++ values) (overwrite buffer 0 values) :=
    (Begins.empty rfl).append (Nat.le_of_eq ((Nat.zero_add _).trans h))
  rw [Array.empty_append] at hwritten
  exact hwritten.eq_of_size h

/-- Pieces of one length that fill a buffer replace it, by induction on the
pieces. -/
theorem overwriteEach_eq {length : Nat} {pieces : List (Array α)}
    (hpieces : ∀ piece ∈ pieces, piece.size = length)
    (hsize : buffer.size = pieces.length * length) :
    overwriteEach buffer length pieces = pieces.foldl (· ++ ·) #[] := by
  -- `rest` is written after `done`, of which there are `i` pieces
  suffices ∀ (rest : List (Array α)) (i : Nat) (done buffer : Array α),
      (∀ piece ∈ rest, piece.size = length) → done.size = i * length →
      Begins ((i + rest.length) * length) done buffer →
      (rest.zipIdx i).foldl (fun buffer x => overwrite buffer (x.2 * length) x.1) buffer =
        rest.foldl (· ++ ·) done from
    this pieces 0 #[] buffer hpieces (Nat.zero_mul _).symm (.empty (by rw [hsize, Nat.zero_add]))
  intro rest
  induction rest with
  | nil =>
    intro i done buffer _ hdone h
    exact h.eq_of_size hdone
  | cons piece rest ih =>
    intro i done buffer hall hdone h
    obtain ⟨hpiece, hall⟩ := List.forall_mem_cons.mp hall
    have hnext : (done ++ piece).size = (i + 1) * length := by
      rw [Array.size_append, hdone, hpiece, Nat.succ_mul]
    have hroom : (i + 1) * length ≤ (i + (piece :: rest).length) * length :=
      Nat.mul_le_mul_right _ (by rw [List.length_cons]; omega)
    have hwritten : Begins _ (done ++ piece) (overwrite buffer done.size piece) :=
      h.append (by rwa [← Array.size_append, hnext])
    rw [hdone, List.length_cons, show i + (rest.length + 1) = i + 1 + rest.length by omega]
      at hwritten
    rw [List.zipIdx_cons, List.foldl_cons, List.foldl_cons]
    exact ih (i + 1) (done ++ piece) _ hall hnext hwritten

end Buffer

/-! ## Reads from the grid -/

namespace ResourceGrid

variable {grid : ResourceGrid} {port symbol : Nat}

theorem size_of_readRange {length start : Nat} {values : Array Complex}
    (h : grid.readRange length port symbol start = .ok values) : values.size = length := by
  obtain ⟨stop, -, h⟩ := bind_eq_ok.mp h
  obtain ⟨-, -, h⟩ := bind_eq_ok.mp h
  rw [← Except.ok.inj h, Array.size_ofFn]

/-- A row is read as if there had been none: the read covers all of it. -/
theorem readOver_eq (row : Array Complex) :
    grid.readOver row port symbol = grid.readRange row.size port symbol 0 := by
  rw [readOver]
  cases h : grid.readRange row.size port symbol 0 with
  | ok values => exact congrArg Except.ok (Buffer.overwrite_eq_of_size (size_of_readRange h))
  | error f => rfl

/-- The elements of a mask are read into a buffer of their number as into any
other. Every place of the buffer is written before it is returned. -/
theorem readMasked_eq {mask : Array Bool} {buffer buffer' : Array Complex} {n start : Nat}
    (hcount : ((List.range mask.size).filter (mask.getD · false)).length = n)
    (hsize : buffer.size = n) (hsize' : buffer'.size = n) :
    grid.readMasked buffer port symbol start mask =
      grid.readMasked buffer' port symbol start mask := by
  -- both buffers begin with what has been read
  have halike : Alike (fun x x' : Nat × Array Complex => ∃ values : Array Complex,
      values.size = ((List.range mask.size).filter (mask.getD · false)).length ∧
      x.1 = values.size ∧ x'.1 = values.size ∧
      Buffer.Begins n values x.2 ∧ Buffer.Begins n values x'.2)
      (grid.readMasked buffer port symbol start mask)
      (grid.readMasked buffer' port symbol start mask) := by
    refine Alike.foldlM (fun done (x x' : Nat × Array Complex) => ∃ values : Array Complex,
      values.size = (done.filter (mask.getD · false)).length ∧ x.1 = values.size ∧
      x'.1 = values.size ∧ Buffer.Begins n values x.2 ∧ Buffer.Begins n values x'.2)
      ⟨#[], rfl, rfl, rfl, .empty hsize, .empty hsize'⟩ ?_
    rintro done k rest ⟨count, read⟩ ⟨count', read'⟩ hsplit ⟨values, hvalues, rfl, rfl, h, h'⟩
    rw [hsplit, List.filter_append, List.length_append] at hcount
    rw [List.filter_append, List.length_append]
    dsimp only at h h' ⊢
    by_cases hmarked : mask.getD k false = true
    · rw [List.filter_cons_of_pos (p := (mask.getD · false)) hmarked, List.length_cons] at hcount
      rw [List.filter_cons_of_pos (p := (mask.getD · false)) hmarked, if_pos hmarked,
        if_pos hmarked]
      have hroom : values.size < n := by omega
      refine .after _ fun subcarrier _ => .after _ fun x _ => ?_
      rw [Buffer.write_of_lt (h.size_eq ▸ hroom), Buffer.write_of_lt (h'.size_eq ▸ hroom)]
      refine .ok ⟨values.push x, ?_, ?_, ?_, h.push hroom x, h'.push hroom x⟩
      · rw [Array.size_push, hvalues]
        rfl
      · rw [Array.size_push]
      · rw [Array.size_push]
    · rw [List.filter_cons_of_neg (p := (mask.getD · false)) hmarked, if_neg hmarked,
        if_neg hmarked]
      exact .ok ⟨values, hvalues, rfl, rfl, h, h'⟩
  refine halike.eq ?_
  rintro ⟨count, read⟩ ⟨count', read'⟩ ⟨values, hvalues, rfl, rfl, h, h'⟩
  rw [hcount] at hvalues
  dsimp only at h h'
  rw [h.eq_of_size hvalues, h'.eq_of_size hvalues]

end ResourceGrid

end Uplink
