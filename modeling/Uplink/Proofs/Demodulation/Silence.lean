import Uplink.Proofs.Demodulation.SoftBits

/-!
# Elements without a channel

An element whose channel is zero on every port and layer says nothing, whatever was received on it:
its symbols are erased, and so are all their soft bits. A single layer has no gain there. Several
layers have a channel whose Gram matrix has no pivot.

- `ComplexMatrix.invert_zero`: a matrix of zeros has no inverse.
- `ComplexMatrix.Silent`, `Equalizer.equalize_silent`: the symbols of such an element.
- `Modulation.softBits_erased`: the soft bits of such a symbol.
-/

namespace Uplink

/-! ## Sums of zeros -/

namespace Complex

theorem zero_add_zero : zero + zero = zero := by decide

theorem conj_zero_mul_zero : zero.conj * zero = zero := by decide

theorem normSqr_zero : zero.normSqr = 0 := by decide

theorem sum_eq_zero {terms : Array Complex} (h : ∀ x ∈ terms, x = zero) : sum terms = zero := by
  rw [sum, ← Array.foldl_toList]
  refine List.foldlRecOn (motive := (· = zero)) _ _ rfl fun total htotal x hx => ?_
  rw [htotal, h x (Array.mem_def.mpr hx), zero_add_zero]

end Complex

theorem Single.sum_eq_zero {terms : Array Float32} (h : ∀ x ∈ terms, x = 0) :
    Single.sum terms = 0 := by
  rw [Single.sum, ← Array.foldl_toList]
  refine List.foldlRecOn (motive := (· = 0)) _ _ rfl fun total htotal x hx => ?_
  rw [htotal, h x (Array.mem_def.mpr hx)]
  decide

/-! ## Matrices of zeros -/

namespace ComplexMatrix

/-- An entry of a tabulated matrix, which is zero outside the table. -/
theorem entry_tabulate (rows columns : Nat) (entries : Nat → Nat → Complex) (i j : Nat) :
    (tabulate rows columns entries).entry i j =
      if i < rows ∧ j < columns then entries i j else Complex.zero := by
  simp only [entry, tabulate, Array.getD_eq_getD_getElem?, Array.getElem?_ofFn]
  by_cases hi : i < rows
  · by_cases hj : j < columns
    · simp [hi, hj]
    · simp [hi, hj]
  · simp [hi]

/-- A column of zeros has no pivot. -/
theorem eliminate_zero {n column : Nat} {m : ComplexMatrix}
    (h : ∀ row, m.entry row column = Complex.zero) : eliminate n m column = none := by
  unfold eliminate
  dsimp only
  rw [h, Complex.normSqr_zero]
  exact if_pos (by decide)

/-- A matrix of zeros has no inverse, since its first column has no pivot. -/
theorem invert_zero {n : Nat} (hn : 0 < n) {m : ComplexMatrix}
    (h : ∀ i j, m.entry i j = Complex.zero) : m.invert n = none := by
  obtain ⟨n, rfl⟩ := Nat.exists_eq_add_one_of_ne_zero hn.ne'
  have hcolumn : ∀ row, (m.augment (n + 1)).entry row 0 = Complex.zero := by
    intro row
    rw [augment, entry_tabulate, if_pos (Nat.succ_pos n), h, ite_self]
  rw [invert, List.range_succ_eq_map, List.foldlM_cons, eliminate_zero hcolumn]
  rfl

/-- No port receives any layer. -/
def Silent (m : ComplexMatrix) : Prop := ∀ row ∈ m.rows, ∀ x ∈ row, x = Complex.zero

/-- An entry of a silent channel is zero, inside the matrix or beyond it. -/
theorem Silent.entry_eq {m : ComplexMatrix} (h : m.Silent) (i j : Nat) :
    m.entry i j = Complex.zero := by
  rw [entry]
  by_cases hi : i < m.rows.size
  · rw [Buffer.getD_of_lt hi]
    by_cases hj : j < m.rows[i].size
    · rw [Buffer.getD_of_lt hj]
      exact h _ (Array.getElem_mem hi) _ (Array.getElem_mem hj)
    · simp [Array.getD, hj]
  · simp [Array.getD, hi]

end ComplexMatrix

/-! ## Symbols -/

namespace Equalizer

/-- Without any gain the symbol is erased: the total gain is zero, and it is
checked before anything is divided by it. -/
theorem combine_silent {channel : Array Complex} (h : ∀ x ∈ channel, x = Complex.zero)
    (received : Array Complex) (noise : Array Float32) :
    combine received channel noise = Equalized.erased := by
  have hgains : ∀ x ∈ channel.map Complex.normSqr, x = 0 := by
    intro x hx
    obtain ⟨y, hy, rfl⟩ := Array.mem_map.mp hx
    rw [h y hy, Complex.normSqr_zero]
  rw [combine]
  dsimp only
  rw [Single.sum_eq_zero hgains]
  exact if_pos (by decide)

/-- Without an inverse the symbols are erased. The matrix to invert is the
product of the channel with itself, here a matrix of zeros. -/
theorem separate_silent {layers : Nat} (hlayers : 0 < layers) {channel : ComplexMatrix}
    (h : channel.Silent) (received : Array Complex) (noise : Array Float32) :
    separate layers received channel noise = Array.replicate layers Equalized.erased := by
  have hproduct : ∀ i j, Complex.sum ((Array.range received.size).map fun p =>
      (channel.entry p i).conj * channel.entry p j) = Complex.zero := by
    intro i j
    refine Complex.sum_eq_zero fun x hx => ?_
    obtain ⟨p, -, rfl⟩ := Array.mem_map.mp hx
    rw [h.entry_eq, h.entry_eq, Complex.conj_zero_mul_zero]
  rw [separate]
  dsimp only
  rw [ComplexMatrix.invert_zero hlayers fun i j => by
    rw [ComplexMatrix.entry_tabulate, hproduct, ite_self]]

/-- Whatever was received on a silent element, its symbols are erased, on one
layer as on several. -/
theorem equalize_silent {layers : Nat} (hlayers : 0 < layers) {channel : ComplexMatrix}
    (h : channel.Silent) (received : Array Complex) (noise : Array Float32) :
    equalize layers received channel noise = Array.replicate layers Equalized.erased := by
  rw [equalize]
  split
  case isTrue hone =>
    have hfirst : ∀ x ∈ channel.rows.map (·.getD 0 Complex.zero), x = Complex.zero := by
      intro x hx
      obtain ⟨row, hrow, rfl⟩ := Array.mem_map.mp hx
      obtain ⟨i, hi, rfl⟩ := Array.mem_iff_getElem.mp hrow
      rw [← Buffer.getD_of_lt hi #[]]
      exact h.entry_eq i 0
    rw [combine_silent hfirst, hone]
    rfl
  case isFalse => exact separate_silent hlayers h received noise

end Equalizer

/-! ## Soft bits -/

/-- The soft bits of an erased symbol are erased. -/
theorem Modulation.softBits_erased (m : Modulation) (levels : Array Float32) :
    m.softBits levels Equalized.erased.symbol Equalized.erased.noise =
      Array.replicate m.order SoftBit.erased := if_neg (by decide)

end Uplink
