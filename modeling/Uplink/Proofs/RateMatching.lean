import Uplink.Proofs.Selection
import Uplink.Proofs.SoftBit

/-!
# Rate matching and its reverse

Both directions follow the same route: the bit read `k`-th from the circular buffer goes to the
place `interleaved k` of the codeword, and the soft bit found there comes back to the position
read `k`-th.

- `Codeblock.interleaved_deinterleaved`, `deinterleaved_interleaved`: the places of a codeblock are
  taken once each.
- `Codeblock.exists_rateMatch`: what rate matching sends.
- `Codeblock.arrivals`: the soft bits that come back to a position, in the order of the walk.
- `Codeblock.rateDematch_eq_ok`: what is stored afterwards.
-/

namespace Uplink

open Ldpc

namespace Codeblock

variable {c : Codeblock}

/-- What holds of every codeblock of a codeword. -/
structure Sound (c : Codeblock) : Prop extends c.Laid where
  liftingSize_mem : c.liftingSize ∈ liftingSizes
  matched : c.matchedLength % c.modulation.order = 0

/-! ## Interleaving -/

/-- Number of symbols of a codeblock on one layer. -/
def columns (c : Codeblock) : Nat := c.matchedLength / c.modulation.order

/-- The bit that goes to place `j`. -/
def deinterleaved (c : Codeblock) (j : Nat) : Nat :=
  (j % c.modulation.order) * c.columns + j / c.modulation.order

theorem matchedLength_eq (h : c.matchedLength % c.modulation.order = 0) :
    c.matchedLength = c.columns * c.modulation.order := by
  rw [columns, Nat.div_mul_cancel (Nat.dvd_of_mod_eq_zero h)]

/-- A number below a product is a quotient and a remainder, each in its range.
Interleaving exchanges the two. -/
theorem table_lt {a b k : Nat} (hk : k < a * b) : (k % a) * b + k / a < a * b := by
  have ha : 0 < a := Nat.pos_of_mul_pos_right (Nat.lt_of_le_of_lt (Nat.zero_le k) hk)
  have hrow : k / a < b := Nat.div_lt_of_lt_mul hk
  have hcolumn := Nat.mul_le_mul_right b (Nat.succ_le_of_lt (Nat.mod_lt k ha))
  rw [Nat.succ_mul] at hcolumn
  omega

/-- Reading a table by columns what was written by rows gives the number back.
-/
theorem table_inverse {a b k : Nat} (hk : k < a * b) :
    ((k % a) * b + k / a) % b * a + ((k % a) * b + k / a) / b = k := by
  have hrow : k / a < b := Nat.div_lt_of_lt_mul hk
  have hb : 0 < b := Nat.lt_of_le_of_lt (Nat.zero_le _) hrow
  rw [Nat.mul_comm (k % a) b, Nat.mul_add_mod, Nat.mod_eq_of_lt hrow, Nat.mul_add_div hb,
    Nat.div_eq_of_lt hrow, Nat.add_zero, Nat.mul_comm, Nat.div_add_mod]

theorem interleaved_lt (h : c.matchedLength % c.modulation.order = 0) {k : Nat}
    (hk : k < c.matchedLength) : c.interleaved k < c.matchedLength := by
  rw [matchedLength_eq h] at hk ⊢
  exact table_lt hk

theorem deinterleaved_lt (h : c.matchedLength % c.modulation.order = 0) {j : Nat}
    (hj : j < c.matchedLength) : c.deinterleaved j < c.matchedLength := by
  rw [matchedLength_eq h, Nat.mul_comm] at hj ⊢
  exact table_lt hj

/-- The receiver puts back every bit that the interleaver has moved. -/
theorem deinterleaved_interleaved (h : c.matchedLength % c.modulation.order = 0) {k : Nat}
    (hk : k < c.matchedLength) : c.deinterleaved (c.interleaved k) = k := by
  rw [matchedLength_eq h] at hk
  exact table_inverse hk

theorem interleaved_deinterleaved (h : c.matchedLength % c.modulation.order = 0) {j : Nat}
    (hj : j < c.matchedLength) : c.interleaved (c.deinterleaved j) = j := by
  rw [matchedLength_eq h, Nat.mul_comm] at hj
  exact table_inverse hj

/-- No two bits are moved to one place. -/
theorem interleaved_injective (h : c.matchedLength % c.modulation.order = 0) :
    ∀ i < c.matchedLength, ∀ j < c.matchedLength, c.interleaved i = c.interleaved j → i = j := by
  intro i hi j hj heq
  rw [← deinterleaved_interleaved h hi, heq, deinterleaved_interleaved h hj]

/-! ## Matching -/

/-- Rate matching sends the bits of the walk, interleaved. It asks nothing of
the word but its size. -/
theorem exists_rateMatch (h : c.Laid) (hmatched : c.matchedLength % c.modulation.order = 0)
    (hselection : c.selection = .ok c.walkOf) {sent : Bits} (hsent : sent.size = c.sentLength) :
    ∃ bits, c.rateMatch sent c.matchedLength = .ok bits ∧ bits.size = c.matchedLength ∧
      ∀ k < c.matchedLength,
        bits.getD (c.interleaved k) 0 = sent.getD (c.walkOf.position k) 0 := by
  have hproper := (selection_eq_ok hselection).2.1
  have hread : ∀ k, Buffer.read sent (c.walkOf.position k) =
      .ok (sent.getD (c.walkOf.position k) 0) := by
    intro k
    have hlt : c.walkOf.position k < sent.size :=
      Nat.lt_of_lt_of_le (Selection.position_lt hproper k) (hsent ▸ h.ring_le)
    rw [Buffer.read_of_lt hlt, Buffer.getD_of_lt hlt]
  -- each step writes one place, so the loop is a scatter that never faults
  obtain ⟨bits, hloop, hbits⟩ := foldlM_total
    (f := fun (output : Bits) k => do
      let bit ← Buffer.read sent (c.walkOf.position k)
      return output.setIfInBounds (c.interleaved k) bit)
    (l := List.range c.matchedLength) (b := Array.replicate c.matchedLength 0)
    (fun seen output => output = Buffer.scatter c.interleaved
      (fun k => sent.getD (c.walkOf.position k) 0) seen.length
      (Array.replicate c.matchedLength 0)) rfl (by
    rintro seen k rest output hsplit rfl
    obtain ⟨rfl, -⟩ := range_split hsplit
    refine ⟨_, by rw [hread, ok_bind]; rfl, ?_⟩
    simp [Buffer.scatter_succ])
  refine ⟨bits, ?_, ?_, fun k hk => ?_⟩
  · rw [rateMatch, require_of (beq_self_eq_true _), ok_bind, require_of (by simpa using hsent),
      ok_bind, require_of (by simpa using hmatched), ok_bind, hselection, ok_bind]
    exact hloop
  · rw [hbits, Buffer.size_scatter, Array.size_replicate]
  · rw [hbits, List.length_range,
      Buffer.getD_scatter hk (interleaved_injective hmatched)
        (by rw [Array.size_replicate]; exact interleaved_lt hmatched hk)]

/-! ## Dematching -/

/-- The soft bits that come back to position `p` among the first `n`, in the
order of the walk. -/
def arrivalsUpTo (c : Codeblock) (sel : Selection) (received : Array SoftBit) (p n : Nat) :
    List SoftBit :=
  ((List.range n).filter fun k => sel.position k = p).map fun k =>
    received.getD (c.interleaved k) SoftBit.erased

/-- The soft bits that come back to position `p`. -/
def arrivals (c : Codeblock) (received : Array SoftBit) (p : Nat) : List SoftBit :=
  c.arrivalsUpTo c.walkOf received p c.matchedLength

/-- The loop over the reception meets the soft bits in the order of the walk, so
the next one is added behind those that came before. -/
theorem arrivalsUpTo_succ (c : Codeblock) (sel : Selection) (received : Array SoftBit) (p n : Nat) :
    c.arrivalsUpTo sel received p (n + 1) = c.arrivalsUpTo sel received p n ++
      if sel.position n = p then [received.getD (c.interleaved n) SoftBit.erased] else [] := by
  rw [arrivalsUpTo, List.range_succ, List.filter_append, List.map_append, ← arrivalsUpTo]
  congr 1
  by_cases h : sel.position n = p <;> simp [h]

/-- What is stored at position `p` when `stored` meets a reception. -/
def combined (c : Codeblock) (stored received : Array SoftBit) (newData : Bool) (p : Nat) :
    SoftBit :=
  if c.walkOf.isFiller p then SoftBit.certainZero
  else (c.arrivals received p).foldl (· + ·)
    (if newData then SoftBit.erased else stored.getD p SoftBit.erased)

/-- The loop over a reception adds to every position what comes back to it, one
soft bit a step. -/
theorem exists_accumulated (h : c.Laid) (hproper : c.walkOf.Proper) (received : Array SoftBit)
    {start : Array SoftBit} (hstart : start.size = c.sentLength) :
    ∃ summed, ((List.range c.matchedLength).foldlM
        (fun (output : Array SoftBit) k => do
          let old ← Buffer.read output (c.walkOf.position k)
          Buffer.write output (c.walkOf.position k)
            (old + received.getD (c.interleaved k) SoftBit.erased))
        start : Checked (Array SoftBit)) = .ok summed ∧
      summed.size = c.sentLength ∧
      ∀ p, summed.getD p SoftBit.erased =
        (c.arrivals received p).foldl (· + ·) (start.getD p SoftBit.erased) := by
  obtain ⟨summed, hloop, hsize, hsummed⟩ := foldlM_total
    (f := fun (output : Array SoftBit) k => do
      let old ← Buffer.read output (c.walkOf.position k)
      Buffer.write output (c.walkOf.position k)
        (old + received.getD (c.interleaved k) SoftBit.erased))
    (l := List.range c.matchedLength) (b := start)
    (fun seen output => output.size = c.sentLength ∧
      ∀ p, output.getD p SoftBit.erased =
        (c.arrivalsUpTo c.walkOf received p seen.length).foldl (· + ·)
          (start.getD p SoftBit.erased))
    ⟨hstart, fun p => rfl⟩ (by
    rintro seen k rest output hsplit ⟨hsize, hsum⟩
    obtain ⟨rfl, -⟩ := range_split hsplit
    have hlt : c.walkOf.position k < output.size :=
      hsize ▸ Nat.lt_of_lt_of_le (Selection.position_lt hproper k) h.ring_le
    refine ⟨_, by rw [Buffer.read_of_lt hlt, ok_bind, Buffer.write_of_lt hlt], ?_, fun p => ?_⟩
    · rw [Array.size_setIfInBounds, hsize]
    · rw [List.length_append, List.length_singleton, arrivalsUpTo_succ, List.foldl_append,
        Buffer.getD_setIfInBounds, ← hsum, ← Buffer.getD_of_lt hlt SoftBit.erased,
        List.length_range]
      -- only the position read in this step gets one more arrival
      by_cases hp : c.walkOf.position k = p
      · subst hp
        rw [if_pos ⟨rfl, hlt⟩, if_pos rfl]
        rfl
      · rw [if_neg fun h => hp h.1, if_neg hp]
        rfl)
  refine ⟨summed, hloop, hsize, fun p => ?_⟩
  rw [hsummed, List.length_range, arrivals]

/-- Dematching adds to every position what comes back to it, and marks the
fillers. Whether the stored soft bits count is decided by `newData` alone. -/
theorem exists_rateDematch (h : c.Laid) (hmatched : c.matchedLength % c.modulation.order = 0)
    (hselection : c.selection = .ok c.walkOf) {stored received : Array SoftBit} (newData : Bool)
    (hstored : stored.size = c.sentLength) (hreceived : received.size = c.matchedLength) :
    ∃ soft, c.rateDematch stored received newData = .ok soft ∧ soft.size = c.sentLength ∧
      ∀ p < c.sentLength, soft.getD p SoftBit.erased = c.combined stored received newData p := by
  have hproper := (selection_eq_ok hselection).2.1
  have hstop : c.walkOf.fillerStop ≤ c.sentLength :=
    Nat.le_trans (Nat.sub_le _ _) h.messageLength_le
  -- new data begin from nothing, whatever was stored
  let start := if newData then Array.replicate stored.size SoftBit.erased else stored
  have hstart : start.size = c.sentLength := by
    cases newData <;> simp [start, hstored]
  obtain ⟨summed, hloop, hsize, hsummed⟩ := exists_accumulated h hproper received hstart
  refine ⟨Buffer.overwrite summed c.walkOf.fillerStart
    (Array.replicate (c.walkOf.fillerStop - c.walkOf.fillerStart) SoftBit.certainZero), ?_, ?_,
    fun p hp => ?_⟩
  · rw [rateDematch, require_of (by simpa using hreceived), ok_bind,
      require_of (by simpa using hstored), ok_bind, require_of (by simpa using hmatched), ok_bind,
      hselection, ok_bind]
    dsimp only
    rw [hloop, ok_bind, if_neg (by omega)]
    rfl
  · rw [Buffer.size_overwrite, hsize]
  · rw [Buffer.getD_overwrite _ (by omega), Array.size_replicate, combined]
    have hspan := hproper.span
    by_cases hfiller : c.walkOf.isFiller p = true
    · rw [if_pos hfiller]
      rw [Selection.isFiller_eq_true] at hfiller
      rw [if_pos (by omega), Buffer.getD_of_lt (by rw [Array.size_replicate]; omega)]
      simp
    · rw [if_neg hfiller]
      rw [Selection.isFiller_eq_true] at hfiller
      rw [if_neg (by omega), hsummed]
      congr 1
      cases newData with
      | true =>
        simp only [start, if_true]
        rw [Buffer.getD_of_lt (by rw [Array.size_replicate]; omega)]
        simp
      | false => rfl

/-- What a successful dematching required, and what it stored. With
`exists_rateDematch` the computation is known completely. -/
theorem rateDematch_eq_ok (h : c.Laid) {stored received soft : Array SoftBit} {newData : Bool}
    (hok : c.rateDematch stored received newData = .ok soft) :
    received.size = c.matchedLength ∧ stored.size = c.sentLength ∧ c.selection = .ok c.walkOf ∧
      c.walkOf.Proper ∧ soft.size = c.sentLength ∧
      ∀ p < c.sentLength, soft.getD p SoftBit.erased = c.combined stored received newData p := by
  have hconditions := hok
  unfold rateDematch at hconditions
  simp only [bind_eq_ok, require_eq_ok] at hconditions
  obtain ⟨-, hreceived, -, hstored, -, hmatched, sel, hselection, -⟩ := hconditions
  obtain ⟨rfl, hproper, -⟩ := selection_eq_ok hselection
  have hreceived : received.size = c.matchedLength := by simpa using hreceived
  have hstored : stored.size = c.sentLength := by simpa using hstored
  obtain ⟨soft', hok', hsize, hsoft⟩ :=
    exists_rateDematch h (by simpa using hmatched) hselection newData hstored hreceived
  obtain rfl : soft' = soft := Except.ok.inj (hok'.symm.trans hok)
  exact ⟨hreceived, hstored, hselection, hproper, hsize, hsoft⟩

end Codeblock

end Uplink
