import Uplink.Proofs.Ldpc.CheckNode
import Uplink.Proofs.Ldpc.Codeword

/-!
# Visits to checks

The a-posteriori values of a decoder that receives a word without errors *agree* with it: each
lies on the side of its bit, or on none. A visit to a check keeps that, because the message to an
edge has the product of the other sides and the word meets the check; a variable whose side is
known keeps it; and a variable all of whose neighbours in a check are known becomes known.

- `Workspace.updateCheck_eq`: what a visit writes.
- `Workspace.side_updateCheck`: the new sides of the variables that a check meets.
- `Agrees`, `Settled`: agreement with a word, and a variable that is known.
- `Agrees.updateCheck`, `Agrees.settled_updateCheck`, `Agrees.settled_of_others`: what a visit keeps
  and what it adds.
-/

namespace Uplink

namespace Ldpc

open Single Finset

/-! ## What a visit to a check writes -/

namespace Workspace

variable {z : Nat} {scale : Float32} {row : Array Edge} {firstEdge : Nat} {w : Workspace} {i : Nat}

/-- The values that a check takes from its variables, its own old messages taken
out. -/
def incoming (z : Nat) (row : Array Edge) (firstEdge : Nat) (w : Workspace) (i : Nat) :
    Array Float32 :=
  row.mapIdx fun e edge =>
    w.posterior.getD (edge.target z i) 0 - w.messages.getD ((firstEdge + e) * z + i) 0

/-- The new messages of a check. -/
def outgoing (z : Nat) (scale : Float32) (row : Array Edge) (firstEdge : Nat) (w : Workspace)
    (i : Nat) : Array Float32 :=
  CheckNode.messages scale (incoming z row firstEdge w i)

/-- The variable at the other end of edge `e` of check `i`. -/
def neighbour (z : Nat) (row : Array Edge) (i e : Nat) : Nat := (row.getD e default).target z i

theorem neighbour_eq {e : Nat} (he : e < row.size) :
    neighbour z row i e = row[e].target z i := by
  simp [neighbour, Array.getD, he]

/-- Writes to both arrays go their own ways. -/
theorem foldl_write (es : List Nat) (place place' : Nat → Nat) (value value' : Nat → Float32)
    (w : Workspace) :
    es.foldl (fun (w : Workspace) e =>
      (⟨w.posterior.setIfInBounds (place e) (value e),
        w.messages.setIfInBounds (place' e) (value' e)⟩ : Workspace)) w =
      ⟨es.foldl (fun b e => b.setIfInBounds (place e) (value e)) w.posterior,
        es.foldl (fun b e => b.setIfInBounds (place' e) (value' e)) w.messages⟩ := by
  induction es generalizing w with
  | nil => rfl
  | cons e es ih => exact ih _

/-- A visit writes the variables that the check meets, and the messages of its
edges. All values are read before the first one is written. -/
theorem updateCheck_eq :
    updateCheck z scale row firstEdge w i =
      ⟨Buffer.scatter (neighbour z row i)
          (fun e => (incoming z row firstEdge w i).getD e 0 +
            (outgoing z scale row firstEdge w i).getD e 0) row.size w.posterior,
        Buffer.scatter (fun e => (firstEdge + e) * z + i)
          (fun e => (outgoing z scale row firstEdge w i).getD e 0) row.size w.messages⟩ :=
  foldl_write _ _ _ _ _ w

@[simp] theorem size_posterior_updateCheck :
    (updateCheck z scale row firstEdge w i).posterior.size = w.posterior.size := by
  rw [updateCheck_eq, Buffer.size_scatter]

/-- The product of the sides of the other variables of a check. -/
def otherSides (s : Nat → SignType) (z : Nat) (row : Array Edge) (i e : Nat) : SignType :=
  ∏ j ∈ (range row.size).erase e, s (neighbour z row i j)

/-- The values and old messages that a check meets lie on the sides `s`, and on
none. -/
structure Meets (s : Nat → SignType) (z : Nat) (row : Array Edge) (firstEdge : Nat) (w : Workspace)
    (i : Nat) : Prop where
  value : ∀ e < row.size,
    side (w.posterior.getD (neighbour z row i e) 0) = some (s (neighbour z row i e))
  message : ∀ e < row.size, side (w.messages.getD ((firstEdge + e) * z + i) 0) = some 0

variable {s : Nat → SignType}

/-- Where the old messages have no side, a check takes the values as they are.
-/
theorem side_incoming (h : Meets s z row firstEdge w i) {e : Nat} (he : e < row.size) :
    side ((incoming z row firstEdge w i).getD e 0) = some (s (neighbour z row i e)) := by
  have hget : (incoming z row firstEdge w i).getD e 0 =
      w.posterior.getD (neighbour z row i e) 0 - w.messages.getD ((firstEdge + e) * z + i) 0 := by
    rw [neighbour_eq he, Buffer.getD_of_lt (by simpa [incoming] using he)]
    simp [incoming]
  rw [hget, side_sub_zero (h.message e he), h.value e he]

theorem size_incoming : (incoming z row firstEdge w i).size = row.size := by
  simp [incoming]

/-- A new message has the sides of the other variables, multiplied. -/
theorem side_outgoing (hscale : KeepsSide scale) (h : Meets s z row firstEdge w i) {e : Nat}
    (he : e < row.size) :
    side ((outgoing z scale row firstEdge w i).getD e 0) = some (otherSides s z row i e) := by
  have hin : ∀ (j : Nat) (hj : j < (incoming z row firstEdge w i).size),
      side (incoming z row firstEdge w i)[j] = some (s (neighbour z row i j)) := by
    intro j hj
    have := side_incoming h (size_incoming ▸ hj)
    rwa [Buffer.getD_of_lt hj] at this
  rw [outgoing, CheckNode.side_messages hscale hin (by rwa [size_incoming]), size_incoming]
  rfl

/-- The edges of a row meet different variables, so that no write is lost. -/
theorem neighbour_injective (hz : 0 < z)
    (hrow : ∀ (e e' : Nat) (he : e < row.size) (he' : e' < row.size),
      row[e].column = row[e'].column → e = e') :
    ∀ e < row.size, ∀ e' < row.size, neighbour z row i e = neighbour z row i e' → e = e' := by
  intro e he e' he' h
  rw [neighbour_eq he, neighbour_eq he'] at h
  exact hrow e e' he he' (Edge.column_eq_of_target_eq hz h)

/-- A variable that the check meets takes the other side only if it had none. -/
theorem side_updateCheck (hscale : KeepsSide scale)
    (hinj : ∀ e < row.size, ∀ e' < row.size,
      neighbour z row i e = neighbour z row i e' → e = e')
    (h : Meets s z row firstEdge w i) {e : Nat} (he : e < row.size)
    (hlt : neighbour z row i e < w.posterior.size)
    (hagree : s (neighbour z row i e) = 0 ∨ otherSides s z row i e = 0 ∨
      otherSides s z row i e = s (neighbour z row i e)) :
    side ((updateCheck z scale row firstEdge w i).posterior.getD (neighbour z row i e) 0) =
      some (if s (neighbour z row i e) = 0 then otherSides s z row i e
        else s (neighbour z row i e)) := by
  rw [updateCheck_eq]
  dsimp only
  rw [Buffer.getD_scatter he hinj hlt]
  have hin := side_incoming h he
  have hout := side_outgoing hscale h he
  by_cases hzero : s (neighbour z row i e) = 0
  · rw [if_pos hzero, side_zero_add (by rw [hin, hzero]), hout]
  rw [if_neg hzero]
  -- a known variable only gets a message of its own side, or of none
  rcases hagree with h0 | h0 | heq
  · exact absurd h0 hzero
  · rw [side_add_zero (by rw [hout, h0]), hin]
  · exact side_add_of_eq hin (by rw [hout, heq])

/-- A variable that the check does not meet keeps its value. -/
theorem posterior_updateCheck_of_ne {v : Nat} (h : ∀ e < row.size, neighbour z row i e ≠ v) :
    (updateCheck z scale row firstEdge w i).posterior.getD v 0 = w.posterior.getD v 0 := by
  rw [updateCheck_eq]
  exact Buffer.getD_scatter_of_ne h

/-- A message of another check is kept. -/
theorem messages_updateCheck_of_ne {k : Nat} (h : ∀ e < row.size, (firstEdge + e) * z + i ≠ k) :
    (updateCheck z scale row firstEdge w i).messages.getD k 0 = w.messages.getD k 0 := by
  rw [updateCheck_eq]
  exact Buffer.getD_scatter_of_ne h

end Workspace

/-! ## Agreement with a word -/

/-- The side on which a value favours a bit. -/
def bitSide (b : UInt8) : SignType := if b = 0 then 1 else -1

theorem bitSide_mul_self (b : UInt8) : bitSide b * bitSide b = 1 := by
  unfold bitSide
  split <;> rfl

theorem bitSide_ne_zero (b : UInt8) : bitSide b ≠ 0 := by
  unfold bitSide
  split <;> decide

/-- Sides multiply as bits add. -/
theorem bitSide_xor {a b : UInt8} (ha : a = 0 ∨ a = 1) (hb : b = 0 ∨ b = 1) :
    bitSide (a ^^^ b) = bitSide a * bitSide b := by
  rcases ha with rfl | rfl <;> rcases hb with rfl | rfl <;> rfl

/-- The value of variable `v` favours its bit of the word. -/
def Settled (word : Bits) (w : Workspace) (v : Nat) : Prop :=
  side (w.posterior.getD v 0) = some (bitSide (word.getD v 0))

/-- No value among the first `n` favours the wrong bit. -/
structure Agrees (word : Bits) (n : Nat) (w : Workspace) : Prop where
  size : w.posterior.size = n
  value : ∀ v < n, side (w.posterior.getD v 0) = some 0 ∨ Settled word w v

/-- The checks of a row that has one edge per column, all of them within the
first `n` variables, are met by a word of bits. -/
structure Met (word : Bits) (n z : Nat) (row : Array Edge) : Prop where
  pos : 0 < z
  bits : word.HasOnly01
  injective : ∀ (e e' : Nat) (he : e < row.size) (he' : e' < row.size),
    row[e].column = row[e'].column → e = e'
  bound : ∀ i, ∀ e < row.size, Workspace.neighbour z row i e < n
  sum : ∀ i < z, LiftedGraph.checkSum z row word i = 0

namespace Met

variable {word : Bits} {n z : Nat} {row : Array Edge}

/-- The sides of a check's bits multiply to the side of zero, because the bits
add up to zero. -/
theorem prod_bitSide (h : Met word n z row) {i : Nat} (hi : i < z) :
    ∏ e ∈ range row.size, bitSide (word.getD (Workspace.neighbour z row i e) 0) = 1 := by
  -- the fold over the edges and the product over their numbers run in step
  have key : (LiftedGraph.checkSum z row word i = 0 ∨ LiftedGraph.checkSum z row word i = 1) ∧
      ∏ e ∈ range row.size, bitSide (word.getD (Workspace.neighbour z row i e) 0) =
        bitSide (LiftedGraph.checkSum z row word i) := by
    unfold LiftedGraph.checkSum
    refine Array.foldl_induction (fun k (sum : UInt8) => (sum = 0 ∨ sum = 1) ∧
      ∏ e ∈ range k, bitSide (word.getD (Workspace.neighbour z row i e) 0) = bitSide sum)
      ⟨.inl rfl, rfl⟩ ?_
    rintro ⟨e, he⟩ sum ⟨hsum, hprod⟩
    have hbit := h.bits.getD (row[e].target z i)
    refine ⟨?_, ?_⟩
    · rcases hsum with rfl | rfl <;> rcases hbit with hb | hb <;> simp [hb]
    · rw [prod_range_succ, hprod, Workspace.neighbour_eq he]
      exact (bitSide_xor hsum hbit).symm
  rw [key.2, h.sum i hi]
  rfl

/-- So the sides of the others multiply to the side of each. -/
theorem prod_others (h : Met word n z row) {i e : Nat} (hi : i < z) (he : e < row.size) :
    ∏ j ∈ (range row.size).erase e, bitSide (word.getD (Workspace.neighbour z row i j) 0) =
      bitSide (word.getD (Workspace.neighbour z row i e) 0) := by
  have hprod := h.prod_bitSide hi
  rw [← mul_prod_erase _ _ (mem_range.mpr he)] at hprod
  set b := bitSide (word.getD (Workspace.neighbour z row i e) 0) with hb
  have hsq : b * b = 1 := bitSide_mul_self _
  calc
    _ = b * b * ∏ j ∈ (range row.size).erase e,
          bitSide (word.getD (Workspace.neighbour z row i j) 0) := by rw [hsq, one_mul]
    _ = b := by rw [mul_assoc, hprod, mul_one]

end Met

/-- The side of each variable, zero where there is none. -/
def sideOf (w : Workspace) (v : Nat) : SignType := (side (w.posterior.getD v 0)).getD 0

namespace Agrees

variable {word : Bits} {n z : Nat} {row : Array Edge} {scale : Float32} {firstEdge : Nat}
  {w : Workspace} {i : Nat}

theorem side_eq (h : Agrees word n w) {v : Nat} (hv : v < n) :
    side (w.posterior.getD v 0) = some (sideOf w v) := by
  unfold sideOf
  rcases h.value v hv with h0 | h0 <;> rw [h0] <;> rfl

/-- Where a value has a side, it is that of its bit. -/
theorem sideOf_eq (h : Agrees word n w) {v : Nat} (hv : v < n) :
    sideOf w v = 0 ∨ sideOf w v = bitSide (word.getD v 0) := by
  unfold sideOf
  rcases h.value v hv with h0 | h0
  · exact .inl (by rw [h0]; rfl)
  · exact .inr (by rw [h0]; rfl)

theorem sideOf_of_settled {v : Nat} (h : Settled word w v) :
    sideOf w v = bitSide (word.getD v 0) := by
  unfold sideOf
  rw [h]
  rfl

/-- The message to an edge favours its bit if all others do, and nothing if one
of them does not. -/
theorem otherSides_eq (h : Agrees word n w) (hmet : Met word n z row) (hi : i < z) {e : Nat}
    (he : e < row.size) :
    Workspace.otherSides (sideOf w) z row i e = 0 ∨
      Workspace.otherSides (sideOf w) z row i e =
        bitSide (word.getD (Workspace.neighbour z row i e) 0) := by
  unfold Workspace.otherSides
  -- one unknown neighbour brings the whole product to zero
  by_cases hall : ∃ j ∈ (range row.size).erase e, sideOf w (Workspace.neighbour z row i j) = 0
  · obtain ⟨j, hj, hz⟩ := hall
    exact .inl (prod_eq_zero hj hz)
  · refine .inr ?_
    rw [← hmet.prod_others hi he]
    refine prod_congr rfl fun j hj => ?_
    have hj' : j < row.size := mem_range.mp (mem_of_mem_erase hj)
    exact (h.sideOf_eq (hmet.bound i j hj')).resolve_left fun hz => hall ⟨j, hj, hz⟩

/-- If all others are settled, the message favours the bit. -/
theorem otherSides_of_settled (hmet : Met word n z row) (hi : i < z) {e : Nat} (he : e < row.size)
    (hothers : ∀ j < row.size, j ≠ e → Settled word w (Workspace.neighbour z row i j)) :
    Workspace.otherSides (sideOf w) z row i e =
      bitSide (word.getD (Workspace.neighbour z row i e) 0) := by
  unfold Workspace.otherSides
  rw [← hmet.prod_others hi he]
  refine prod_congr rfl fun j hj => ?_
  obtain ⟨hne, hj'⟩ := mem_erase.mp hj
  exact sideOf_of_settled (hothers j (mem_range.mp hj') hne)

theorem meets (h : Agrees word n w) (hmet : Met word n z row)
    (hmsg : ∀ e < row.size, side (w.messages.getD ((firstEdge + e) * z + i) 0) = some 0) :
    Workspace.Meets (sideOf w) z row firstEdge w i where
  value := fun e he => h.side_eq (hmet.bound i e he)
  message := hmsg

/-- The side of a variable that a check meets, after the visit: its own one if
it had one, else that of the message. -/
theorem side_neighbour (hscale : KeepsSide scale) (h : Agrees word n w) (hmet : Met word n z row)
    (hmsg : ∀ e < row.size, side (w.messages.getD ((firstEdge + e) * z + i) 0) = some 0)
    (hi : i < z) {e : Nat} (he : e < row.size) :
    side ((Workspace.updateCheck z scale row firstEdge w i).posterior.getD
        (Workspace.neighbour z row i e) 0) =
      some (if sideOf w (Workspace.neighbour z row i e) = 0
        then Workspace.otherSides (sideOf w) z row i e
        else sideOf w (Workspace.neighbour z row i e)) := by
  have hv := hmet.bound i e he
  refine Workspace.side_updateCheck hscale (Workspace.neighbour_injective hmet.pos hmet.injective)
    (h.meets hmet hmsg) he (by rwa [h.size]) ?_
  rcases h.sideOf_eq hv with h0 | h0
  · exact .inl h0
  · rcases h.otherSides_eq hmet hi he with h1 | h1
    · exact .inr (.inl h1)
    · exact .inr (.inr (h1.trans h0.symm))

/-- A settled variable stays settled, because the message to it favours its bit
or nothing. -/
theorem settled_updateCheck (hscale : KeepsSide scale) (h : Agrees word n w)
    (hmet : Met word n z row)
    (hmsg : ∀ e < row.size, side (w.messages.getD ((firstEdge + e) * z + i) 0) = some 0)
    (hi : i < z) {v : Nat} (hv : Settled word w v) :
    Settled word (Workspace.updateCheck z scale row firstEdge w i) v := by
  by_cases hmeets : ∃ e < row.size, Workspace.neighbour z row i e = v
  · obtain ⟨e, he, rfl⟩ := hmeets
    have hs := sideOf_of_settled hv
    -- a known side is not zero, so the message cannot replace it
    rw [Settled, h.side_neighbour hscale hmet hmsg hi he, if_neg, hs]
    rw [hs]
    exact bitSide_ne_zero _
  · rw [Settled, Workspace.posterior_updateCheck_of_ne fun e he heq => hmeets ⟨e, he, heq⟩]
    exact hv

/-- A visit to a check keeps the agreement. This is the step that all sweeps are
made of. -/
theorem updateCheck (hscale : KeepsSide scale) (h : Agrees word n w) (hmet : Met word n z row)
    (hmsg : ∀ e < row.size, side (w.messages.getD ((firstEdge + e) * z + i) 0) = some 0)
    (hi : i < z) : Agrees word n (Workspace.updateCheck z scale row firstEdge w i) where
  size := by rw [Workspace.size_posterior_updateCheck, h.size]
  value := by
    intro v hv
    rcases h.value v hv with h0 | h0
    · by_cases hmeets : ∃ e < row.size, Workspace.neighbour z row i e = v
      · obtain ⟨e, he, rfl⟩ := hmeets
        have hs : sideOf w (Workspace.neighbour z row i e) = 0 := by
          rw [sideOf, h0]
          rfl
        rw [Settled, h.side_neighbour hscale hmet hmsg hi he, if_pos hs]
        rcases h.otherSides_eq hmet hi he with h1 | h1 <;> rw [h1] <;> simp
      · rw [Settled, Workspace.posterior_updateCheck_of_ne fun e he heq => hmeets ⟨e, he, heq⟩]
        exact .inl h0
    · exact .inr (h.settled_updateCheck hscale hmet hmsg hi h0)

/-- A variable becomes settled when all others of the check are. This is how
punctured columns are recovered. -/
theorem settled_of_others (hscale : KeepsSide scale) (h : Agrees word n w)
    (hmet : Met word n z row)
    (hmsg : ∀ e < row.size, side (w.messages.getD ((firstEdge + e) * z + i) 0) = some 0)
    (hi : i < z) {e : Nat} (he : e < row.size)
    (hothers : ∀ j < row.size, j ≠ e → Settled word w (Workspace.neighbour z row i j)) :
    Settled word (Workspace.updateCheck z scale row firstEdge w i)
      (Workspace.neighbour z row i e) := by
  rw [Settled, h.side_neighbour hscale hmet hmsg hi he,
    otherSides_of_settled hmet hi he hothers]
  split
  · rfl
  · rename_i hne
    rw [(h.sideOf_eq (hmet.bound i e he)).resolve_left hne]

end Agrees

end Ldpc

end Uplink
