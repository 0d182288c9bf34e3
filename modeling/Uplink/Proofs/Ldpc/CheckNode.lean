import Uplink.Ldpc.MinSum
import Uplink.Proofs.Single.Side

/-!
# The sides of a check's messages

On the sides of its values a check acts as a product: the message to an edge lies on the side that
is the product of the sides of the *other* values. In particular one value without a side silences
the messages to all other edges, and two of them silence every message.

- `CheckNode.parity`: what one pass finds about the sides of the values seen so far.
- `CheckNode.minima_parity`: the pass over all values.
- `CheckNode.side_messages`: the product rule.
-/

namespace Uplink

namespace Ldpc

namespace CheckNode

open Single Finset

/-- The factor by which a value on side `t` turns the other messages over. -/
def turn (t : SignType) : SignType := if t = -1 then -1 else 1

/-- A value on no side turns nothing over. -/
theorem sq_mul_turn (t : SignType) : t * t * turn t = t := by
  cases t <;> rfl

theorem turn_mul_turn (t : SignType) : turn t * turn t = 1 := by
  cases t <;> rfl

theorem sq_eq_one_of_ne_zero {t : SignType} (h : t ≠ 0) : t * t = 1 := by
  revert h
  cases t <;> decide

/-- What a pass knows of the sides of the first `n` values: whether a value
lacks a side, whether one other than the least does, and the parity of the
negative ones. -/
structure Parity (s : Nat → SignType) (n : Nat) (m : Minima) : Prop where
  least : side m.least = some (∏ i ∈ range n, s i * s i)
  second : side m.second = some (∏ i ∈ (range n).erase m.place, s i * s i)
  negative : (if m.negative then -1 else 1) = ∏ i ∈ range n, turn (s i)
  /-- The least magnitude is that of the value at `place`, once there is one. -/
  place : m.place < n ∧ side m.least = some (s m.place * s m.place) ∨
    n = 0 ∧ m.place = 0 ∧ m.least = m.second

/-- Before the first value nothing is known, and the parity is even. -/
theorem parity_start (s : Nat → SignType) : Parity s 0 Minima.start where
  least := rfl
  second := rfl
  negative := rfl
  place := .inr ⟨rfl, rfl, rfl⟩

/-- The side of a magnitude, and what it means that it lies below another one:
the other one is not zero. -/
theorem side_of_abs_lt {q y : Float32} {t p : SignType} (hq : side q = some t)
    (hy : side y = some p) (h : q.abs < y) : p ≠ 0 := by
  rintro rfl
  have habs := (lt_zero_side_iff hy).mp h
  rw [side_abs, hq] at habs
  revert habs
  cases t <;> decide

theorem abs_lt_of_side {q y : Float32} (hq : side q = some 0) (hy : side y = some 1) :
    q.abs < y := by
  refine (zero_side_lt_iff ?_).mpr hy
  rw [side_abs, hq]
  rfl

/-- A product of squares is zero or one, as one value without a side makes it
zero. -/
theorem prod_sq_eq (s : Nat → SignType) (S : Finset Nat) :
    (∏ i ∈ S, s i * s i) = 0 ∨ (∏ i ∈ S, s i * s i) = 1 := by
  by_cases h : ∃ i ∈ S, s i = 0
  · obtain ⟨i, hi, hz⟩ := h
    exact .inl (prod_eq_zero hi (by rw [hz]; rfl))
  · refine .inr (prod_eq_one fun i hi => sq_eq_one_of_ne_zero fun hz => h ⟨i, hi, hz⟩)

/-- If the magnitude `|q|` is not below `y`, then a missing side of `q` is one
that `y` lacks too. -/
theorem sq_absorb {q y : Float32} {t p : SignType} (hq : side q = some t) (hy : side y = some p)
    (hp : p = 0 ∨ p = 1) (h : ¬ q.abs < y) : p * (t * t) = p := by
  rcases eq_or_ne t 0 with rfl | ht
  · rcases hp with rfl | rfl
    · rfl
    · exact absurd (abs_lt_of_side hq hy) h
  · rw [sq_eq_one_of_ne_zero ht, mul_one]

/-- One more negative value changes the parity. -/
theorem negative_absorb {q : Float32} {t : SignType} {b : Bool} (hq : side q = some t) :
    (if (b != decide (q < 0)) then (-1 : SignType) else 1) = (if b then -1 else 1) * turn t := by
  have hlt : q < 0 ↔ t = -1 := by
    rw [lt_zero_iff, hq]
    exact ⟨Option.some.inj, congrArg some⟩
  by_cases h : t = -1
  · rw [decide_eq_true (hlt.mpr h), turn, if_pos h]
    cases b <;> rfl
  · rw [decide_eq_false (mt hlt.mp h), turn, if_neg h]
    cases b <;> rfl

/-- Taking in one more value. What a pass must remember of the sides is whether
the least magnitude is zero, whether the second least is, and how many values
are negative. -/
theorem parity_absorb {s : Nat → SignType} {n : Nat} {m : Minima} {q : Float32}
    (h : Parity s n m) (hq : side q = some (s n)) : Parity s (n + 1) (m.absorb n q) := by
  have hneg : (if (m.negative != decide (q < 0)) then (-1 : SignType) else 1) =
      ∏ i ∈ range (n + 1), turn (s i) := by
    rw [negative_absorb hq, h.negative, prod_range_succ]
  have habs : side q.abs = some (s n * s n) := by rw [side_abs, hq]; rfl
  have hnotin : n ∉ range n := notMem_range_self
  rw [Minima.absorb]
  by_cases hlt : q.abs < m.least
  · -- the value is the new least one, and all values before it have sides
    rw [if_pos hlt]
    have hone : ∏ i ∈ range n, s i * s i = 1 :=
      (prod_sq_eq s _).resolve_left (side_of_abs_lt hq h.least hlt)
    refine ⟨?_, ?_, hneg, .inl ⟨Nat.lt_succ_self n, habs⟩⟩
    · rw [habs, prod_range_succ, hone, one_mul]
    · rw [range_add_one, erase_insert hnotin]
      exact h.least
  rw [if_neg hlt]
  have hleast : side m.least = some (∏ i ∈ range (n + 1), s i * s i) := by
    rw [prod_range_succ, sq_absorb hq h.least (prod_sq_eq s _) hlt]
    exact h.least
  rcases h.place with ⟨hplace, hat⟩ | ⟨rfl, hplace, heq⟩
  · have herase : (range (n + 1)).erase m.place = insert n ((range n).erase m.place) := by
      rw [range_add_one, erase_insert_of_ne hplace.ne']
    have hnotin' : n ∉ (range n).erase m.place := fun hn => hnotin (mem_of_mem_erase hn)
    by_cases hlt' : q.abs < m.second
    · -- the value is the least one apart from the one at `place`
      rw [if_pos hlt']
      have hone : ∏ i ∈ (range n).erase m.place, s i * s i = 1 :=
        (prod_sq_eq s _).resolve_left (side_of_abs_lt hq h.second hlt')
      refine ⟨hleast, ?_, hneg, .inl ⟨Nat.lt_succ_of_lt hplace, hat⟩⟩
      rw [herase, prod_insert hnotin', hone, mul_one]
      exact habs
    · rw [if_neg hlt']
      refine ⟨hleast, ?_, hneg, .inl ⟨Nat.lt_succ_of_lt hplace, hat⟩⟩
      rw [herase, prod_insert hnotin', mul_comm,
        sq_absorb hq h.second (prod_sq_eq s _) hlt']
      exact h.second
  · -- the first value is infinite: it stays at `place`
    rw [if_neg (heq ▸ hlt)]
    have hfirst : m.place < 0 + 1 := by omega
    refine ⟨hleast, ?_, hneg, .inl ⟨hfirst, ?_⟩⟩
    · have hempty : (range (0 + 1)).erase m.place = ∅ := by
        rw [hplace]
        rfl
      rw [hempty, ← heq]
      exact h.least
    · rw [hplace, hleast, prod_range_one]

/-- One pass over all values, one after the other. -/
theorem minima_parity {incoming : Array Float32} {s : Nat → SignType}
    (hs : ∀ (e : Nat) (h : e < incoming.size), side incoming[e] = some (s e)) :
    Parity s incoming.size (minima incoming) := by
  unfold minima
  refine (Array.foldl_induction (fun n (state : Minima × Nat) => Parity s n state.1 ∧ state.2 = n)
    ⟨parity_start s, rfl⟩ ?_).1
  rintro ⟨n, hn⟩ ⟨m, e⟩ ⟨hm, rfl⟩
  exact ⟨parity_absorb hm (hs _ hn), rfl⟩

/-- A message has the side of the product of the other values' sides. Its own
value is left out by taking the second least magnitude where it is the least. -/
theorem side_messages {incoming : Array Float32} {s : Nat → SignType} {scale : Float32}
    (hscale : KeepsSide scale)
    (hs : ∀ (e : Nat) (h : e < incoming.size), side incoming[e] = some (s e)) {e : Nat}
    (he : e < incoming.size) :
    side ((messages scale incoming).getD e 0) =
      some (∏ i ∈ (range incoming.size).erase e, s i) := by
  have hm := minima_parity hs
  set m := minima incoming with hmdef
  have hmem : e ∈ range incoming.size := mem_range.mpr he
  -- the magnitude lacks a side exactly if one of the other values does
  have hmag : side (scale * (if e = m.place then m.second else m.least)) =
      some (∏ i ∈ (range incoming.size).erase e, s i * s i) := by
    rw [hscale]
    by_cases hplace : e = m.place
    · rw [if_pos hplace, hplace]
      exact hm.second
    rw [if_neg hplace, hm.least, ← mul_prod_erase _ _ hmem]
    rcases eq_or_ne (s e) 0 with hz | hz
    · -- the least value has no side either, and it is another one
      rcases hm.place with ⟨hlt, hat⟩ | ⟨h0, -⟩
      · have hzero : s m.place * s m.place = 0 := by
          have := hat.symm.trans hm.least
          rw [Option.some.inj this]
          exact prod_eq_zero hmem (by rw [hz]; rfl)
        have hin : m.place ∈ (range incoming.size).erase e :=
          mem_erase.mpr ⟨Ne.symm hplace, mem_range.mpr hlt⟩
        rw [prod_eq_zero hin hzero, mul_zero]
      · omega
    · rw [sq_eq_one_of_ne_zero hz, one_mul]
  -- the sign counts all values, and the edge's own once more
  have hsign : (if (m.negative != decide (incoming[e] < 0)) then (-1 : SignType) else 1) =
      ∏ i ∈ (range incoming.size).erase e, turn (s i) := by
    rw [negative_absorb (hs e he), hm.negative, ← mul_prod_erase _ _ hmem, mul_right_comm,
      turn_mul_turn, one_mul]
  -- a product of sides is that of their magnitudes with that of their signs
  have hprod : ∏ i ∈ (range incoming.size).erase e, s i =
      (∏ i ∈ (range incoming.size).erase e, s i * s i) *
        ∏ i ∈ (range incoming.size).erase e, turn (s i) := by
    rw [← prod_mul_distrib]
    exact prod_congr rfl fun i _ => (sq_mul_turn (s i)).symm
  have hget : (messages scale incoming).getD e 0 = m.message scale e incoming[e] := by
    simp [messages, hmdef, Array.getD, he]
  rw [hget, Minima.message, hprod, ← hsign]
  split
  · rw [side_neg, hmag]
    simp
  · rw [hmag, mul_one]

end CheckNode

end Ldpc

end Uplink
