import Mathlib
import Uplink.Region
import Uplink.Proofs.Checked

/-!
# The symbols of a region

- `Region.plainSymbols`, `ackSymbols`: the symbols without reference signals, and those of them on
  which an acknowledgement may stand.
- `Region.length_dmrsSymbols`: every symbol is plain or has reference signals.
- `Region.filter_dropWhile_symbols`: from the first symbol of an acknowledgement on, it may stand on
  all plain ones.
- `Region.sumSymbols_eq_ok`: sums over the symbols that stay within the machine sizes.
-/

namespace Uplink

/-- A sum of machine sizes whose total is a machine size: no partial sum exceeds
the total. -/
theorem foldlM_add_eq_ok {f : Nat → Checked Nat} {g : Nat → Nat} :
    ∀ {l : List Nat} {total : Nat}, (∀ x ∈ l, f x = .ok (g x)) →
      total + (l.map g).sum < Size.limit →
      l.foldlM (fun total x => do Size.add total (← f x)) total = .ok (total + (l.map g).sum)
  | [], total, _, _ => by simp
  | x :: l, total, hf, hlt => by
    rw [List.map_cons, List.sum_cons, ← Nat.add_assoc] at hlt ⊢
    rw [List.foldlM_cons, hf x List.mem_cons_self, ok_bind,
      Size.add_of_lt (Nat.lt_of_le_of_lt (Nat.le_add_right _ _) hlt), ok_bind]
    exact foldlM_add_eq_ok (fun y hy => hf y (List.mem_cons_of_mem x hy)) hlt

/-- A table of results, each of which is given. -/
theorem mapM_eq_ok {α : Type} {f : Nat → Checked α} {g : Nat → α} :
    ∀ {l : List Nat}, (∀ x ∈ l, f x = .ok (g x)) → l.mapM f = .ok (l.map g)
  | [], _ => rfl
  | x :: l, h => by
    rw [List.mapM_cons, h x List.mem_cons_self, ok_bind,
      mapM_eq_ok fun y hy => h y (List.mem_cons_of_mem x hy), ok_bind]
    rfl

namespace Region

variable {r : Region}

/-- Resource elements of a symbol. -/
def elements (r : Region) : Nat := r.blocks * subcarriersPerBlock

/-- The symbols without reference signals. -/
def plainSymbols (r : Region) : List Nat := r.symbols.filter r.isPlain

/-- The symbols on which an acknowledgement may stand. -/
def ackSymbols (r : Region) : List Nat := r.symbols.filter r.startsAck

theorem isPlain_of_startsAck {symbol : Nat} (h : r.startsAck symbol = true) :
    r.isPlain symbol = true := by
  rw [startsAck, Bool.and_eq_true] at h
  exact h.2

theorem mem_symbols {symbol : Nat} :
    symbol ∈ r.symbols ↔ r.firstSymbol ≤ symbol ∧ symbol < r.firstSymbol + r.symbolCount := by
  rw [symbols, List.mem_range'_1]

theorem nodup_symbols (r : Region) : r.symbols.Nodup := List.nodup_range'

/-- A symbol has reference signals or is plain. -/
theorem length_dmrsSymbols (r : Region) :
    r.dmrsSymbols.length = (r.symbols.filter fun l => !r.isPlain l).length := by
  refine List.Perm.length_eq ((List.perm_ext_iff_of_nodup ?_ ?_).mpr fun l => ?_)
  · exact (List.nodup_range.filter _).filter _
  · exact r.nodup_symbols.filter _
  · rw [dmrsSymbols, List.mem_filter, List.mem_filter, SymbolMask.mem_ones, mem_symbols, isPlain,
      Bool.not_not, decide_eq_true_iff]
    exact And.comm

/-- Plain symbols and those with reference signals are all symbols of the
region. -/
theorem length_plainSymbols_add (r : Region) :
    r.plainSymbols.length + r.dmrsSymbols.length = r.symbolCount := by
  have hsplit := List.length_eq_countP_add_countP r.isPlain (l := r.symbols)
  simp only [Bool.not_eq_true, ← Bool.not_eq_true', Bool.decide_eq_true] at hsplit
  rw [length_dmrsSymbols, plainSymbols, ← List.countP_eq_length_filter,
    ← List.countP_eq_length_filter, ← hsplit, symbols, List.length_range']

/-- An acknowledgement has no more symbols than there are plain ones. -/
theorem length_ackSymbols_le (r : Region) : r.ackSymbols.length ≤ r.plainSymbols.length := by
  rw [ackSymbols, plainSymbols, ← List.countP_eq_length_filter, ← List.countP_eq_length_filter]
  exact List.countP_mono_left fun l _ h => isPlain_of_startsAck h

/-- From the first symbol of an acknowledgement on, it may stand on all plain
symbols. Symbols come in increasing order, so none before it can be met again.
-/
theorem filter_dropWhile_symbols (r : Region) :
    (r.symbols.dropWhile fun l => !r.startsAck l).filter r.isPlain = r.ackSymbols := by
  suffices ∀ l : List Nat, l.Pairwise (· < ·) →
      (l.dropWhile fun l => !r.startsAck l).filter r.isPlain = l.filter r.startsAck from
    this _ List.pairwise_lt_range'
  intro l hl
  induction l with
  | nil => rfl
  | cons x l ih =>
    cases hx : r.startsAck x with
    | false =>
      rw [List.dropWhile_cons_of_pos (by rw [hx]; rfl), List.filter_cons_of_neg (by simp [hx])]
      exact ih (List.Pairwise.of_cons hl)
    | true =>
      rw [List.dropWhile_cons_of_neg (by simp [hx])]
      refine List.filter_congr fun y hy => ?_
      have hfirst : r.firstDmrs < x := by
        rw [startsAck, Bool.and_eq_true, decide_eq_true_iff] at hx
        exact hx.1
      have hlt : r.firstDmrs < y := by
        rcases List.mem_cons.mp hy with rfl | hy
        · exact hfirst
        · exact hfirst.trans (List.rel_of_pairwise_cons hl hy)
      rw [startsAck, decide_eq_true hlt, Bool.true_and]

/-- As many times the elements of a symbol as there are symbols of a kind. -/
theorem sum_map_ite (l : List Nat) (p : Nat → Bool) (n : Nat) :
    (l.map fun x => if p x then n else 0).sum = (l.filter p).length * n := by
  induction l with
  | nil => simp
  | cons x l ih =>
    rw [List.map_cons, List.sum_cons, ih]
    cases hx : p x with
    | true =>
      rw [List.filter_cons_of_pos hx, List.length_cons, Nat.succ_mul, if_pos rfl, Nat.add_comm]
    | false =>
      rw [List.filter_cons_of_neg (by simp [hx]), if_neg (by simp), Nat.zero_add]

theorem checkSymbols_eq_ok (hend : r.firstSymbol + r.symbolCount < Size.limit) :
    r.checkSymbols = .ok () := by
  rw [checkSymbols, Size.add_of_lt hend]
  rfl

/-- The elements of the symbols of a kind, when they are all within the machine
sizes. The other symbols are passed over without a check. -/
theorem sumSymbols_eq_ok {p : Nat → Bool} {f : Nat → Checked Nat}
    (hend : r.firstSymbol + r.symbolCount < Size.limit)
    (hf : ∀ l, f l = if p l then Size.mul r.blocks subcarriersPerBlock else .ok 0)
    (hblocks : r.elements < Size.limit) (hall : r.symbolCount * r.elements < Size.limit) :
    r.sumSymbols f = .ok ((r.symbols.filter p).length * r.elements) := by
  have hcount : (r.symbols.filter p).length ≤ r.symbolCount := by
    refine le_of_le_of_eq (List.length_filter_le p _) ?_
    rw [symbols, List.length_range']
  have hsum := sum_map_ite r.symbols p r.elements
  rw [sumSymbols_eq, checkSymbols_eq_ok hend, ok_bind,
    foldlM_add_eq_ok (g := fun l => if p l then r.elements else 0),
    hsum, Nat.zero_add]
  · intro l _
    rw [hf l, Size.mul_of_lt hblocks]
    split <;> rfl
  · rw [hsum, Nat.zero_add]
    exact Nat.lt_of_le_of_lt (Nat.mul_le_mul_right _ hcount) hall

end Region

end Uplink
