import Uplink.Proofs.Placement.Row

/-!
# Placing one field

- `Placement.evenly`: which of the available elements are chosen; `spread_eq`: the choice succeeds.
- `Placement.deal`: the rows with a field placed on them; `allot_eq`: a field that fits the available
  elements is placed entirely.
- `Placement.Allotted`: over several rows, a number of elements goes from one state to another;
  `allotted_deal`: so it does where a field is placed.
-/

namespace Uplink

namespace Placement

/-! ## One symbol -/

/-- The places of `wanted` elements among `size`: all, or evenly spaced ones
from the first on. -/
def evenly (size wanted : Nat) : List Nat :=
  if size ≤ wanted then List.range size else (List.range wanted).map (· * (size / wanted))

section Evenly

variable {size wanted j : Nat}

/-- As many places are spread as are wanted, unless there are fewer. -/
theorem length_evenly (size wanted : Nat) : (evenly size wanted).length = min size wanted := by
  unfold evenly
  split
  · rw [List.length_range]
    omega
  · rw [List.length_map, List.length_range]
    omega

/-- Evenly spaced places lie within the symbol, because the step is rounded
down. -/
theorem lt_of_mem_evenly (h : j ∈ evenly size wanted) : j < size := by
  unfold evenly at h
  split at h
  · exact List.mem_range.mp h
  · rename_i hlt
    obtain ⟨i, hi, rfl⟩ := List.mem_map.mp h
    have hi := List.mem_range.mp hi
    calc i * (size / wanted) < wanted * (size / wanted) :=
          Nat.mul_lt_mul_of_pos_right hi (Nat.div_pos (by omega) (by omega))
      _ ≤ size := Nat.mul_div_le _ _

/-- No place is spread twice. -/
theorem nodup_evenly (size wanted : Nat) : (evenly size wanted).Nodup := by
  unfold evenly
  split
  · exact List.nodup_range
  · rename_i hlt
    refine (List.nodup_map_iff_inj_on List.nodup_range).mpr fun i hi k hk hik => ?_
    have hi := List.mem_range.mp hi
    exact Nat.eq_of_mul_eq_mul_right (Nat.div_pos (by omega) (by omega)) hik

end Evenly

/-- The chosen ones of the available elements. -/
def choose (available : Array Nat) (wanted : Nat) : List Nat :=
  (evenly available.size wanted).map fun j => available.getD j 0

section Choose

variable {available : Array Nat} {wanted k : Nat}

theorem mem_of_mem_choose (h : k ∈ choose available wanted) : k ∈ available := by
  obtain ⟨j, hj, rfl⟩ := List.mem_map.mp h
  rw [Buffer.getD_of_lt (lt_of_mem_evenly hj)]
  exact Array.getElem_mem _

theorem length_choose (available : Array Nat) (wanted : Nat) :
    (choose available wanted).length = min available.size wanted := by
  rw [choose, List.length_map, length_evenly]

theorem nodup_choose (h : available.toList.Nodup) (wanted : Nat) :
    (choose available wanted).Nodup := by
  refine (List.nodup_map_iff_inj_on (nodup_evenly _ _)).mpr fun i hi k hk hik => ?_
  have hi := lt_of_mem_evenly hi
  have hk := lt_of_mem_evenly hk
  rw [Buffer.getD_of_lt hi, Buffer.getD_of_lt hk] at hik
  exact (List.Nodup.getElem_inj_iff h).mp hik

/-- A field that wants all available elements gets them in their order. -/
theorem choose_all (h : available.size ≤ wanted) : choose available wanted = available.toList := by
  refine List.ext_getElem (by rw [length_choose, Array.length_toList]; omega) fun j h₁ h₂ => ?_
  have hj : j < available.size := by rwa [Array.length_toList] at h₂
  simp only [choose, evenly, if_pos h, List.getElem_map, List.getElem_range, Buffer.getD_of_lt hj,
    Array.getElem_toList]

theorem choose_zero (available : Array Nat) : choose available 0 = [] :=
  List.eq_nil_of_length_eq_zero (by rw [length_choose, Nat.min_zero])

/-- The elements for the bits of `wanted` ones are chosen. The machine must
count the bits of all that are available. -/
theorem spread_eq {group : Nat} (hgroup : 0 < group) (wanted : Nat) :
    GivesUnless (Size.limit ≤ available.size * group) (spread available (wanted * group) group)
      (choose available wanted).toArray := by
  refine .bind (.size_ofNat id) ?_
  by_cases hle : available.size ≤ wanted
  · rw [if_pos (Nat.mul_le_mul_right group hle), choose_all hle]
    exact .of_ok rfl
  · have hbits : wanted * group + group ≤ available.size * group := by
      rw [← Nat.succ_mul]
      exact Nat.mul_le_mul_right group (not_le.mp hle)
    have hcount : (wanted * group + group - 1) / group = wanted := by
      rw [Nat.div_eq_of_lt_le]
      · omega
      · rw [Nat.succ_mul]
        omega
    rw [if_neg (by rw [Nat.mul_le_mul_right_iff hgroup]; exact hle)]
    refine .bind (.size_ofNat hbits.trans') (.of_ok (congrArg Except.ok ?_))
    rw [hcount, Nat.mul_div_mul_right _ _ hgroup, choose, evenly, if_neg hle, ← Array.toList_inj,
      Array.toList_filterMap, Array.toList_range, List.map_map, ← List.filterMap_eq_map]
    refine List.filterMap_congr fun j hj => ?_
    have hlt : j * (available.size / wanted) < available.size := by
      have hmem : j * (available.size / wanted) ∈ evenly available.size wanted := by
        rw [evenly, if_neg hle]
        exact List.mem_map_of_mem hj
      exact lt_of_mem_evenly hmem
    simp only [Function.comp_apply, Buffer.getD_of_lt hlt, Array.getElem?_eq_getElem hlt]

end Choose

/-! ## All symbols -/

/-- On rows in order, `n` elements go from state `c` to state `c'`. -/
inductive Allotted (c c' : Cell) : List Row → Nat → List Row → Prop
  | nil : Allotted c c' [] 0 []
  | cons {m n : Nat} {row row' : Row} {rows rows' : List Row} :
      Row.Marked c c' m row row' → Allotted c c' rows n rows' →
      Allotted c c' (row :: rows) (m + n) (row' :: rows')

/-- The elements of a row that a field may take are different ones in state `c`.
-/
structure Row.Offers (c : Cell) (available : Row → Array Nat) (row : Row) : Prop where
  even : row.Even
  nodup : (available row).toList.Nodup
  cell : ∀ k ∈ available row, k < row.uses.size ∧ row.cell k = c
  plain : 0 < (available row).size → row.plain = true

variable {c c' : Cell} {available : Row → Array Nat} {rows rows' : List Row} {n : Nat}

theorem Allotted.refl : ∀ {rows : List Row}, (∀ row ∈ rows, row.Even) → Allotted c c' rows 0 rows
  | [], _ => .nil
  | row :: _, h => .cons (.refl (h row List.mem_cons_self))
      (.refl fun r hr => h r (List.mem_cons_of_mem row hr))

/-- Moves on two lists of rows are one move on both. -/
theorem Allotted.append {rows₁ rows₁' : List Row} {m : Nat} (h₁ : Allotted c c' rows m rows')
    (h₂ : Allotted c c' rows₁ n rows₁') :
    Allotted c c' (rows ++ rows₁) (m + n) (rows' ++ rows₁') := by
  induction h₁ with
  | nil => rwa [Nat.zero_add]
  | cons hrow _ ih =>
    rw [Nat.add_assoc]
    exact .cons hrow ih

/-- A move on rows that are cut in two is a move on each part, and the counts
add up. -/
theorem Allotted.of_append {rows₁ : List Row} {all : List Row}
    (h : Allotted c c' (rows ++ rows₁) n all) :
    ∃ (k m : Nat) (rows' rows₁' : List Row), all = rows' ++ rows₁' ∧ rows'.length = rows.length ∧
      Allotted c c' rows k rows' ∧ Allotted c c' rows₁ m rows₁' ∧ k + m = n := by
  induction rows generalizing n all with
  | nil => exact ⟨0, n, [], all, rfl, rfl, .nil, h, Nat.zero_add n⟩
  | cons row rows ih =>
    rw [List.cons_append] at h
    cases h with
    | cons hrow hrest =>
      obtain ⟨k, m, rows', rows₁', rfl, hlen, hfirst, hsecond, rfl⟩ := ih hrest
      exact ⟨_ + k, m, _ :: rows', rows₁', rfl, by rw [List.length_cons, hlen, List.length_cons],
        .cons hrow hfirst, hsecond, Nat.add_assoc _ _ _⟩

/-- What every move keeps holds of all rows in the end. -/
theorem Allotted.forall {P Q : Row → Prop} (h : Allotted c c' rows n rows')
    (step : ∀ m row row', Row.Marked c c' m row row' → P row → Q row')
    (hP : ∀ row ∈ rows, P row) : ∀ row ∈ rows', Q row := by
  induction h with
  | nil => exact fun row hrow => absurd hrow List.not_mem_nil
  | cons hmarked _ ih =>
    intro row hrow
    rcases List.mem_cons.mp hrow with rfl | hrow
    · exact step _ _ _ hmarked (hP _ List.mem_cons_self)
    · exact ih (fun r hr => hP r (List.mem_cons_of_mem _ hr)) row hrow

/-- Elements of all rows in a state. -/
def total (rows : List Row) (x : Cell) : Nat := (rows.map (·.count x)).sum

/-- Elements of all rows that are as at the start, on plain symbols. -/
def freeTotal (rows : List Row) : Nat := (rows.map Row.free).sum

/-- Elements of all rows. -/
def sizeTotal (rows : List Row) : Nat := (rows.map (·.uses.size)).sum

theorem total_append (rows rows₁ : List Row) (x : Cell) :
    total (rows ++ rows₁) x = total rows x + total rows₁ x := by
  rw [total, List.map_append, List.sum_append]
  rfl

/-- A move takes its elements from one state to the other, and leaves the counts
of all other states. -/
theorem Allotted.total_eq (h : Allotted c c' rows n rows') (x : Cell) :
    total rows' x + (if c = x then n else 0) = total rows x + (if c' = x then n else 0) := by
  induction h with
  | nil => rw [ite_self, ite_self]
  | cons hmarked _ ih =>
    have := hmarked.count x
    simp only [total, List.map_cons, List.sum_cons] at ih ⊢
    split_ifs at * <;> omega

/-- Every element that is taken at the start is one fewer on the plain symbols.
-/
theorem Allotted.freeTotal_eq (h : Allotted fresh c' rows n rows') (hne : c' ≠ fresh) :
    freeTotal rows' + n = freeTotal rows := by
  induction h with
  | nil => rfl
  | @cons m n row row' rows rows' hmarked _ ih =>
    have hcount := hmarked.count fresh
    rw [if_pos rfl, if_neg hne] at hcount
    have hfree : row'.free + m = row.free := by
      rw [Row.free, Row.free, hmarked.plain]
      cases hplain : row.plain with
      | true => exact hcount
      | false =>
        have : ¬ 0 < m := fun hpos => by rw [hmarked.plain_of_pos hpos] at hplain; cases hplain
        simp only [Bool.false_eq_true, if_false]
        omega
    simp only [freeTotal, List.map_cons, List.sum_cons] at ih ⊢
    omega

/-- No element is added or lost. -/
theorem Allotted.sizeTotal_eq (h : Allotted c c' rows n rows') :
    sizeTotal rows' = sizeTotal rows := by
  induction h with
  | nil => rfl
  | cons hmarked _ ih =>
    simp only [sizeTotal, List.map_cons, List.sum_cons] at ih ⊢
    rw [hmarked.size, ih]

/-! ## A field on all symbols -/

/-- The rows with `wanted` elements marked, as many on each row as are
available. -/
def deal (available : Row → Array Nat) (mark : Row → Nat → Row) : List Row → (wanted : Nat) → List Row
  | [], _ => []
  | row :: rows, wanted =>
    (choose (available row) wanted).foldl mark row ::
      deal available mark rows (wanted - (available row).size)

variable {mark : Row → Nat → Row} {wanted : Nat}

theorem deal_zero (rows : List Row) : deal available mark rows 0 = rows := by
  induction rows with
  | nil => rfl
  | cons row rows ih => rw [deal, choose_zero, Nat.zero_sub, ih, List.foldl_nil]

/-- Dealing keeps the rows in their order. -/
theorem map_symbol_deal {f : Cell → Cell} (hmark : Marks mark f) (rows : List Row) (wanted : Nat) :
    (deal available mark rows wanted).map (·.symbol) = rows.map (·.symbol) := by
  induction rows generalizing wanted with
  | nil => rfl
  | cons row rows ih =>
    rw [deal, List.map_cons, List.map_cons, ih]
    congr 1
    exact List.foldlRecOn (motive := fun r : Row => r.symbol = row.symbol) _ mark rfl
      fun r hr k _ => (hmark.symbol r k).trans hr

/-- What marks keep holds of all rows in the end, also of those that are not
reached. -/
theorem forall_deal {P : Row → Prop} (hP : ∀ row k, P row → P (mark row k))
    (h : ∀ row ∈ rows, P row) : ∀ row ∈ deal available mark rows wanted, P row := by
  induction rows generalizing wanted with
  | nil => exact fun row hrow => absurd hrow List.not_mem_nil
  | cons row rows ih =>
    intro row' hrow'
    rcases List.mem_cons.mp hrow' with rfl | hrow'
    · exact List.foldlRecOn _ mark (h row List.mem_cons_self) fun r hr k _ => hP r k hr
    · exact ih (fun r hr => h r (List.mem_cons_of_mem row hr)) row' hrow'

/-- A field that fits the available elements is placed entirely. The induction
is on the rows: each takes what it has, and the rest goes to those after it. -/
theorem allot_eq {group limit : Nat} {rows : List Row} (hgroup : wanted ≠ 0 → 0 < group)
    (hlimit : ∀ row ∈ rows, (available row).size ≤ limit)
    (hwanted : wanted ≤ (rows.map fun row => (available row).size).sum) :
    GivesUnless (rows ≠ [] ∧ Size.limit ≤ limit * group)
      (allot group available mark rows (wanted * group)) (deal available mark rows wanted, 0) := by
  induction rows generalizing wanted with
  | nil =>
    obtain rfl : wanted = 0 := Nat.le_zero.mp hwanted
    exact .of_ok (by rw [allot, Nat.zero_mul]; rfl)
  | cons row rows ih =>
    rw [List.map_cons, List.sum_cons] at hwanted
    rcases Nat.eq_zero_or_pos wanted with rfl | hpos
    · rw [deal_zero, Nat.zero_mul, allot, if_pos rfl]
      exact .of_ok rfl
    · have hgroup := hgroup hpos.ne'
      have hsize : (choose (available row) wanted).toArray.size =
          min (available row).size wanted := by
        rw [List.size_toArray, length_choose]
      -- what is left after this row still fits the others
      have hfewer : wanted - (available row).size ≤
          (rows.map fun row => (available row).size).sum := by omega
      have hrest := ih (fun _ => hgroup) (fun r hr => hlimit r (List.mem_cons_of_mem row hr)) hfewer
      have hleft : wanted * group - (choose (available row) wanted).toArray.size * group =
          (wanted - (available row).size) * group := by
        rw [← Nat.sub_mul, hsize]
        congr 1
        omega
      rw [allot, if_neg (Nat.mul_pos hpos hgroup).ne']
      refine .bind ((spread_eq hgroup wanted).mono fun h => ⟨List.cons_ne_nil _ _, h.trans ?_⟩) ?_
      · exact Nat.mul_le_mul_right group (hlimit row List.mem_cons_self)
      · refine .bind (.of_ok (Size.sub_of_le ?_)) ?_
        · exact Nat.mul_le_mul_right group (hsize ▸ min_le_right _ _)
        · rw [hleft]
          refine .bind (hrest.mono fun h => ⟨List.cons_ne_nil _ _, h.2⟩) (.of_ok ?_)
          rw [deal, List.foldl_toArray]
          rfl

/-- As many elements go to the state that a mark gives them. -/
theorem allotted_deal {f : Cell → Cell} (hmark : Marks mark f)
    (hrows : ∀ row ∈ rows, row.Offers c available)
    (hwanted : wanted ≤ (rows.map fun row => (available row).size).sum) :
    Allotted c (f c) rows wanted (deal available mark rows wanted) := by
  induction rows generalizing wanted with
  | nil =>
    obtain rfl : wanted = 0 := Nat.le_zero.mp hwanted
    exact .nil
  | cons row rows ih =>
    rw [List.map_cons, List.sum_cons] at hwanted
    have hrow := hrows row List.mem_cons_self
    have hmarked := Row.marked_foldl hmark hrow.even (nodup_choose hrow.nodup wanted)
      (fun k hk => hrow.cell k (mem_of_mem_choose hk)) fun hlen =>
        hrow.plain (by rw [length_choose] at hlen; omega)
    rw [length_choose] at hmarked
    have hsum : min (available row).size wanted + (wanted - (available row).size) = wanted := by
      omega
    have hfewer : wanted - (available row).size ≤
        (rows.map fun row => (available row).size).sum := by omega
    have hrest := ih (fun r hr => hrows r (List.mem_cons_of_mem row hr)) hfewer
    have hall := Allotted.cons hmarked hrest
    rwa [hsum] at hall

end Placement

end Uplink
