import Uplink.Fault
import Mathlib.Data.List.Basic
import Mathlib.Data.List.Induction

/-!
# Computations that may end in a fault

How a successful computation is opened, and how loops over lists and buffers are followed.

- `bind_eq_ok`, `require_eq_ok`: a sequence succeeds exactly if its parts do; `run_bind_eq_ok`: the
  same of one that may also be refused.
- `OverflowsOnly`: computations that can fail in one way only; `GivesUnless`: their result is known,
  and so is when they fail.
- `foldlM_invariant`, `foldlM_total`: what every step keeps holds of the whole loop; the second form
  also proves that the loop ends without a fault.
- `range_split`, `zipIdx_split`: which step of a loop is next.
- `exists_mapM`, `exists_mapM_array`: tables of results; the forms with `forall` also say what holds
  of every entry.
- `Buffer.push_induction`: induction over the last element of a buffer.
- `Buffer.getD_scatter`, `Buffer.getD_scatter_of_ne`: a loop that writes one element per step.
-/

namespace Uplink

universe u v

variable {α : Type u} {β : Type v}

/-! ## Sequences -/

/-- A sequence gives a result when its first part gives one and the second,
started from it, gives the result. Definitions in `do` notation are opened with
this, one line after the other. -/
theorem bind_eq_ok {γ : Type v} {x : Checked β} {f : β → Checked γ} {c : γ} :
    x >>= f = .ok c ↔ ∃ b, x = .ok b ∧ f b = .ok c := by
  constructor
  · intro h
    cases x with
    | error fault => cases h
    | ok b => exact ⟨b, rfl, h⟩
  · rintro ⟨b, rfl, h⟩
    exact h

/-- A sequence whose first part is found, and with it the second, is found. `Q`
is all that the second part may use of the result of the first. -/
theorem exists_bind {γ : Type v} {x : Checked β} {f : β → Checked γ} {P : γ → Prop}
    (Q : β → Prop) (hx : ∃ b, x = .ok b ∧ Q b) (hf : ∀ b, Q b → ∃ c, f b = .ok c ∧ P c) :
    ∃ c, x >>= f = .ok c ∧ P c := by
  obtain ⟨b, rfl, hb⟩ := hx
  exact hf b hb

@[simp] theorem ok_bind {γ : Type v} (b : β) (f : β → Checked γ) :
    (Except.ok b >>= f : Checked γ) = f b := rfl

@[simp] theorem pure_eq_ok (b : β) : (pure b : Checked β) = .ok b := rfl

/-- A requirement passes exactly when it holds, so a computation that gives a
result has met all its requirements. -/
theorem require_eq_ok {holds : Bool} {text : String} {u : Unit} :
    require holds text = .ok u ↔ holds = true := by
  cases holds with
  | true => simp [require]
  | false => simp [require]

theorem require_of {holds : Bool} (h : holds = true) (text : String) :
    require holds text = .ok () := by
  rw [h, require_true]

/-! ## Sequences that may also be refused -/

section Refusal

variable {ε γ δ : Type}

/-- The same for computations that can also end with an error of their own:
neither part fails, and neither part refuses. -/
theorem run_bind_eq_ok {x : ExceptT ε Checked γ} {f : γ → ExceptT ε Checked δ} {b : δ} :
    (x >>= f).run = .ok (.ok b) ↔ ∃ a, x.run = .ok (.ok a) ∧ (f a).run = .ok (.ok b) := by
  rw [ExceptT.run_bind, bind_eq_ok]
  constructor
  · rintro ⟨verdict, hx, hf⟩
    cases verdict with
    | ok a => exact ⟨a, hx, hf⟩
    | error e => cases hf
  · rintro ⟨a, hx, hf⟩
    exact ⟨.ok a, hx, hf⟩

theorem run_lift_eq_ok {x : Checked γ} {a : γ} :
    (liftM x : ExceptT ε Checked γ).run = .ok (.ok a) ↔ x = .ok a := by
  cases x with
  | ok b =>
    show (Except.ok (Except.ok b) : Checked (Except ε γ)) = _ ↔ _
    rw [Except.ok.injEq, Except.ok.injEq, Except.ok.injEq]
  | error fault => exact iff_of_false (fun h => nomatch h) (fun h => nomatch h)

theorem run_pure_eq_ok {a b : γ} : (pure a : ExceptT ε Checked γ).run = .ok (.ok b) ↔ a = b := by
  constructor
  · intro h
    exact Except.ok.inj (Except.ok.inj h)
  · rintro rfl
    rfl

end Refusal

/-! ## Machine sizes -/

namespace Size

/-- A number is a machine size when 64 bits count it. The operations below are
found from it. -/
theorem ofNat_eq_ok {n m : Nat} : ofNat n = .ok m ↔ n < limit ∧ m = n := by
  by_cases h : n < limit <;> simp [ofNat, h, eq_comm]

theorem add_eq_ok {a b m : Nat} : add a b = .ok m ↔ a + b < limit ∧ m = a + b := ofNat_eq_ok

theorem mul_eq_ok {a b m : Nat} : mul a b = .ok m ↔ a * b < limit ∧ m = a * b := ofNat_eq_ok

/-- There are no negative sizes, so what is subtracted must be there. -/
theorem sub_eq_ok {a b m : Nat} : sub a b = .ok m ↔ b ≤ a ∧ m = a - b := by
  by_cases h : b ≤ a <;> simp [sub, h, eq_comm]

theorem div_eq_ok {a b m : Nat} : div a b = .ok m ↔ b ≠ 0 ∧ m = a / b := by
  by_cases h : b = 0 <;> simp [div, h, eq_comm]

theorem mod_eq_ok {a b m : Nat} : mod a b = .ok m ↔ b ≠ 0 ∧ m = a % b := by
  by_cases h : b = 0 <;> simp [mod, h, eq_comm]

/-- A table along one axis, empty or not. An empty table asks no more than that
one of its cells could be counted. -/
theorem cells_of_lt {bytes n : Nat} (hbytes : 0 < bytes) (h : bytes * max n 1 < signedLimit) :
    cells bytes [n] = .ok n := by
  have hextent : max n 1 ≤ bytes * max n 1 := Nat.le_mul_of_pos_left _ hbytes
  have hcount : bytes * n ≤ bytes * max n 1 := Nat.mul_le_mul_left _ (Nat.le_max_left _ _)
  rw [cells]
  simp only [List.foldl_cons, List.foldl_nil, Nat.one_mul]
  rw [if_pos ⟨by omega, by omega⟩]

/-- A table whose cells take more bytes than a signed number counts is refused.
-/
theorem cells_of_le {bytes n : Nat} (h : signedLimit ≤ bytes * n) :
    cells bytes [n] = .error .arithmetic := by
  rw [cells]
  simp only [List.foldl_cons, List.foldl_nil, Nat.one_mul]
  exact if_neg fun hfit => Nat.not_lt.mpr h hfit.2

end Size

/-! ## Computations that can only leave the range of sizes -/

/-- The only fault of a computation is that a size leaves its range. -/
def OverflowsOnly (x : Checked β) : Prop := ∀ fault, x = .error fault → fault = .arithmetic

namespace OverflowsOnly

theorem of_ok {x : Checked β} {b : β} (h : x = .ok b) : OverflowsOnly x := by
  rw [h]
  exact fun fault hfault => nomatch hfault

/-- What follows may use what was found before: a fault of the second part need
only be considered where the first part gives a result. -/
theorem bind {γ : Type v} {x : Checked β} {f : β → Checked γ} (hx : OverflowsOnly x)
    (hf : ∀ b, x = .ok b → OverflowsOnly (f b)) : OverflowsOnly (x >>= f) := by
  intro fault hfault
  cases x with
  | error cause => exact hx fault (congrArg Except.error (Except.error.inj hfault))
  | ok b => exact hf b rfl fault hfault

theorem size_ofNat (n : Nat) : OverflowsOnly (Size.ofNat n) := by
  intro fault hfault
  rw [Size.ofNat] at hfault
  split at hfault
  · cases hfault
  · exact (Except.error.inj hfault).symm

/-- A loop fails only in the ways of its steps, which may fail for any element
and after any others. -/
theorem foldlM {f : β → α → Checked β} (h : ∀ b x, OverflowsOnly (f b x)) (l : List α) (b : β) :
    OverflowsOnly (l.foldlM f b) := by
  induction l generalizing b with
  | nil => exact of_ok rfl
  | cons x l ih =>
    rw [List.foldlM_cons]
    exact bind (h b x) fun b' _ => ih b'

end OverflowsOnly

/-- The computation gives `b` unless a size on the way leaves its range, and
then `beyond` holds. -/
def GivesUnless (beyond : Prop) (x : Checked β) (b : β) : Prop :=
  x = .ok b ∨ x = .error .arithmetic ∧ beyond

namespace GivesUnless

variable {beyond : Prop}

theorem of_ok {x : Checked β} {b : β} (h : x = .ok b) : GivesUnless beyond x b := .inl h

/-- A sequence gives its known result when both parts give theirs. One condition
`beyond` covers the sizes of both. -/
theorem bind {γ : Type v} {x : Checked β} {f : β → Checked γ} {b : β} {c : γ}
    (hx : GivesUnless beyond x b) (hf : GivesUnless beyond (f b) c) :
    GivesUnless beyond (x >>= f) c := by
  rcases hx with rfl | ⟨rfl, hbeyond⟩
  · exact hf
  · exact .inr ⟨rfl, hbeyond⟩

/-- With its sizes within the machine the computation gives its known result. -/
theorem eq_ok {x : Checked β} {b : β} (hx : GivesUnless beyond x b) (h : ¬ beyond) : x = .ok b :=
  hx.resolve_right fun hx => h hx.2

theorem mono {beyond' : Prop} {x : Checked β} {b : β} (hx : GivesUnless beyond x b)
    (h : beyond → beyond') : GivesUnless beyond' x b :=
  hx.imp_right fun hx => ⟨hx.1, h hx.2⟩

/-- A table of known results is a known result: the entries are found one after
the other, each from the same condition on sizes. -/
theorem mapM {α β : Type} {f : α → Checked β} {g : α → β} :
    ∀ {l : List α}, (∀ x ∈ l, GivesUnless beyond (f x) (g x)) →
      GivesUnless beyond (l.mapM f) (l.map g)
  | [], _ => .of_ok rfl
  | x :: l, h => by
    rw [List.mapM_cons]
    exact .bind (h x List.mem_cons_self)
      (.bind (mapM fun y hy => h y (List.mem_cons_of_mem x hy)) (.of_ok rfl))

theorem size_ofNat {n : Nat} (h : Size.limit ≤ n → beyond) :
    GivesUnless beyond (Size.ofNat n) n := by
  by_cases hn : n < Size.limit
  · exact .inl (if_pos hn)
  · exact .inr ⟨if_neg hn, h (Nat.le_of_not_lt hn)⟩

/-- A table along one axis is found, empty or not, unless its cells take more
bytes than a signed number counts. -/
theorem size_cells {bytes n : Nat} (hbytes : bytes < Size.signedLimit)
    (h : Size.signedLimit ≤ bytes * n → beyond) (hpos : 0 < bytes) :
    GivesUnless beyond (Size.cells bytes [n]) n := by
  by_cases hn : bytes * n < Size.signedLimit
  · refine .inl (Size.cells_of_lt hpos ?_)
    rcases Nat.eq_zero_or_pos n with rfl | hpos
    · simpa using hbytes
    · rwa [Nat.max_eq_left hpos]
  · have hle := Nat.le_of_not_lt hn
    exact .inr ⟨Size.cells_of_le hle, h hle⟩

end GivesUnless

/-! ## Loops -/

/-- What holds at the start of a loop and is kept by each of its steps holds at
its end. The statement may speak of the part of the list that is done. -/
theorem foldlM_invariant {f : β → α → Checked β} {l : List α} {b b' : β}
    (motive : List α → β → Prop) (h : l.foldlM f b = .ok b') (start : motive [] b)
    (step : ∀ done x rest b₁ b₂, l = done ++ x :: rest → motive done b₁ → f b₁ x = .ok b₂ →
      motive (done ++ [x]) b₂) :
    motive l b' := by
  -- the induction is on what is left; `done` grows at its end
  suffices ∀ rest done b, l = done ++ rest → motive done b → rest.foldlM f b = .ok b' →
      motive l b' from this l [] b rfl start h
  intro rest
  induction rest with
  | nil =>
    intro done b hl hb h
    obtain rfl : b = b' := by simpa using h
    rwa [hl, List.append_nil]
  | cons x rest ih =>
    intro done b hl hb h
    rw [List.foldlM_cons, bind_eq_ok] at h
    obtain ⟨b₁, hx, h⟩ := h
    exact ih (done ++ [x]) b₁ (by rw [hl, List.append_assoc]; rfl)
      (step done x rest b b₁ hl hb hx) h

/-- A loop each of whose steps succeeds succeeds. As for results, a step may use
what the steps before it have established for the part of the list that is done.
-/
theorem foldlM_total {f : β → α → Checked β} {l : List α} {b : β} (motive : List α → β → Prop)
    (start : motive [] b)
    (step : ∀ done x rest b₁, l = done ++ x :: rest → motive done b₁ →
      ∃ b₂, f b₁ x = .ok b₂ ∧ motive (done ++ [x]) b₂) :
    ∃ b', l.foldlM f b = .ok b' ∧ motive l b' := by
  suffices ∀ rest done b, l = done ++ rest → motive done b →
      ∃ b', rest.foldlM f b = .ok b' ∧ motive l b' from this l [] b rfl start
  intro rest
  induction rest with
  | nil =>
    intro done b hl hb
    exact ⟨b, rfl, by rwa [hl, List.append_nil]⟩
  | cons x rest ih =>
    intro done b hl hb
    obtain ⟨b₁, hx, hb₁⟩ := step done x rest b hl hb
    obtain ⟨b', h, hb'⟩ := ih (done ++ [x]) b₁ (by rw [hl, List.append_assoc]; rfl) hb₁
    exact ⟨b', by rw [List.foldlM_cons, hx]; exact h, hb'⟩

/-- The number that is next after those done, in a loop over the numbers below
`n`. It turns a split of the list into the count of the steps made so far. -/
theorem range_split {n k : Nat} {done rest : List Nat} (h : List.range n = done ++ k :: rest) :
    done = List.range k ∧ k < n := by
  have hlen : done.length < n := by
    have := congrArg List.length h
    simp at this
    omega
  have hk : done.length = k := by
    have := congrArg (fun l => l[done.length]?) h
    simpa [List.getElem?_range hlen] using this
  refine ⟨?_, by omega⟩
  have htake := congrArg (List.take done.length) h
  rw [List.take_left, List.take_range, Nat.min_eq_left (by omega), hk] at htake
  exact htake.symm

/-- The number of the element that is next after those done, in a loop over
numbered elements, is how many are done. -/
theorem zipIdx_split {l : List α} {x : α} {n : Nat} {done rest : List (α × Nat)}
    (h : l.zipIdx = done ++ (x, n) :: rest) : n = done.length := by
  have hget : l.zipIdx[done.length]? = some (x, n) := by
    rw [h, List.getElem?_append_right (Nat.le_refl _), Nat.sub_self]
    rfl
  rw [List.getElem?_zipIdx, Option.map_eq_some_iff] at hget
  obtain ⟨_, -, hpair⟩ := hget
  have hnumber : 0 + done.length = n := congrArg Prod.snd hpair
  omega

/-! ## Tables of results -/

/-- A table has one entry for each element, since a step that fails leaves no
table at all. -/
theorem length_of_mapM {f : α → Checked β} {l : List α} {ys : List β} (h : l.mapM f = .ok ys) :
    ys.length = l.length := by
  induction l generalizing ys with
  | nil =>
    rw [← Except.ok.inj h]
    rfl
  | cons x l ih =>
    rw [List.mapM_cons] at h
    obtain ⟨y, -, h⟩ := bind_eq_ok.mp h
    obtain ⟨rest, hrest, h⟩ := bind_eq_ok.mp h
    rw [← Except.ok.inj h, List.length_cons, ih hrest, List.length_cons]

theorem size_of_mapM {f : α → Checked β} {xs : Array α} {ys : Array β} (h : xs.mapM f = .ok ys) :
    ys.size = xs.size := by
  rw [Array.mapM_eq_mapM_toList] at h
  obtain ⟨list, hlist, h⟩ := bind_eq_ok.mp h
  rw [← Except.ok.inj h, List.size_toArray, length_of_mapM hlist, Array.length_toList]

/-- A table each of whose entries is found is found, with whatever is known of
each entry. -/
theorem exists_mapM_forall (P : β → Prop) (f : α → Checked β) (l : List α)
    (h : ∀ x ∈ l, ∃ y, f x = .ok y ∧ P y) :
    ∃ ys, l.mapM f = .ok ys ∧ ys.length = l.length ∧ ∀ y ∈ ys, P y := by
  induction l with
  | nil => exact ⟨[], rfl, rfl, fun y hy => absurd hy List.not_mem_nil⟩
  | cons x l ih =>
    obtain ⟨y, hy, hP⟩ := h x List.mem_cons_self
    obtain ⟨ys, hys, hlength, hall⟩ := ih fun x hx => h x (List.mem_cons_of_mem _ hx)
    refine ⟨y :: ys, ?_, congrArg Nat.succ hlength, List.forall_mem_cons.mpr ⟨hP, hall⟩⟩
    rw [List.mapM_cons, hy, ok_bind, hys, ok_bind, pure_eq_ok]

theorem exists_mapM (f : α → Checked β) (l : List α) (h : ∀ x ∈ l, ∃ y, f x = .ok y) :
    ∃ ys, l.mapM f = .ok ys := by
  obtain ⟨ys, hys, -⟩ := exists_mapM_forall (fun _ => True) f l fun x hx =>
    (h x hx).imp fun _ hy => ⟨hy, trivial⟩
  exact ⟨ys, hys⟩

/-- The same for buffers, which are mapped through their lists. -/
theorem exists_mapM_array_forall (P : β → Prop) (f : α → Checked β) (xs : Array α)
    (h : ∀ x ∈ xs, ∃ y, f x = .ok y ∧ P y) :
    ∃ ys, xs.mapM f = .ok ys ∧ ys.size = xs.size ∧ ∀ y ∈ ys, P y := by
  obtain ⟨ys, hys, hlength, hall⟩ := exists_mapM_forall P f xs.toList fun x hx =>
    h x (Array.mem_def.mpr hx)
  refine ⟨ys.toArray, ?_, hlength, fun y hy => hall y (by simpa using hy)⟩
  rw [Array.mapM_eq_mapM_toList, hys]
  rfl

theorem exists_mapM_array (f : α → Checked β) (xs : Array α) (h : ∀ x ∈ xs, ∃ y, f x = .ok y) :
    ∃ ys, xs.mapM f = .ok ys ∧ ys.size = xs.size := by
  obtain ⟨ys, hys, hsize, -⟩ := exists_mapM_array_forall (fun _ => True) f xs fun x hx =>
    (h x hx).imp fun _ hy => ⟨hy, trivial⟩
  exact ⟨ys, hys, hsize⟩

/-- What is made of every entry is made of the table, so that a loop that finds
and converts may be read as one that finds, followed by one that converts. -/
theorem mapM_map_result {γ : Type v} (f : α → Checked β) (g : β → γ) (l : List α) :
    (l.mapM fun x => do return g (← f x)) = do return (← l.mapM f).map g := by
  induction l with
  | nil => rfl
  | cons x l ih =>
    rw [List.mapM_cons, List.mapM_cons, ih]
    cases f x with
    | error fault => rfl
    | ok y =>
      simp only [ok_bind, pure_eq_ok]
      cases l.mapM f with
      | error fault => rfl
      | ok ys => rfl

theorem mapM_map_result_array {γ : Type v} (f : α → Checked β) (g : β → γ) (xs : Array α) :
    (xs.mapM fun x => do return g (← f x)) = do return (← xs.mapM f).map g := by
  rw [Array.mapM_eq_mapM_toList, Array.mapM_eq_mapM_toList, mapM_map_result]
  cases xs.toList.mapM f with
  | error fault => rfl
  | ok ys => simp only [ok_bind, pure_eq_ok, Functor.map, Except.map, List.map_toArray]

namespace Buffer

/-! ## Growing buffers -/

/-- What holds of the empty buffer and of every buffer with one element more
holds of all. Loops that collect their results by pushing build buffers in this
order. -/
@[elab_as_elim]
theorem push_induction {motive : Array α → Prop} (empty : motive #[])
    (push : ∀ buffer x, motive buffer → motive (buffer.push x)) (buffer : Array α) :
    motive buffer := by
  suffices ∀ xs : List α, motive xs.toArray from this buffer.toList
  intro xs
  induction xs using List.reverseRecOn with
  | nil => exact empty
  | append_singleton xs x ih =>
    rw [← List.push_toArray]
    exact push _ x ih

theorem getD_push_of_lt {buffer : Array α} {i : Nat} (hi : i < buffer.size) (x d : α) :
    (buffer.push x).getD i d = buffer.getD i d := by
  simp [Array.getD, hi, Array.getElem_push_lt, Nat.lt_succ_of_lt hi]

theorem getD_push_size (buffer : Array α) (x d : α) :
    (buffer.push x).getD buffer.size d = x := by
  simp [Array.getD]

/-! ## One element replaced -/

/-- Writing one place does not change what is read at another, nor whether it
can be read. -/
theorem read_setIfInBounds_of_ne {i k : Nat} (h : k ≠ i) (buffer : Array α) (x : α) :
    read (buffer.setIfInBounds i x) k = read buffer k := by
  rw [read, read, Array.getElem?_setIfInBounds_ne h.symm]

/-- Reading the place that was written gives what was written, if the place
exists; if it does not, the read fails as it did before. -/
theorem read_setIfInBounds_self (buffer : Array α) (i : Nat) (x : α) :
    read (buffer.setIfInBounds i x) i = do
      let _ ← read buffer i
      return x := by
  by_cases hi : i < buffer.size
  · rw [read_of_lt hi, read, Array.getElem?_setIfInBounds_self_of_lt hi]
    rfl
  · rw [Array.setIfInBounds_eq_of_size_le (Nat.le_of_not_lt hi), read,
      Array.getElem?_eq_none (Nat.le_of_not_lt hi)]
    rfl

/-! ## Loops that write -/

/-- The buffer with `value i` written to `place i`, for `i` from 0 on below `n`.
-/
def scatter (place : Nat → Nat) (value : Nat → α) (n : Nat) (buffer : Array α) : Array α :=
  (List.range n).foldl (fun b i => b.setIfInBounds (place i) (value i)) buffer

variable {place : Nat → Nat} {value : Nat → α}

/-- The last write is made onto what all earlier writes leave, which is what
inductions on the number of writes use. -/
theorem scatter_succ (n : Nat) (buffer : Array α) :
    scatter place value (n + 1) buffer =
      (scatter place value n buffer).setIfInBounds (place n) (value n) := by
  simp [scatter, List.range_succ]

@[simp] theorem size_scatter (n : Nat) (buffer : Array α) :
    (scatter place value n buffer).size = buffer.size := by
  induction n with
  | zero => rfl
  | succ n ih => rw [scatter_succ, Array.size_setIfInBounds, ih]

theorem getD_of_lt {buffer : Array α} {i : Nat} (h : i < buffer.size) (d : α) :
    buffer.getD i d = buffer[i] := by
  simp [Array.getD, h]

theorem getD_setIfInBounds (buffer : Array α) (p q : Nat) (x d : α) :
    (buffer.setIfInBounds p x).getD q d =
      if p = q ∧ p < buffer.size then x else buffer.getD q d := by
  rw [Array.getD_eq_getD_getElem?, Array.getElem?_setIfInBounds, Array.getD_eq_getD_getElem?]
  by_cases h : p = q
  · subst h
    by_cases hp : p < buffer.size
    · simp [hp]
    · simp [hp]
  · simp [h]

/-- A place that is not written keeps its element, whatever is written to the
others. -/
theorem getD_scatter_of_ne {n : Nat} {buffer : Array α} {p : Nat} {d : α}
    (h : ∀ i < n, place i ≠ p) : (scatter place value n buffer).getD p d = buffer.getD p d := by
  induction n with
  | zero => rfl
  | succ n ih =>
    rw [scatter_succ, getD_setIfInBounds, if_neg fun hp => h n (Nat.lt_succ_self n) hp.1]
    exact ih fun i hi => h i (Nat.lt_succ_of_lt hi)

/-- Each place holds what was written to it, if no place is written twice.
Without that condition the last write would win. -/
theorem getD_scatter {n : Nat} {buffer : Array α} {i : Nat} {d : α} (hi : i < n)
    (hinj : ∀ i < n, ∀ j < n, place i = place j → i = j) (hp : place i < buffer.size) :
    (scatter place value n buffer).getD (place i) d = value i := by
  induction n with
  | zero => omega
  | succ n ih =>
    rw [scatter_succ, getD_setIfInBounds, size_scatter]
    rcases Nat.lt_succ_iff_lt_or_eq.mp hi with hlt | rfl
    · rw [if_neg]
      · exact ih hlt fun a ha b hb => hinj a (Nat.lt_succ_of_lt ha) b (Nat.lt_succ_of_lt hb)
      · rintro ⟨h, -⟩
        have := hinj n (Nat.lt_succ_self n) i hi h
        omega
    · rw [if_pos ⟨rfl, hp⟩]

/-- What holds of the old elements and of all written ones holds of the elements
afterwards, wherever they were written. -/
theorem scatter_induction {n : Nat} {buffer : Array α} {d : α} (motive : α → Prop)
    (old : ∀ p, motive (buffer.getD p d)) (written : ∀ i < n, motive (value i)) (p : Nat) :
    motive ((scatter place value n buffer).getD p d) := by
  induction n with
  | zero => exact old p
  | succ n ih =>
    rw [scatter_succ, getD_setIfInBounds]
    split
    · exact written n (Nat.lt_succ_self n)
    · exact ih fun i hi => written i (Nat.lt_succ_of_lt hi)

/-- Copying values into a range is writing them to consecutive places. -/
theorem overwrite_eq (buffer : Array α) (start : Nat) (values : Array α) (d : α) :
    overwrite buffer start values =
      scatter (start + ·) (fun i => values.getD i d) values.size buffer := by
  refine List.foldl_ext _ _ _ fun b i hi => ?_
  have hi : i < values.size := List.mem_range.mp hi
  dsimp only
  rw [Array.getElem?_eq_getElem hi, getD_of_lt hi]

/-- After a copy the range holds the values and the rest of the buffer is what
it was. -/
theorem getD_overwrite {buffer values : Array α} {start p : Nat} (d : α) (hp : p < buffer.size) :
    (overwrite buffer start values).getD p d =
      if start ≤ p ∧ p < start + values.size then values.getD (p - start) d
      else buffer.getD p d := by
  rw [overwrite_eq buffer start values d]
  by_cases h : start ≤ p ∧ p < start + values.size
  · have hplace : start + (p - start) = p := by omega
    -- the place is written once, by the step `p - start`
    have := @getD_scatter α (start + ·) (fun i => values.getD i d) values.size buffer (p - start) d
      (by omega) (fun i _ j _ hij => by omega) (by omega)
    rw [hplace] at this
    rw [if_pos h, this]
  · rw [if_neg h]
    exact getD_scatter_of_ne fun i hi heq => h (by omega)

/-- A part of a buffer starts with its own first element, so its places are
counted from the start of the part. -/
theorem getD_extract (buffer : Array α) (start stop i : Nat) (d : α) (h : start + i < stop) :
    (buffer.extract start stop).getD i d = buffer.getD (start + i) d := by
  simp only [Array.getD_eq_getD_getElem?, Array.getElem?_extract]
  split
  · rfl
  · rw [Array.getElem?_eq_none (by omega)]

end Buffer

end Uplink
