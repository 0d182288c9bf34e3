import Uplink.Proofs.Checked

/-!
# Computations side by side

Two computations of one kind that start from different states go on alike if they end in related
answers or in the same fault. The relation says which parts of the states do not matter.

- `Alike`: the two computations, with the relation of their answers.
- `Alike.bind`, `Alike.after`, `Alike.foldlM`: sequences and loops go on alike if their steps do.
- `Alike.foldlM_mapM`, `mapM_zip`, `optionMapM`: so do loops and tables that find the same entries.
- `Alike.eq`, `exists_ok`, `exists_ok_left`, `map_eq`, `map_toOption`: what is known of one from the
  other.
-/

namespace Uplink

universe u v

/-- Both computations answer, with related answers, or the same fault stops
both. -/
inductive Alike {α : Type u} {α' : Type v} (R : α → α' → Prop) : Checked α → Checked α' → Prop
  | ok {a : α} {a' : α'} (h : R a a') : Alike R (.ok a) (.ok a')
  | fault (f : Fault) : Alike R (.error f) (.error f)

namespace Alike

variable {α β : Type u} {α' β' : Type v} {R S : α → α' → Prop} {T : β → β' → Prop}
  {x : Checked α} {x' : Checked α'}

/-- A computation goes on like itself, if what it answers is related to itself.
-/
theorem refl {R : α → α → Prop} (x : Checked α) (h : ∀ a, x = .ok a → R a a) : Alike R x x := by
  cases x with
  | ok a => exact .ok (h a rfl)
  | error f => exact .fault f

theorem mono (h : Alike R x x') (hRS : ∀ a a', R a a' → S a a') : Alike S x x' := by
  cases h with
  | ok h => exact .ok (hRS _ _ h)
  | fault f => exact .fault f

/-- Two sequences go on alike if their first parts do and the second parts do
from related results. Each comparison of two programs below follows their common
text with this. -/
theorem bind {f : α → Checked β} {f' : α' → Checked β'} (h : Alike R x x')
    (hf : ∀ a a', R a a' → Alike T (f a) (f' a')) : Alike T (x >>= f) (x' >>= f') := by
  cases h with
  | ok h => exact hf _ _ h
  | fault f => exact .fault f

/-- What one computation still does after the end of the other. It must not
fail, as the other has no fault to match. -/
theorem bind_left {f : α → Checked β} {S : β → α' → Prop} (h : Alike R x x')
    (hf : ∀ a a', R a a' → ∃ b, f a = .ok b ∧ S b a') : Alike S (x >>= f) x' := by
  cases h with
  | ok h =>
    obtain ⟨b, hb, hS⟩ := hf _ _ h
    rw [ok_bind, hb]
    exact .ok hS
  | fault f => exact .fault f

/-- The same first part in both sequences, and with it the same result to go on
from. -/
theorem after {γ α' : Type u} {f : γ → Checked α} {g : γ → Checked α'} {R : α → α' → Prop}
    (x : Checked γ) (h : ∀ c, x = .ok c → Alike R (f c) (g c)) : Alike R (x >>= f) (x >>= g) :=
  (refl x (R := fun c c' => x = .ok c ∧ c = c') fun _ hc => ⟨hc, rfl⟩).bind
    fun c _ hc => hc.2 ▸ h c hc.1

/-- Loops over one list go on alike if each step does. The relation may speak of
the part of the list that is done. -/
theorem foldlM {γ : Type*} {f : α → γ → Checked α} {f' : α' → γ → Checked α'} {l : List γ} {a : α}
    {a' : α'} (motive : List γ → α → α' → Prop) (start : motive [] a a')
    (step : ∀ done c rest b b', l = done ++ c :: rest → motive done b b' →
      Alike (motive (done ++ [c])) (f b c) (f' b' c)) :
    Alike (motive l) (l.foldlM f a) (l.foldlM f' a') := by
  suffices ∀ rest done b b', l = done ++ rest → motive done b b' →
      Alike (motive l) (rest.foldlM f b) (rest.foldlM f' b') from this l [] a a' rfl start
  intro rest
  induction rest with
  | nil =>
    intro done b b' hl hb
    rw [List.append_nil] at hl
    exact .ok (hl ▸ hb)
  | cons c rest ih =>
    intro done b b' hl hb
    rw [List.foldlM_cons, List.foldlM_cons]
    exact (step done c rest b b' hl hb).bind fun b₁ b₁' hb₁ =>
      ih (done ++ [c]) b₁ b₁' (by rw [hl, List.append_assoc]; rfl) hb₁

/-- A loop and a table over one list go on alike if each step and its entry do.
The relation speaks of the entries that are found. -/
theorem foldlM_mapM {γ : Type*} {f : α → γ → Checked α} {g : γ → Checked β'} {l : List γ} {a : α}
    (motive : α → List β' → Prop) (start : motive a [])
    (step : ∀ done c rest b ys, l = done ++ c :: rest → ys.length = done.length → motive b ys →
      Alike (fun b' y => motive b' (ys ++ [y])) (f b c) (g c)) :
    Alike motive (l.foldlM f a) (l.mapM g) := by
  suffices ∀ rest done b ys, l = done ++ rest → ys.length = done.length → motive b ys →
      Alike (fun b' zs => motive b' (ys ++ zs)) (rest.foldlM f b) (rest.mapM g) from
    this l [] a [] rfl rfl start
  intro rest
  induction rest with
  | nil =>
    intro done b ys _ _ hb
    exact .ok (show motive b (ys ++ []) by rwa [List.append_nil])
  | cons c rest ih =>
    intro done b ys hl hlength hb
    rw [List.foldlM_cons, List.mapM_cons]
    refine (step done c rest b ys hl hlength hb).bind fun b₁ y hb₁ => ?_
    have hrest := ih (done ++ [c]) b₁ (ys ++ [y]) (by rw [hl, List.append_assoc]; rfl)
      (by rw [List.length_append, List.length_append, hlength]; rfl) hb₁
    generalize rest.foldlM f b₁ = x, rest.mapM g = x' at hrest ⊢
    cases hrest with
    | ok h => exact .ok (by rwa [List.append_assoc] at h)
    | fault f => exact .fault f

/-- A table over two buffers of one size is one over the second, if the first
makes no difference. -/
theorem mapM_zip {α γ β : Type} {f : α × γ → Checked β} {g : γ → Checked β} {xs : Array α}
    {ys : Array γ} (hsize : xs.size = ys.size) (h : ∀ x y, f (x, y) = g y) :
    Alike (fun zs zs' => zs = zs' ∧ zs'.size = ys.size) ((xs.zip ys).mapM f) (ys.mapM g) := by
  have hcompose : f = g ∘ Prod.snd := funext fun p => h p.1 p.2
  have hpairs : (xs.zip ys).toList.map Prod.snd = ys.toList := by
    rw [Array.toList_zip]
    exact List.map_snd_zip (Nat.le_of_eq hsize.symm)
  have heq : (xs.zip ys).mapM f = ys.mapM g := by
    rw [Array.mapM_eq_mapM_toList, Array.mapM_eq_mapM_toList, hcompose, ← List.mapM_map, hpairs]
  rw [heq]
  exact .refl _ fun zs hzs => ⟨rfl, size_of_mapM hzs⟩

/-- What may be absent is found alike: absent on both sides, or found on both
from related values. -/
theorem optionMapM {f : α → Checked β} {f' : α' → Checked β'} {o : Option α} {o' : Option α'}
    (ho : Option.Rel R o o') (h : ∀ a a', R a a' → Alike T (f a) (f' a')) :
    Alike (Option.Rel T) (o.mapM f) (o'.mapM f') := by
  cases ho with
  | none => exact .ok .none
  | @some a a' hR =>
    have hfound := h a a' hR
    rw [Option.mapM_some, Option.mapM_some]
    generalize f a = x, f' a' = x' at hfound ⊢
    cases hfound with
    | ok hT => exact .ok (.some hT)
    | fault f => exact .fault f

/-- Computations with related answers are the same if related answers are. -/
theorem eq {x' : Checked α} {R : α → α → Prop} (h : Alike R x x') (hR : ∀ a a', R a a' → a = a') :
    x = x' := by
  cases h with
  | ok h => rw [hR _ _ h]
  | fault f => rfl

/-- What one computation answers the other answers too, with a related answer.
-/
theorem exists_ok {a : α} (h : Alike R x x') (hx : x = .ok a) : ∃ a', x' = .ok a' ∧ R a a' := by
  cases h with
  | ok h =>
    obtain rfl := Except.ok.inj hx
    exact ⟨_, rfl, h⟩
  | fault f => cases hx

theorem exists_ok_left {a' : α'} (h : Alike R x x') (hx : x' = .ok a') :
    ∃ a, x = .ok a ∧ R a a' := by
  cases h with
  | ok h =>
    obtain rfl := Except.ok.inj hx
    exact ⟨_, rfl, h⟩
  | fault f => cases hx

/-- What is seen of the answers is the same if related answers look the same;
the faults are the same in any case. -/
theorem map_eq {γ : Type*} {g : α → γ} {g' : α' → γ} (h : Alike R x x')
    (hg : ∀ a a', R a a' → g a = g' a') : Except.map g x = Except.map g' x' := by
  cases h with
  | ok h => exact congrArg Except.ok (hg _ _ h)
  | fault f => rfl

theorem map_toOption {γ : Type*} {g : α → γ} {g' : α' → γ} (h : Alike R x x')
    (hg : ∀ a a', R a a' → g a = g' a') : x.toOption.map g = x'.toOption.map g' := by
  cases h with
  | ok h => exact congrArg some (hg _ _ h)
  | fault f => rfl

end Alike

end Uplink
