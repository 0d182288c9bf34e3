import Uplink.Proofs.Harq.Expiry
import Mathlib.Data.Set.Card

/-!
# Pools as maps of bounded size

To its users a pool is a map from processes to what is kept of them: the contents of a buffer and
the slot count at which they are given up. The map never has more entries than the pool's capacity,
and an operation on one process does not show in the entry of another.

- `HarqPool.kept`: the entry of a process, with one equation for each operation on the pool.
- `HarqPool.Within`: no process has two reservations, and there are no more than the capacity;
  every operation keeps this.
- `HarqPool.kept_run_of_leaves`: what operations on other processes, and slots, leave of an entry.
- `HarqPool.IsMap`: what the users of a pool see of it.
- `HarqPool.isMap_run`: they see it after any operations, from a new pool on.
-/

namespace Uplink

namespace HarqPool

/-! ## Operations -/

/-- What users do with a pool: an event of one process, where a write goes
through a buffer that was handed out, or a slot. -/
inductive Operation where
  | event (e : Event)
  | slot (now : SlotPoint)

/-- The pool after an operation. -/
def step (pool : HarqPool) : Operation → HarqPool
  | .event e => pool.after e
  | .slot now => pool.expire now

/-- The pool after several operations in order. -/
def run (pool : HarqPool) (operations : List Operation) : HarqPool := operations.foldl step pool

/-- The operation is not one on the process: it is an event of another one, or a
slot. -/
def Operation.Leaves (id : HarqId) : Operation → Prop
  | .event (.reserve _ other _ _) => other ≠ id
  | .event (.update other _) => other ≠ id
  | .event (.release other) => other ≠ id
  | .slot _ => True

variable {settings : HarqPoolSettings} {pool later : HarqPool} {id other : HarqId}
  {slot now : SlotPoint} {n : Nat} {newData : Bool} {buffer : HarqBuffer}

/-! ## Entries -/

/-- What is kept of a process. -/
structure Kept where
  buffer : HarqBuffer
  /-- The slot count at which it is given up. -/
  ends : UInt32

/-- The entry of a process. -/
def kept (pool : HarqPool) (id : HarqId) : Option Kept :=
  (pool.find? id).map fun r => ⟨r.buffer, r.ends⟩

theorem kept_eq : pool.kept id = (pool.own id).head?.map fun r => ⟨r.buffer, r.ends⟩ := by
  rw [kept, find?_eq_head?]

/-- Nothing is kept of a process without a reservation. -/
theorem kept_eq_none_iff : pool.kept id = none ↔ ∀ r ∈ pool.reservations, r.id ≠ id := by
  simp [kept, find?]

@[simp] theorem kept_put_self (r : Reservation) :
    (pool.put r).kept r.id = some ⟨r.buffer, r.ends⟩ := by
  rw [kept_eq, own_put_self]
  rfl

/-- The entry is what a request finds of the process. A process with an entry is
granted its request even by a full pool. -/
theorem request_of_room (hroom : pool.kept id = none → pool.count < pool.settings.capacity) :
    pool.request slot id n newData =
      (.ok (bufferFor ((pool.kept id).map (·.buffer)) n newData),
        pool.put ⟨id, bufferFor ((pool.kept id).map (·.buffer)) n newData,
          slot.count + pool.settings.lifetime⟩) := by
  have hkept : (pool.kept id).map (·.buffer) = (pool.find? id).map (·.buffer) := by
    rw [kept, Option.map_map]
    rfl
  rw [request, hkept, if_neg]
  rintro ⟨hnone, hfull⟩
  have := hroom (by rw [kept, Option.isNone_iff_eq_none.mp hnone]; rfl)
  omega

/-- A full pool turns down a new process and stays as it is. -/
theorem request_of_full (hnone : pool.kept id = none)
    (hfull : pool.settings.capacity ≤ pool.count) :
    pool.request slot id n newData = (.error ⟨id⟩, pool) := by
  rw [kept, Option.map_eq_none_iff] at hnone
  rw [request, if_pos ⟨by rw [hnone]; rfl, hfull⟩]

/-! ## The bound -/

/-- No process has two reservations, and there are no more than the capacity. -/
structure Within (settings : HarqPoolSettings) (pool : HarqPool) : Prop where
  settings_eq : pool.settings = settings
  distinct : (pool.reservations.map (·.id)).Nodup
  count_le : pool.count ≤ settings.capacity

theorem within_empty (settings : HarqPoolSettings) : Within settings (empty settings) :=
  ⟨rfl, List.nodup_nil, Nat.zero_le _⟩

namespace Within

/-- Reservations can be given up, be it by release or by expiry. -/
theorem filter (h : Within settings pool) (p : Reservation → Bool) :
    Within settings { pool with reservations := pool.reservations.filter p } where
  settings_eq := h.settings_eq
  distinct := h.distinct.sublist (List.filter_sublist.map _)
  count_le := Nat.le_trans (List.length_filter_le _ _) h.count_le

/-- A write leaves all reservations in their places. -/
theorem update (h : Within settings pool) (id : HarqId) (buffer : HarqBuffer) :
    Within settings (pool.update id buffer) where
  settings_eq := h.settings_eq
  distinct := by
    have hids : (pool.update id buffer).reservations.map (·.id) = pool.reservations.map (·.id) := by
      rw [HarqPool.update, List.map_map]
      refine List.map_congr_left fun r _ => ?_
      dsimp only [Function.comp_apply]
      split <;> rfl
    rw [hids]
    exact h.distinct
  count_le := by
    rw [count, HarqPool.update, List.length_map]
    exact h.count_le

/-- There is room for a reservation that takes the place of an earlier one, and
for another one as long as the capacity is not used up. -/
theorem put (h : Within settings pool) {r : Reservation}
    (hroom : (pool.kept r.id).isSome ∨ pool.count < settings.capacity) :
    Within settings (pool.put r) where
  settings_eq := h.settings_eq
  distinct := by
    rw [HarqPool.put, List.map_cons, List.nodup_cons]
    refine ⟨fun hmem => ?_, (h.filter _).distinct⟩
    obtain ⟨r', hr', hid⟩ := List.mem_map.mp hmem
    have hnone : r' ∉ (pool.release r.id).own r.id := own_release_self pool r.id ▸ List.not_mem_nil
    exact hnone (List.mem_filter.mpr ⟨hr', by simpa using hid⟩)
  count_le := by
    have hrest : (pool.release r.id).count ≤ pool.count := List.length_filter_le _ _
    show (pool.release r.id).count + 1 ≤ settings.capacity
    rcases hroom with hsome | hlt
    · -- the earlier one is given up first
      have hless : (pool.release r.id).count < pool.count := by
        refine List.length_filter_lt_length_iff_exists.mpr ?_
        by_contra hnone
        rw [kept_eq_none_iff.mpr fun r' hr' hid => hnone ⟨r', hr', by simpa using hid⟩] at hsome
        cases hsome
      exact Nat.le_trans hless h.count_le
    · omega

end Within

/-- No operation breaks the bound. Only a request that is granted adds a
reservation, and it is granted only with room. -/
theorem Within.step (h : Within settings pool) (o : Operation) : Within settings (pool.step o) := by
  cases o with
  | slot now => exact h.filter _
  | event e =>
    cases e with
    | update id buffer => exact h.update id buffer
    | release id => exact h.filter _
    | reserve slot id n newData =>
      rw [HarqPool.step, after]
      by_cases hroom : pool.kept id = none → pool.count < pool.settings.capacity
      · rw [request_of_room hroom]
        refine h.put ?_
        by_cases hnone : pool.kept id = none
        · exact .inr (h.settings_eq ▸ hroom hnone)
        · exact .inl (Option.isSome_iff_ne_none.mpr hnone)
      · push Not at hroom
        rw [request_of_full hroom.1 hroom.2]
        exact h

theorem within_run (h : Within settings pool) (operations : List Operation) :
    Within settings (pool.run operations) := by
  induction operations generalizing pool with
  | nil => exact h
  | cons o operations ih => exact ih (h.step o)

/-! ## Other processes -/

/-- A slot that ends an entry. -/
def Operation.ends (k : Kept) : Operation → Bool
  | .event _ => false
  | .slot now => reached now.count k.ends

/-- The reservations of a process: one, or none. What is proved of all of them
so holds of the one that a search finds. -/
theorem Within.own_eq (h : Within settings pool) (id : HarqId) :
    pool.own id = (pool.find? id).toList := by
  have hdistinct := (h.filter (·.id = id)).distinct
  have hid : ∀ r ∈ pool.own id, r.id = id := fun r hr => by simpa using (List.mem_filter.mp hr).2
  change ((pool.own id).map (·.id)).Nodup at hdistinct
  rw [find?_eq_head?]
  rcases hown : pool.own id with _ | ⟨r, _ | ⟨r', rest⟩⟩
  · rw [List.head?_nil, Option.toList_none]
  · rw [List.head?_cons, Option.toList_some]
  · rw [hown] at hdistinct hid
    have hsame : r.id = r'.id := (hid r (by simp)).trans (hid r' (by simp)).symm
    simp [hsame] at hdistinct

/-- A slot takes out an entry that has ended, and no other one, whatever process
it belongs to. -/
theorem kept_expire (h : Within settings pool) (now : SlotPoint) (id : HarqId) :
    (pool.expire now).kept id = (pool.kept id).filter fun k => !reached now.count k.ends := by
  rw [kept_eq, kept_eq, own_expire, h.own_eq]
  cases pool.find? id with
  | none => rfl
  | some r => cases hreached : reached now.count r.ends <;> simp [hreached, Option.filter]

/-- An operation that leaves a process alone shows in its entry only if it is a
slot that ends it. -/
theorem kept_step (h : Within settings pool) {o : Operation} (hleaves : o.Leaves id) :
    (pool.step o).kept id = (pool.kept id).filter fun k => !o.ends k := by
  cases o with
  | slot now => exact kept_expire h now id
  | event e =>
    have hsame : (pool.after e).own id = pool.own id := by
      cases e with
      | update other buffer => exact own_update_of_ne pool hleaves buffer
      | release other => exact own_release_of_ne pool hleaves
      | reserve slot other n newData => exact own_request_of_ne hleaves
    rw [step, kept_eq, hsame, ← kept_eq]
    cases pool.kept id <;> rfl

/-- Operations that leave a process alone show in its entry only if a slot among
them ends it, by induction on the operations. -/
theorem kept_run_of_leaves (h : Within settings pool) {operations : List Operation}
    (hleaves : ∀ o ∈ operations, o.Leaves id) :
    (pool.run operations).kept id = (pool.kept id).filter fun k => !operations.any (·.ends k) := by
  induction operations generalizing pool with
  | nil => cases hkept : pool.kept id <;> simp [run, hkept, Option.filter]
  | cons o operations ih =>
    obtain ⟨hfirst, hrest⟩ := List.forall_mem_cons.mp hleaves
    rw [run, List.foldl_cons, ← run, ih (h.step o) hrest, kept_step h hfirst, Option.filter_filter]
    congr 1
    funext k
    rw [List.any_cons, Bool.not_or, Bool.and_comm]

/-! ## The map -/

/-- What the users of a pool see: a map from processes to what is kept of them,
with no more entries than the pool's capacity. -/
structure IsMap (settings : HarqPoolSettings) (pool : HarqPool) : Prop where
  count_eq : pool.count = {id | (pool.kept id).isSome}.ncard
  count_le : pool.count ≤ settings.capacity
  /-- A reservation is refused to a new process only, and only if the capacity is used up. -/
  refused_iff : ∀ slot id n newData, (∃ e, pool.reserve slot id n newData = .error e) ↔
    pool.kept id = none ∧ pool.count = settings.capacity
  /-- A refused reservation changes nothing. -/
  refused : ∀ slot id n newData e, pool.reserve slot id n newData = .error e →
    e.id = id ∧ pool.after (.reserve slot id n newData) = pool
  /-- The buffer that is handed out is what the process keeps from now on. -/
  reserved : ∀ slot id n newData buffer later,
    pool.reserve slot id n newData = .ok (buffer, later) →
    later = pool.after (.reserve slot id n newData) ∧
      later.kept id = some ⟨buffer, slot.count + settings.lifetime⟩
  /-- It holds nothing if the data are new, or no buffer of so many codeblocks was kept. -/
  cleared : ∀ slot id n newData buffer later,
    pool.reserve slot id n newData = .ok (buffer, later) →
    (newData = true ∨ ∀ k ∈ pool.kept id, k.buffer.count ≠ n) →
    buffer.count = n ∧ ∀ b ∈ buffer.blocks, b.soft = #[] ∧ b.message = #[] ∧ b.passed = false
  /-- Otherwise it is the kept one. -/
  continued : ∀ slot id n buffer later, pool.reserve slot id n false = .ok (buffer, later) →
    ∀ k ∈ pool.kept id, k.buffer.count = n → buffer = k.buffer
  /-- What is written through a buffer is kept, until the same end. -/
  written : ∀ id buffer, (pool.after (.update id buffer)).kept id =
    (pool.kept id).map fun k => { k with buffer }
  released : ∀ id, (pool.after (.release id)).kept id = none
  /-- Nothing but a slot that ends it touches the entry of another process. -/
  left : ∀ id operations, (∀ o ∈ operations, o.Leaves id) →
    (pool.run operations).kept id = (pool.kept id).filter fun k => !operations.any (·.ends k)

theorem Within.count_eq (h : Within settings pool) :
    pool.count = {id | (pool.kept id).isSome}.ncard := by
  have hids : {id | (pool.kept id).isSome} =
      ((pool.reservations.map (·.id)).toFinset : Set HarqId) := by
    ext id
    simp [kept, find?, List.find?_isSome]
  rw [hids, Set.ncard_coe_finset, List.toFinset_card_of_nodup h.distinct, List.length_map, count]

/-- A request is refused to a new process if the capacity is used up, and
changes nothing. -/
theorem Within.request_refused (h : Within settings pool)
    (hfull : pool.kept id = none ∧ pool.count = settings.capacity) :
    pool.request slot id n newData = (.error ⟨id⟩, pool) :=
  request_of_full hfull.1 (by rw [h.settings_eq, hfull.2])

/-- What is handed out otherwise: the process's own buffer, or a new one. -/
theorem Within.request_granted (h : Within settings pool)
    (hroom : ¬ (pool.kept id = none ∧ pool.count = settings.capacity)) :
    pool.request slot id n newData =
      (.ok (bufferFor ((pool.kept id).map (·.buffer)) n newData),
        pool.put ⟨id, bufferFor ((pool.kept id).map (·.buffer)) n newData,
          slot.count + settings.lifetime⟩) := by
  rw [← h.settings_eq]
  refine request_of_room fun hnone => ?_
  have hne : pool.count ≠ settings.capacity := fun heq => hroom ⟨hnone, heq⟩
  rw [h.settings_eq]
  exact Nat.lt_of_le_of_ne h.count_le hne

/-- When a reservation is refused: exactly to a new process of a full pool. -/
theorem Within.reserve_eq_error {e : PoolExhausted} (h : Within settings pool) :
    pool.reserve slot id n newData = .error e ↔
      e = ⟨id⟩ ∧ pool.kept id = none ∧ pool.count = settings.capacity := by
  by_cases hfull : pool.kept id = none ∧ pool.count = settings.capacity
  · rw [reserve, h.request_refused hfull]
    exact ⟨fun herror => ⟨(Except.error.inj herror).symm, hfull⟩, fun he => congrArg _ he.1.symm⟩
  · rw [reserve, h.request_granted hfull]
    exact iff_of_false (fun herror => by cases herror) fun he => hfull he.2

/-- What a successful reservation hands out, and the pool it leaves. -/
theorem Within.reserve_eq_ok (h : Within settings pool)
    (hok : pool.reserve slot id n newData = .ok (buffer, later)) :
    buffer = bufferFor ((pool.kept id).map (·.buffer)) n newData ∧
      later = pool.put ⟨id, buffer, slot.count + settings.lifetime⟩ ∧
      later = (pool.request slot id n newData).2 := by
  have hroom : ¬ (pool.kept id = none ∧ pool.count = settings.capacity) := by
    intro hfull
    rw [reserve, h.request_refused hfull] at hok
    cases hok
  rw [reserve, h.request_granted hroom] at hok
  rw [h.request_granted hroom]
  cases hok
  exact ⟨rfl, rfl, rfl⟩

/-- New data, or another number of codeblocks, get a new buffer. -/
theorem bufferFor_of_new {entry : Option HarqBuffer}
    (h : newData = true ∨ ∀ b ∈ entry, b.count ≠ n) :
    bufferFor entry n newData = HarqBuffer.ofCount n := by
  cases entry with
  | none => rfl
  | some b =>
    rw [bufferFor, if_pos]
    simpa using h

theorem bufferFor_of_kept (hcount : buffer.count = n) :
    bufferFor (some buffer) n false = buffer := by
  simp [bufferFor, hcount]

/-- A pool is such a map after any operations. All fields follow from the bound,
which every operation keeps. -/
theorem isMap_run (settings : HarqPoolSettings) (operations : List Operation) :
    IsMap settings ((empty settings).run operations) := by
  have h := within_run (within_empty settings) operations
  generalize (empty settings).run operations = pool at h
  refine
    { count_eq := h.count_eq
      count_le := h.count_le
      refused_iff := fun slot id n newData =>
        ⟨fun ⟨_, herror⟩ => (h.reserve_eq_error.mp herror).2,
          fun hfull => ⟨⟨id⟩, h.reserve_eq_error.mpr ⟨rfl, hfull⟩⟩⟩
      refused := fun slot id n newData e herror => ?_
      reserved := fun slot id n newData buffer later hok => ?_
      cleared := fun slot id n newData buffer later hok hnew => ?_
      continued := fun slot id n buffer later hok k hk hcount => ?_
      written := fun id buffer => ?_
      released := fun id => ?_
      left := fun id operations hleaves => kept_run_of_leaves h hleaves }
  · obtain ⟨rfl, hfull⟩ := h.reserve_eq_error.mp herror
    rw [after, h.request_refused hfull]
    exact ⟨rfl, rfl⟩
  · obtain ⟨-, hlater, hafter⟩ := h.reserve_eq_ok hok
    exact ⟨hafter, hlater ▸ kept_put_self _⟩
  · rw [(h.reserve_eq_ok hok).1, bufferFor_of_new (by simpa using hnew)]
    refine ⟨HarqBuffer.count_ofCount n, fun b hb => ?_⟩
    rw [(Array.mem_replicate.mp hb).2]
    exact ⟨rfl, rfl, rfl⟩
  · rw [(h.reserve_eq_ok hok).1, hk]
    exact bufferFor_of_kept hcount
  · rw [after, kept_eq, kept_eq, own_update, List.head?_map, Option.map_map, Option.map_map]
    congr 1
    funext r
    simp
  · rw [after, kept_eq, own_release_self]
    rfl

end HarqPool

end Uplink
