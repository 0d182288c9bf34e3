import Uplink.Harq.Pool
import Uplink.Proofs.Numerology

/-!
# Expiry of reservations

A reservation that nothing touches meets the slots after its own one by one. The count at which it
ends is a sum that does not start again with the frames, while the slot counts do: a lifetime that
crosses the last frame has an end that no slot count reaches.

- `HarqPool.reached_iff`: counts are reached in their order.
- `HarqPool.Event.Spares`, `HarqPool.Left`: operations that leave a reservation alone, and runs of
  them with the successive slots in between.
- `HarqPool.own`: the reservations of a process, with one equation for each operation on the pool.
- `HarqPool.Left.ends_own`: what a run leaves of a reservation.
- `HarqPool.reserved_iff`: a reservation lasts its lifetime, or for ever if the lifetime crosses the
  last frame.
-/

namespace Uplink

namespace HarqPool

/-! ## Counts -/

/-- Counts far below the wrap of their type are reached in their order, although
the comparison is a difference that may wrap. -/
theorem reached_iff {now target : UInt32} (hnow : now.toNat < 0x80000000)
    (htarget : target.toNat < 0x80000000) : reached now target = true ↔ target.toNat ≤ now.toNat := by
  have hval : (now - target).toInt32.toInt = (now.toNat : Int) - target.toNat := by
    rw [← Int32.toInt_toBitVec, UInt32.toBitVec_toInt32, UInt32.toBitVec_sub, BitVec.toInt_sub,
      BitVec.toInt_eq_toNat_of_lt (by rw [UInt32.toNat_toBitVec]; omega),
      BitVec.toInt_eq_toNat_of_lt (by rw [UInt32.toNat_toBitVec]; omega), UInt32.toNat_toBitVec,
      UInt32.toNat_toBitVec, Int.bmod_eq_of_le (by omega) (by omega)]
  rw [reached, decide_eq_true_iff, ge_iff_le, Int32.le_iff_toInt_le, hval, Int32.toInt_zero]
  omega

/-! ## Operations on other processes -/

/-- What may happen to a pool between two slots. -/
inductive Event where
  | reserve (slot : SlotPoint) (id : HarqId) (blocks : Nat) (newData : Bool)
  | update (id : HarqId) (buffer : HarqBuffer)
  | release (id : HarqId)

/-- The pool after an event, whether a request is granted or not. -/
def after (pool : HarqPool) : Event → HarqPool
  | .reserve slot id blocks newData => (pool.request slot id blocks newData).2
  | .update id buffer => pool.update id buffer
  | .release id => pool.release id

/-- The event neither renews the reservation of a process nor gives it up. -/
def Event.Spares (id : HarqId) : Event → Prop
  | .reserve _ other _ _ => other ≠ id
  | .update _ _ => True
  | .release other => other ≠ id

/-- All runs that leave a process alone: its pool meets the slots after `slot`,
`k` of them so far, and events that spare the process happen at any time in
between. -/
inductive Left (id : HarqId) (pool : HarqPool) (slot : SlotPoint) :
    Nat → HarqPool → SlotPoint → Prop
  | start : Left id pool slot 0 pool slot
  | event {k : Nat} {later : HarqPool} {now : SlotPoint} (h : Left id pool slot k later now)
      (e : Event) (hspares : e.Spares id) : Left id pool slot k (later.after e) now
  | slot {k : Nat} {later : HarqPool} {now next : SlotPoint} (h : Left id pool slot k later now)
      (hnext : now.next = .ok next) : Left id pool slot (k + 1) (later.expire next) next

/-! ## Reservations of one process -/

variable {pool later : HarqPool} {id other : HarqId} {slot now : SlotPoint} {k : Nat}

/-- The reservations of a process. -/
def own (pool : HarqPool) (id : HarqId) : List Reservation := pool.reservations.filter (·.id = id)

theorem find?_eq_head? : pool.find? id = (pool.own id).head? := List.head?_filter.symm

theorem own_expire : (pool.expire slot).own id =
    (pool.own id).filter fun r => !reached slot.count r.ends :=
  List.filter_comm _ _ _

@[simp] theorem own_release_self (pool : HarqPool) (id : HarqId) : (pool.release id).own id = [] := by
  simp [own, release, List.filter_filter]

theorem own_release_of_ne (pool : HarqPool) (h : other ≠ id) :
    (pool.release other).own id = pool.own id := by
  rw [own, own, release, List.filter_filter]
  congr 1
  funext r
  by_cases hid : r.id = id
  · simp [hid, h.symm]
  · simp [hid]

@[simp] theorem own_put_self (pool : HarqPool) (r : Reservation) : (pool.put r).own r.id = [r] := by
  have hrest := own_release_self pool r.id
  rw [own] at hrest
  rw [own, put, List.filter_cons_of_pos (by simp), hrest]

theorem own_put_of_ne (pool : HarqPool) {r : Reservation} (h : r.id ≠ id) :
    (pool.put r).own id = pool.own id := by
  rw [own, put, List.filter_cons_of_neg (by simpa using h)]
  exact own_release_of_ne pool h

/-- A write shows in every reservation of its process, and in no other one. -/
theorem own_update (pool : HarqPool) (other : HarqId) (buffer : HarqBuffer) (id : HarqId) :
    (pool.update other buffer).own id =
      (pool.own id).map fun r => if other = id then { r with buffer } else r := by
  have hid : (fun r : Reservation => decide (r.id = id)) ∘
      (fun r => if r.id = other then { r with buffer } else r) = fun r => decide (r.id = id) := by
    funext r
    dsimp only [Function.comp_apply]
    split <;> rfl
  rw [own, own, update, List.filter_map, hid]
  refine List.map_congr_left fun r hr => ?_
  obtain rfl : r.id = id := by simpa using (List.mem_filter.mp hr).2
  simp only [eq_comm]

theorem own_update_of_ne (pool : HarqPool) (h : other ≠ id) (buffer : HarqBuffer) :
    (pool.update other buffer).own id = pool.own id := by
  rw [own_update]
  simp [h]

/-- A request is refused, and leaves the pool as it is, or the buffer that is
handed out is put into the place of the earlier one. -/
theorem request_eq (pool : HarqPool) (slot : SlotPoint) (id : HarqId) (n : Nat) (newData : Bool) :
    pool.request slot id n newData = (.error ⟨id⟩, pool) ∨
      ∃ buffer, pool.request slot id n newData =
        (.ok buffer, pool.put ⟨id, buffer, slot.count + pool.settings.lifetime⟩) := by
  rw [request]
  split
  case isTrue => exact .inl rfl
  case isFalse => exact .inr ⟨_, rfl⟩

/-- A reservation that succeeds stands in the pool with its end. -/
theorem reserve_eq_ok {blocks : Nat} {newData : Bool} {buffer : HarqBuffer}
    (h : pool.reserve slot id blocks newData = .ok (buffer, later)) :
    later = pool.put ⟨id, buffer, slot.count + pool.settings.lifetime⟩ := by
  rcases pool.request_eq slot id blocks newData with hrefused | ⟨granted, hgranted⟩
  · rw [reserve, hrefused] at h
    cases h
  · rw [reserve, hgranted] at h
    cases h
    rfl

/-- A request for another process does not touch the reservations of this one,
granted or not. -/
theorem own_request_of_ne {n : Nat} {newData : Bool} (h : other ≠ id) :
    (pool.request slot other n newData).2.own id = pool.own id := by
  rcases pool.request_eq slot other n newData with hrefused | ⟨granted, hgranted⟩
  · rw [hrefused]
  · rw [hgranted]
    exact own_put_of_ne pool h

/-- What happens to other processes does not move the end of a reservation, and
neither does a write. -/
theorem ends_own_after {e : Event} (h : e.Spares id) :
    ((pool.after e).own id).map (·.ends) = (pool.own id).map (·.ends) := by
  cases e with
  | reserve at_ other blocks newData => rw [after, own_request_of_ne h]
  | release other => rw [after, own_release_of_ne pool h]
  | update other buffer =>
    rw [after, own_update, List.map_map]
    refine List.map_congr_left fun r _ => ?_
    dsimp only [Function.comp_apply]
    split <;> rfl

/-! ## Runs -/

namespace Left

/-- A run moves the slot on, once around the period after the other. Events do
not move it. -/
theorem count_now (h : Left id pool slot k later now) (hvalid : slot.Valid) :
    now.Valid ∧ now.scs = slot.scs ∧
      now.count.toNat = (slot.count.toNat + k) % SlotPoint.period slot.scs := by
  induction h with
  | start => exact ⟨hvalid, rfl, (Nat.mod_eq_of_lt (SlotPoint.count_lt hvalid)).symm⟩
  | event _ _ _ ih => exact ih
  | slot _ hnext ih =>
    obtain ⟨hnow, hscs, hcount⟩ := ih
    obtain ⟨next, hnext', hvalid', hscs', hcount'⟩ := SlotPoint.exists_next hnow
    obtain rfl := Except.ok.inj (hnext.symm.trans hnext')
    refine ⟨hvalid', hscs'.trans hscs, ?_⟩
    rw [hcount', hcount, hscs, Nat.mod_add_mod, Nat.add_assoc]

/-- A run can always go on: every slot has a next one. -/
theorem exists_of_valid (pool : HarqPool) (id : HarqId) (hvalid : slot.Valid) (k : Nat) :
    ∃ later now, Left id pool slot k later now := by
  induction k with
  | zero => exact ⟨pool, slot, .start⟩
  | succ k ih =>
    obtain ⟨later, now, h⟩ := ih
    obtain ⟨next, hnext, -⟩ := SlotPoint.exists_next (h.count_now hvalid).1
    exact ⟨later.expire next, next, h.slot hnext⟩

/-- What a run leaves of a reservation that ends `t` slots after its first one.
All there is to follow is the end that is stored. -/
theorem ends_own (h : Left id pool slot k later now) (hvalid : slot.Valid) {ends : UInt32}
    {t : Nat} (hpool : (pool.own id).map (·.ends) = [ends])
    (hends : ends.toNat = slot.count.toNat + t) (hlimit : ends.toNat < 0x80000000) (hpos : 0 < t) :
    (later.own id).map (·.ends) =
      if k < t ∨ SlotPoint.period slot.scs ≤ slot.count.toNat + t then [ends] else [] := by
  have hin := SlotPoint.count_lt hvalid
  have hperiod := SlotPoint.period_le slot.scs
  induction h with
  | start => rw [if_pos (.inl hpos), hpool]
  | event _ e hspares ih => rw [ends_own_after hspares, ih]
  | @slot k later now next h hnext ih =>
    obtain ⟨hnow, -, hcount⟩ := (h.slot hnext).count_now hvalid
    have hlt := Nat.mod_lt (slot.count.toNat + (k + 1)) (SlotPoint.period_pos slot.scs)
    have hin' : next.count.toNat < 0x80000000 := by omega
    have hreached := reached_iff hin' hlimit
    have hexpire : ((later.expire next).own id).map (·.ends) =
        ((later.own id).map (·.ends)).filter fun ends => !reached next.count ends := by
      rw [own_expire, List.filter_map]
      rfl
    rw [hexpire, ih]
    by_cases hwrap : SlotPoint.period slot.scs ≤ slot.count.toNat + t
    · -- the end lies beyond all counts
      have hnot : reached next.count ends = false := by
        rw [Bool.eq_false_iff, Ne, hreached]
        omega
      simp [hwrap, hnot]
    · by_cases hk : k < t
      · -- no count up to the end has started again
        rw [Nat.mod_eq_of_lt (by omega)] at hcount
        have hnot : reached next.count ends = decide (t ≤ k + 1) := by
          rw [Bool.eq_iff_iff, hreached, decide_eq_true_iff]
          omega
        by_cases hlast : k + 1 < t <;> simp [hwrap, hk, hnot, hlast]
      · simp [hwrap, hk, show ¬ k + 1 < t by omega]

end Left

/-- A reservation that is neither renewed nor given up is there for the slots
before its lifetime is over, and not from then on. Where the lifetime crosses
the last frame, it is never given up. -/
theorem reserved_iff {pool reserved : HarqPool} {slot : SlotPoint} {id : HarqId} {blocks : Nat}
    {newData : Bool} {buffer : HarqBuffer} (hvalid : slot.Valid)
    (hpos : 0 < pool.settings.lifetime.toNat)
    (hhalf : 2 * pool.settings.lifetime.toNat < SlotPoint.period slot.scs)
    (hreserve : pool.reserve slot id blocks newData = .ok (buffer, reserved)) (k : Nat) :
    (∃ later now, Left id reserved slot k later now) ∧
      ∀ later now, Left id reserved slot k later now →
        ((later.find? id).isSome = true ↔
          k < pool.settings.lifetime.toNat ∨
            SlotPoint.period slot.scs ≤ slot.count.toNat + pool.settings.lifetime.toNat) := by
  refine ⟨Left.exists_of_valid _ _ hvalid k, fun later now hrun => ?_⟩
  have hin := SlotPoint.count_lt hvalid
  have hperiod := SlotPoint.period_le slot.scs
  have hends : (slot.count + pool.settings.lifetime).toNat =
      slot.count.toNat + pool.settings.lifetime.toNat := by
    rw [UInt32.toNat_add]
    omega
  have hone : (reserved.own id).map (·.ends) = [slot.count + pool.settings.lifetime] := by
    rw [reserve_eq_ok hreserve, own_put_self]
    rfl
  have hlater := hrun.ends_own hvalid hone hends (by omega) hpos
  rw [find?_eq_head?, List.isSome_head?, ne_eq, ← List.map_eq_nil_iff, hlater]
  split <;> simp_all

/-- A lifetime of two slots: two slots after frame 0 the reservation is gone,
but after the last slot of the last frame it is still there. -/
theorem reserved_iff_last_frame :
    let id : HarqId := ⟨1, 0⟩
    let reservedAt (slot : SlotPoint) : HarqPool :=
      (HarqPool.empty ⟨1, 2⟩).put ⟨id, HarqBuffer.ofCount 1, slot.count + 2⟩
    let first : SlotPoint := ⟨.khz15, 0, 0⟩
    let last : SlotPoint := ⟨.khz15, 1023, 9⟩
    (∃ later now, Left id (reservedAt first) first 2 later now ∧ (later.find? id).isSome = false) ∧
      ∃ later now, Left id (reservedAt last) last 2 later now ∧ (later.find? id).isSome = true := by
  intro id reservedAt first last
  have hreserve (slot : SlotPoint) : (HarqPool.empty ⟨1, 2⟩).reserve slot id 1 true =
      .ok (HarqBuffer.ofCount 1, reservedAt slot) := rfl
  have hfirst := reserved_iff (by decide) (by decide) (by decide) (hreserve first) 2
  have hlast := reserved_iff (by decide) (by decide) (by decide) (hreserve last) 2
  obtain ⟨⟨later, now, hrun⟩, hiff⟩ := hfirst
  obtain ⟨⟨later', now', hrun'⟩, hiff'⟩ := hlast
  refine ⟨⟨later, now, hrun, ?_⟩, later', now', hrun', ?_⟩
  · rw [Bool.eq_false_iff, Ne, hiff later now hrun]
    decide
  · rw [hiff' later' now' hrun']
    decide

end HarqPool

end Uplink
