import Uplink.Proofs.Harq.Reservations

/-!
# Pools of one process

- `HarqPool.single`: the usual pool with at most one reservation, and what each operation makes of
  it.
- `HarqPool.count_bufferFor`: a reservation hands out a buffer of as many codeblocks as it is for.
- `HarqPool.not_reached_next`: a reservation is still there in the following slot.
- `HarqPool.OnlyFor`: a pool that serves one process; each operation keeps it so.
-/

namespace Uplink

namespace HarqPool

/-- The usual pool with at most one reservation. -/
def single (entry : Option Reservation) : HarqPool := ⟨HarqPoolSettings.standard, entry.toList⟩

variable {entry : Option Reservation} {id : HarqId} {slot : SlotPoint} {n : Nat} {newData : Bool}

@[simp] theorem count_single : (single entry).count = if entry.isSome then 1 else 0 := by
  cases entry <;> rfl

theorem expire_single : (single entry).expire slot =
    single (entry.filter fun r => !reached slot.count r.ends) := by
  cases entry with
  | none => rfl
  | some r =>
    cases hreached : reached slot.count r.ends <;>
      simp [single, expire, hreached, Option.filter]

/-- The process of the reservation gets a buffer, whether it has one or not. -/
theorem reserve_single (hid : ∀ r ∈ entry, r.id = id) :
    (single entry).reserve slot id n newData =
      .ok (bufferFor (entry.map (·.buffer)) n newData,
        single (some ⟨id, bufferFor (entry.map (·.buffer)) n newData, slot.count + 100⟩)) := by
  cases entry with
  | none => rfl
  | some r =>
    have hr : r.id = id := hid r rfl
    simp [reserve, request, single, find?, put, release, hr, HarqPoolSettings.standard, Except.map]

/-- A write changes the buffer and leaves the end. -/
theorem update_single (buffer buffer' : HarqBuffer) (ends : UInt32) :
    (single (some ⟨id, buffer, ends⟩)).update id buffer' = single (some ⟨id, buffer', ends⟩) := by
  simp [single, update]

theorem release_single (buffer : HarqBuffer) (ends : UInt32) :
    (single (some ⟨id, buffer, ends⟩)).release id = single none := by
  simp [single, release]

/-- A buffer that is handed out has the number of codeblocks that was asked for.
-/
theorem count_bufferFor (kept : Option HarqBuffer) : (bufferFor kept n newData).count = n := by
  cases kept with
  | none => exact HarqBuffer.count_ofCount n
  | some buffer =>
    rw [bufferFor]
    split
    case isTrue => exact HarqBuffer.count_ofCount n
    case isFalse hkept =>
      rw [Bool.or_eq_true, not_or, bne_iff_ne, ne_eq, not_not] at hkept
      exact hkept.2

/-- A reservation of the usual lifetime is still there in the following slot,
also when the slots start again from the first frame. -/
theorem not_reached_next {next : SlotPoint} (hvalid : slot.Valid) (hnext : slot.next = .ok next) :
    reached next.count (slot.count + 100) = false := by
  obtain ⟨t, ht, -, -, hcount⟩ := SlotPoint.exists_next hvalid
  obtain rfl := Except.ok.inj (hnext.symm.trans ht)
  have hlt := SlotPoint.count_lt hvalid
  have hperiod := SlotPoint.period_le slot.scs
  have hle : next.count.toNat ≤ slot.count.toNat + 1 := hcount ▸ Nat.mod_le _ _
  have hends : (slot.count + 100).toNat = slot.count.toNat + 100 := by
    rw [UInt32.toNat_add]
    simp only [UInt32.reduceToNat]
    omega
  rw [Bool.eq_false_iff, Ne, reached_iff (by omega) (by omega)]
  omega

/-! ## Pools that serve one process -/

/-- The usual pool, with a reservation of at most this process. -/
def OnlyFor (pool : HarqPool) (id : HarqId) : Prop :=
  ∃ entry, pool = single entry ∧ ∀ r ∈ entry, r.id = id

namespace OnlyFor

variable {pool : HarqPool}

theorem empty (id : HarqId) : (HarqPool.empty HarqPoolSettings.standard).OnlyFor id :=
  ⟨none, rfl, fun _ h => nomatch h⟩

theorem expire (h : pool.OnlyFor id) (slot : SlotPoint) : (pool.expire slot).OnlyFor id := by
  obtain ⟨entry, rfl, hid⟩ := h
  refine ⟨_, expire_single, fun r hr => ?_⟩
  exact hid r (Option.filter_eq_some_iff.mp hr).1

/-- The process is always granted a buffer: it is the only one. -/
theorem exists_reserve (h : pool.OnlyFor id) (slot : SlotPoint) (n : Nat) (newData : Bool) :
    ∃ buffer pool', pool.reserve slot id n newData = .ok (buffer, pool') ∧ buffer.count = n ∧
      pool'.OnlyFor id := by
  obtain ⟨entry, rfl, hid⟩ := h
  refine ⟨_, _, reserve_single hid, count_bufferFor _, _, rfl, fun r hr => ?_⟩
  obtain rfl := Option.some.inj hr
  rfl

theorem update (h : pool.OnlyFor id) (buffer : HarqBuffer) : (pool.update id buffer).OnlyFor id := by
  obtain ⟨entry, rfl, hid⟩ := h
  cases entry with
  | none => exact ⟨none, rfl, hid⟩
  | some r =>
    obtain rfl : r.id = id := hid r rfl
    refine ⟨_, update_single r.buffer buffer r.ends, fun r' hr' => ?_⟩
    obtain rfl := Option.some.inj hr'
    rfl

theorem release (h : pool.OnlyFor id) : (pool.release id).OnlyFor id := by
  obtain ⟨entry, rfl, hid⟩ := h
  refine ⟨none, ?_, fun _ hr => nomatch hr⟩
  cases entry with
  | none => rfl
  | some r =>
    obtain rfl : r.id = id := hid r rfl
    exact release_single r.buffer r.ends

end OnlyFor

end HarqPool

end Uplink
