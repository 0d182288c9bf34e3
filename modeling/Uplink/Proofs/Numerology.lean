import Uplink.Proofs.Checked
import Uplink.Numerology

/-!
# Successive slots

Slot counts go up by one with each slot and start again after 1024 frames.

- `SlotPoint.period`: number of slots of all frames of a spacing.
- `SlotPoint.count_toNat`: the count of a slot as a number; no sum of its definition wraps.
- `SlotPoint.exists_next`: each slot is followed by one, and the counts follow each other around the
  period.
-/

namespace Uplink

namespace SubcarrierSpacing

/-- There are at most eight slots in each of the ten subframes of a frame. -/
theorem slotsPerFrame_le (scs : SubcarrierSpacing) : scs.slotsPerFrame ≤ 80 := by
  cases scs <;> decide

end SubcarrierSpacing

namespace SlotPoint

/-- Slot counts start again here. -/
def period (scs : SubcarrierSpacing) : Nat := framePeriod * scs.slotsPerFrame

theorem period_pos (scs : SubcarrierSpacing) : 0 < period scs :=
  Nat.mul_pos (by decide) scs.slotsPerFrame_pos

theorem period_le (scs : SubcarrierSpacing) : period scs ≤ 1024 * 80 :=
  Nat.mul_le_mul_left _ scs.slotsPerFrame_le

instance (s : SlotPoint) : Decidable s.Valid :=
  inferInstanceAs (Decidable (s.frame.toNat < framePeriod ∧ s.slot.toNat < s.scs.slotsPerFrame))

variable {s : SlotPoint}

/-- The count of a slot is found without overflow in 32 bits. -/
theorem count_toNat (h : s.Valid) :
    s.count.toNat = s.frame.toNat * s.scs.slotsPerFrame + s.slot.toNat := by
  obtain ⟨hframe, hslot⟩ := h
  have hper := s.scs.slotsPerFrame_le
  have hmul : s.frame.toNat * s.scs.slotsPerFrame ≤ 1024 * 80 :=
    Nat.mul_le_mul (Nat.le_of_lt hframe) hper
  have hcast : s.scs.slotsPerFrame.toUInt32.toNat = s.scs.slotsPerFrame := by
    rw [Nat.toUInt32_eq, UInt32.toNat_ofNat']
    omega
  rw [count, UInt32.toNat_add, UInt32.toNat_mul, hcast, UInt16.toNat_toUInt32,
    UInt16.toNat_toUInt32]
  omega

/-- The slots of one period have counts below it, each its own. -/
theorem count_lt (h : s.Valid) : s.count.toNat < period s.scs := by
  calc s.count.toNat = s.frame.toNat * s.scs.slotsPerFrame + s.slot.toNat := count_toNat h
    _ < s.frame.toNat * s.scs.slotsPerFrame + s.scs.slotsPerFrame := Nat.add_lt_add_left h.2 _
    _ = (s.frame.toNat + 1) * s.scs.slotsPerFrame := (Nat.succ_mul _ _).symm
    _ ≤ period s.scs := Nat.mul_le_mul_right _ h.1

theorem increment_of_lt {n : UInt16} (h : n.toNat + 1 < 65536) :
    ∃ m, increment n = .ok m ∧ m.toNat = n.toNat + 1 := by
  refine ⟨n + 1, if_pos h, ?_⟩
  rw [UInt16.toNat_add]
  exact Nat.mod_eq_of_lt h

/-- A slot is followed by a slot, whose count is the next one around the period.
Counters of 16 bits are wide enough for both parts. -/
theorem exists_next (h : s.Valid) :
    ∃ t, s.next = .ok t ∧ t.Valid ∧ t.scs = s.scs ∧
      t.count.toNat = (s.count.toNat + 1) % period s.scs := by
  have hper := s.scs.slotsPerFrame_le
  have hcount := count_toNat h
  have hlt := count_lt h
  obtain ⟨hframe, hslot⟩ := h
  simp only [framePeriod] at hframe
  obtain ⟨slot, hslot_eq, hslot_val⟩ := increment_of_lt (n := s.slot) (by omega)
  obtain ⟨frame, hframe_eq, hframe_val⟩ := increment_of_lt (n := s.frame) (by omega)
  by_cases hend : s.scs.slotsPerFrame ≤ slot.toNat
  · -- the last slot of a frame
    have hfirst : (0 : UInt16).toNat = 0 := rfl
    have hmod : (frame % 1024).toNat = (s.frame.toNat + 1) % 1024 := by
      rw [UInt16.toNat_mod, hframe_val]
      rfl
    have hvalid : SlotPoint.Valid { s with frame := frame % 1024, slot := 0 } :=
      ⟨by simpa [framePeriod, hmod] using Nat.mod_lt _ (by decide), s.scs.slotsPerFrame_pos⟩
    refine ⟨_, by simp [next, hslot_eq, hframe_eq, hend], hvalid, rfl, ?_⟩
    have hlast : s.count.toNat + 1 = (s.frame.toNat + 1) * s.scs.slotsPerFrame := by
      rw [Nat.succ_mul]
      omega
    rw [count_toNat hvalid, hlast, period, framePeriod, Nat.mul_mod_mul_right, hfirst, hmod,
      Nat.add_zero]
  · -- within a frame only the slot changes
    have hvalid : SlotPoint.Valid { s with slot } := ⟨hframe, Nat.lt_of_not_le hend⟩
    refine ⟨_, by simp [next, hslot_eq, hend], hvalid, rfl, ?_⟩
    have hnext : SlotPoint.count { s with slot } = s.count + 1 := by
      apply UInt32.toNat_inj.mp
      rw [count_toNat hvalid, UInt32.toNat_add, hcount, hslot_val]
      have := period_le s.scs
      simp only [UInt32.reduceToNat]
      omega
    have hin := count_lt hvalid
    rw [Nat.mod_eq_of_lt]
    · rw [count_toNat hvalid, hcount, hslot_val, Nat.add_assoc]
    · rw [count_toNat hvalid, hslot_val] at hin
      simp only at hin
      omega

end SlotPoint

end Uplink
