import Uplink.Fault

/-!
# Numerology

Subcarrier spacings, cyclic prefixes and slots.

- `SlotPoint.count`: the absolute slot number; it starts again after 1024 frames.
- `SlotPoint.next`: the following slot.
-/

namespace Uplink

/-- Number of subcarriers of a resource block. -/
def subcarriersPerBlock : Nat := 12

/-- The identity of a device in its cell. -/
abbrev Rnti := UInt16

/-- Spacing of the subcarriers. -/
inductive SubcarrierSpacing where
  | khz15
  | khz30
  | khz60
  | khz120
deriving DecidableEq, Repr

namespace SubcarrierSpacing

/-- The spacing in kHz. -/
def khz : SubcarrierSpacing → Nat
  | khz15 => 15
  | khz30 => 30
  | khz60 => 60
  | khz120 => 120

/-- The numerology index: the spacing is `15 * 2 ^ numerology` kHz. -/
def numerology : SubcarrierSpacing → Nat
  | khz15 => 0
  | khz30 => 1
  | khz60 => 2
  | khz120 => 3

/-- The spacing of so many kHz. -/
def ofKHz? (n : Nat) : Option SubcarrierSpacing :=
  [khz15, khz30, khz60, khz120].find? (·.khz == n)

/-- Slots in a frame of ten milliseconds. -/
def slotsPerFrame (scs : SubcarrierSpacing) : Nat := 10 * Nat.pow 2 scs.numerology

theorem slotsPerFrame_pos (scs : SubcarrierSpacing) : 0 < scs.slotsPerFrame := by
  cases scs <;> decide

end SubcarrierSpacing

/-- Length class of the cyclic prefix. -/
inductive CyclicPrefix where
  | normal
  | extended
deriving DecidableEq, Repr

namespace CyclicPrefix

/-- Symbols in a slot. -/
def symbolsPerSlot : CyclicPrefix → Nat
  | normal => 14
  | extended => 12

end CyclicPrefix

/-- A slot: its frame number and its index in the frame. -/
structure SlotPoint where
  scs : SubcarrierSpacing
  frame : UInt16
  slot : UInt16
deriving DecidableEq, Repr

namespace SlotPoint

/-- Frame numbers start again here. -/
def framePeriod : Nat := 1024

/-- Slots counted from frame zero. -/
def count (s : SlotPoint) : UInt32 :=
  s.frame.toUInt32 * s.scs.slotsPerFrame.toUInt32 + s.slot.toUInt32

/-- The frame number lies in its period and the slot index in its frame. -/
def Valid (s : SlotPoint) : Prop :=
  s.frame.toNat < framePeriod ∧ s.slot.toNat < s.scs.slotsPerFrame

/-- A sum in the range of frame and slot numbers. -/
def increment (n : UInt16) : Checked UInt16 :=
  if n.toNat + 1 < UInt16.size then .ok (n + 1) else .error .arithmetic

/-- The following slot. -/
def next (s : SlotPoint) : Checked SlotPoint := do
  let slot ← increment s.slot
  if s.scs.slotsPerFrame ≤ slot.toNat then
    let frame ← increment s.frame
    return { s with frame := frame % 1024, slot := 0 }
  else
    return { s with slot }

end SlotPoint

end Uplink
