import Uplink.Uci.ShortBlock

/-!
# Control fields

The soft bits of one control field are collected in as many pieces as they come and decoded at the
end. A field that received no soft bits is invalid.
-/

namespace Uplink

/-- A decided control field. -/
structure UciField where
  payload : Bits
  status : UciStatus
deriving DecidableEq

/-- A control field being received. -/
structure UciCollector where
  /-- Bits of the message. -/
  length : Nat
  modulation : Modulation
  softBits : Array SoftBit

namespace UciCollector

/-- Begin a field. -/
def start (length : Nat) (modulation : Modulation) : UciCollector := ⟨length, modulation, #[]⟩

/-- Collect further soft bits. -/
def push (c : UciCollector) (softBits : Array SoftBit) : UciCollector :=
  { c with softBits := c.softBits ++ softBits }

/-- Decide the field. -/
def finish (c : UciCollector) : Checked UciField := do
  let _ ← Size.cells 1 [c.length]
  if c.softBits.isEmpty then return ⟨Array.replicate c.length 0, .invalid⟩
  let (payload, status) ← ShortBlock.decode c.length c.modulation c.softBits
  return ⟨payload, status⟩

end UciCollector

end Uplink
