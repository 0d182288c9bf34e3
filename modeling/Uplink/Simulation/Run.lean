import Uplink.Simulation.Device
import Uplink.Simulation.Draws
import Uplink.Simulation.SettingsText

/-!
# Runs

A run takes all devices of the settings through one slot after the other, from the first slot of
frame zero on. The first error ends it. Random numbers are those of `Draws` unless another library is
given.

- `Settings.load`: the settings of a text, if they can be simulated.
- `Devices.create`, `Devices.runSlot`, `Devices.run`: the devices, one slot, and many slots.
-/

namespace Uplink

namespace Simulation

/-- Why a text cannot be simulated. -/
inductive SimulationError where
  /-- The text does not state settings. -/
  | malformed
  | rejected (reason : Rejection)
  | device (e : DeviceError)
deriving DecidableEq, Repr

namespace SimulationError

/-- The text of the error. -/
def message : SimulationError → String
  | malformed => "The settings cannot be read"
  | rejected reason => reason.message
  | device e => e.message

end SimulationError

namespace Settings

/-- The settings of a text, if they can be simulated. -/
def load (text : String) : Except SimulationError Settings := do
  match ofText? text with
  | none => throw .malformed
  | some s =>
    s.check.mapError .rejected
    return s

end Settings

variable [Randomness]

/-- The devices of a run. -/
abbrev Devices := List Device

namespace Devices

/-- The devices of the settings; each has a seed of its own. -/
def create (s : Settings) (scs : SubcarrierSpacing) : Outcome Devices :=
  s.devices.zipIdx.mapM fun (device, i) => Device.create s scs device (s.seed + i.toUInt64)

/-- Take every device through a slot. -/
def runSlot (devices : Devices) (slot : SlotPoint) : Outcome Devices :=
  devices.mapM fun d => d.runSlot slot

/-- The counts of the devices. -/
def statistics (devices : Devices) : List Statistics := devices.map (·.statistics)

/-- Take every device through `n` slots from `slot` on; the counts after each of them, and the
devices at the end. -/
def run : (n : Nat) → (slot : SlotPoint) → Devices → Outcome (List (List Statistics) × Devices)
  | 0, _, devices => return ([], devices)
  | n + 1, slot, devices => do
    let devices ← runSlot devices slot
    let counts := statistics devices
    let (rest, devices) ← run n (← slot.next) devices
    return (counts :: rest, devices)

end Devices

/-- Run the settings' devices for a number of slots. -/
def simulate (s : Settings) (slots : Nat) :
    ExceptT SimulationError Checked (List (List Statistics) × Devices) := do
  match s.carrier.spacing with
  | .error reason => throw (.rejected reason)
  | .ok scs =>
    ExceptT.adapt SimulationError.device do
      (← Devices.create s scs).run slots ⟨scs, 0, 0⟩

end Simulation

end Uplink
