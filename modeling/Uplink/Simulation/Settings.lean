import Uplink.ChannelState
import Uplink.Modulation
import Uplink.Numerology

/-!
# Simulation settings

What a run of the simulation needs to know: the carrier, the transmission that all devices share,
how the receiver decodes, and the devices with their channels.

- `Settings`: all of it; each part has its usual values as defaults.
- `Settings.check`: whether the parts fit together; `Rejection` names the first that does not.
-/

namespace Uplink

namespace Simulation

/-- The carrier and the antennas of the receiver. -/
structure CarrierSettings where
  spacingKHz : Nat := 30
  /-- Resource blocks of the grid. -/
  blocks : Nat := 51
  rxPorts : Nat := 2
  cellId : UInt16 := 1
  /-- Subcarrier of the receiver's carrier frequency. -/
  dcSubcarrier : Option Nat := none
deriving DecidableEq, Repr

/-- The transmission of every device. -/
structure TransmissionSettings where
  bwpStart : Nat := 0
  bwpSize : Nat := 51
  /-- First allocated block of the bandwidth part. -/
  firstBlock : Nat := 0
  blocks : Nat := 24
  modulation : Modulation := .qpsk
  /-- Code rate times 1024. -/
  codeRate : Float32 := 378
  /-- Size of a transport block, zero to send control information alone. -/
  blockBytes : Nat := 256
  layers : Nat := 1
  firstSymbol : Nat := 0
  symbolCount : Nat := 14
  dmrsSymbols : List Nat := [2, 11]
  ackBits : Nat := 2
  csi1Bits : Nat := 4
  /-- Part of the elements that control information may take. -/
  alpha : Float32 := 1
  betaAck : Float32 := 8
  betaCsi1 : Float32 := 4
  /-- Size in bytes that limits the combining buffer, zero without a limit. -/
  limitBytes : Nat := 0
  /-- How often a transport block is sent again before it is dropped. -/
  maxRetransmissions : Nat := 3
deriving DecidableEq

/-- How the receiver works. -/
structure DecodingSettings where
  iterations : Nat := 6
  earlyStop : Bool := true
  sinrMethod : SinrMethod := .channelEstimator
deriving DecidableEq, Repr

/-- A device and its channel. -/
structure DeviceSettings where
  rnti : Rnti
  /-- Signal to noise ratio of each resource element, in decibels. -/
  snrDb : Float32 := 10
deriving DecidableEq

/-- The settings of a run. -/
structure Settings where
  /-- Seed of all randomness. -/
  seed : UInt64 := 1
  /-- Number of slots. -/
  slots : Nat := 200
  carrier : CarrierSettings := {}
  transmission : TransmissionSettings := {}
  decoding : DecodingSettings := {}
  devices : List DeviceSettings := [⟨0x4601, 10⟩]
deriving DecidableEq

/-- Why settings cannot be simulated. -/
inductive Rejection where
  | spacing (khz : Nat)
  | noDevice
  | layers (count ports : Nat)
  /-- Neither a transport block nor control information is sent. -/
  | nothingSent
  /-- Two devices have one identity. -/
  | duplicate
deriving DecidableEq, Repr

namespace Rejection

/-- The text of the rejection. -/
def message : Rejection → String
  | spacing khz => s!"Invalid subcarrier spacing: {khz} kHz"
  | noDevice => "At least one UE is required"
  | layers count ports => s!"{count} layers cannot be separated with {ports} receive ports"
  | nothingSent => "PUSCH carries neither data nor UCI"
  | duplicate => "Duplicated UE RNTI"

end Rejection

namespace CarrierSettings

/-- The spacing of the subcarriers. -/
def spacing (s : CarrierSettings) : Except Rejection SubcarrierSpacing :=
  match SubcarrierSpacing.ofKHz? s.spacingKHz with
  | some scs => .ok scs
  | none => .error (.spacing s.spacingKHz)

end CarrierSettings

namespace TransmissionSettings

/-- Neither a transport block nor control information is sent. -/
def IsEmpty (s : TransmissionSettings) : Prop :=
  s.blockBytes = 0 ∧ s.ackBits = 0 ∧ s.csi1Bits = 0

instance (s : TransmissionSettings) : Decidable s.IsEmpty := by unfold IsEmpty; infer_instance

end TransmissionSettings

namespace Settings

/-- Whether the parts fit together. -/
def check (s : Settings) : Except Rejection Unit := do
  let _ ← s.carrier.spacing
  if s.devices.isEmpty then throw .noDevice
  if s.carrier.rxPorts < s.transmission.layers then
    throw (.layers s.transmission.layers s.carrier.rxPorts)
  if s.transmission.IsEmpty then throw .nothingSent
  if ¬ (s.devices.map (·.rnti)).Nodup then throw .duplicate

end Settings

end Simulation

end Uplink
