import Uplink.Double
import Uplink.Simulation.Settings
import Uplink.Toml.Parser

/-!
# Settings as text

Settings are written as a table of named values. Every part and every value may be missing, but for
the identity of a device; unknown names are passed over.

- `Settings.ofValue?`, `Settings.ofText?`: the settings of a table and of a text.
- `Settings.toValue`: the table that states each value.
-/

namespace Uplink

namespace Simulation

open Toml (Value)

/-! ## Numbers and names -/

/-- A machine size. -/
def size? : Value → Option Nat := Value.natBelow? Size.limit

/-- A half word. -/
def halfWord? (v : Value) : Option UInt16 := (Value.natBelow? UInt16.size v).map (·.toUInt16)

/-- The name of a modulation scheme. -/
def modulationName : Modulation → String
  | .qpsk => "qpsk"
  | .qam16 => "qam16"
  | .qam64 => "qam64"
  | .qam256 => "qam256"

/-- The modulation schemes by name. -/
def modulations : List (String × Modulation) := Modulation.all.map fun m => (modulationName m, m)

/-- The name of a source of the signal to noise ratio. -/
def sinrMethodName : SinrMethod → String
  | .channelEstimator => "channel_estimator"
  | .postEqualization => "post_equalization"
  | .evmBased => "evm_based"

/-- The sources of the signal to noise ratio by name. -/
def sinrMethods : List (String × SinrMethod) :=
  [.channelEstimator, .postEqualization, .evmBased].map fun m => (sinrMethodName m, m)

/-! ## Reading -/

/-- The settings of a carrier. -/
def CarrierSettings.ofValue? (v : Value) : Option CarrierSettings := do
  let f ← v.fields?
  let d : CarrierSettings := {}
  return { spacingKHz := ← f.readD 0 "scs_khz" (Value.natBelow? UInt32.size) d.spacingKHz
           blocks := ← f.readD 1 "nof_rb" size? d.blocks
           rxPorts := ← f.readD 2 "rx_ports" size? d.rxPorts
           cellId := ← f.readD 3 "pci" halfWord? d.cellId
           dcSubcarrier := ← f.readD 4 "dc_subcarrier" (some <$> size? ·) none }

/-- The settings of a transmission. -/
def TransmissionSettings.ofValue? (v : Value) : Option TransmissionSettings := do
  let f ← v.fields?
  let d : TransmissionSettings := {}
  return { bwpStart := ← f.readD 0 "bwp_start_rb" size? d.bwpStart
           bwpSize := ← f.readD 1 "bwp_size_rb" size? d.bwpSize
           firstBlock := ← f.readD 2 "rb_start" size? d.firstBlock
           blocks := ← f.readD 3 "nof_rb" size? d.blocks
           modulation := ← f.readD 4 "modulation" (Value.choice? modulations) d.modulation
           codeRate := ← f.readD 5 "target_code_rate" Value.single? d.codeRate
           blockBytes := ← f.readD 6 "tbs_bytes" size? d.blockBytes
           layers := ← f.readD 7 "nof_layers" size? d.layers
           firstSymbol := ← f.readD 8 "start_symbol" size? d.firstSymbol
           symbolCount := ← f.readD 9 "nof_symbols" size? d.symbolCount
           dmrsSymbols := ← f.readD 10 "dmrs_symbols" (Value.list? size?) d.dmrsSymbols
           ackBits := ← f.readD 11 "nof_harq_ack" size? d.ackBits
           csi1Bits := ← f.readD 12 "nof_csi_part1" size? d.csi1Bits
           alpha := ← f.readD 13 "alpha_scaling" Value.single? d.alpha
           betaAck := ← f.readD 14 "beta_offset_harq_ack" Value.single? d.betaAck
           betaCsi1 := ← f.readD 15 "beta_offset_csi_part1" Value.single? d.betaCsi1
           limitBytes := ← f.readD 16 "tbs_lbrm_bytes" size? d.limitBytes
           maxRetransmissions := ← f.readD 17 "max_retransmissions" size? d.maxRetransmissions }

/-- The settings of the receiver. -/
def DecodingSettings.ofValue? (v : Value) : Option DecodingSettings := do
  let f ← v.fields?
  let d : DecodingSettings := {}
  return { iterations := ← f.readD 0 "ldpc_iterations" size? d.iterations
           earlyStop := ← f.readD 1 "early_stop" Value.boolean? d.earlyStop
           sinrMethod := ← f.readD 2 "sinr_method" (Value.choice? sinrMethods) d.sinrMethod }

/-- The settings of a device. -/
def DeviceSettings.ofValue? (v : Value) : Option DeviceSettings := do
  let f ← v.fields?
  return { rnti := ← f.read 0 "rnti" halfWord?
           snrDb := ← f.readD 1 "snr_db" Value.single? 10 }

namespace Settings

/-- The settings that a value states. -/
def ofValue? (v : Value) : Option Settings := do
  let f ← v.fields?
  let d : Settings := {}
  return { seed := ← f.readD 0 "seed" (fun v => (size? v).map (·.toUInt64)) d.seed
           slots := ← f.readD 1 "slots" size? d.slots
           carrier := ← f.readD 2 "carrier" CarrierSettings.ofValue? d.carrier
           transmission := ← f.readD 3 "pusch" TransmissionSettings.ofValue? d.transmission
           decoding := ← f.readD 4 "processor" DecodingSettings.ofValue? d.decoding
           devices := ← f.readD 5 "ues" (Value.list? DeviceSettings.ofValue?) d.devices }

/-- The settings that a text states. -/
def ofText? (text : String) : Option Settings := do
  ofValue? (← Toml.parse? text)

end Settings

/-! ## Writing -/

/-- A number as a value. -/
def natural (n : Nat) : Value := .integer n

/-- A single precision number as a value. -/
def single (x : Float32) : Value := .float (Double.ofSingle x)

/-- The table of a carrier. -/
def CarrierSettings.toValue (s : CarrierSettings) : Value :=
  .table <|
    [("scs_khz", natural s.spacingKHz),
     ("nof_rb", natural s.blocks),
     ("rx_ports", natural s.rxPorts),
     ("pci", natural s.cellId.toNat)]
    ++ (s.dcSubcarrier.map fun dc => ("dc_subcarrier", natural dc)).toList

/-- The table of a transmission. -/
def TransmissionSettings.toValue (s : TransmissionSettings) : Value :=
  .table
    [("bwp_start_rb", natural s.bwpStart),
     ("bwp_size_rb", natural s.bwpSize),
     ("rb_start", natural s.firstBlock),
     ("nof_rb", natural s.blocks),
     ("modulation", .string (modulationName s.modulation)),
     ("target_code_rate", single s.codeRate),
     ("tbs_bytes", natural s.blockBytes),
     ("nof_layers", natural s.layers),
     ("start_symbol", natural s.firstSymbol),
     ("nof_symbols", natural s.symbolCount),
     ("dmrs_symbols", .array (s.dmrsSymbols.map natural)),
     ("nof_harq_ack", natural s.ackBits),
     ("nof_csi_part1", natural s.csi1Bits),
     ("alpha_scaling", single s.alpha),
     ("beta_offset_harq_ack", single s.betaAck),
     ("beta_offset_csi_part1", single s.betaCsi1),
     ("tbs_lbrm_bytes", natural s.limitBytes),
     ("max_retransmissions", natural s.maxRetransmissions)]

/-- The table of the receiver. -/
def DecodingSettings.toValue (s : DecodingSettings) : Value :=
  .table
    [("ldpc_iterations", natural s.iterations),
     ("early_stop", .boolean s.earlyStop),
     ("sinr_method", .string (sinrMethodName s.sinrMethod))]

/-- The table of a device. -/
def DeviceSettings.toValue (s : DeviceSettings) : Value :=
  .table [("rnti", natural s.rnti.toNat), ("snr_db", single s.snrDb)]

/-- The table that states each value. -/
def Settings.toValue (s : Settings) : Value :=
  .table
    [("seed", natural s.seed.toNat),
     ("slots", natural s.slots),
     ("carrier", s.carrier.toValue),
     ("pusch", s.transmission.toValue),
     ("processor", s.decoding.toValue),
     ("ues", .array (s.devices.map (·.toValue)))]

end Simulation

end Uplink
