import Uplink.Simulation.Run
import Uplink.Text.Fixed

/-!
# Summaries

The text that reports a run: two lines for each device.
-/

namespace Uplink

namespace Simulation

variable [Randomness]

namespace Device

/-- The lines that report what a device counted. -/
def summary (d : Device) : List String :=
  let s := d.statistics
  let rnti := Text.hexadecimal 4 d.settings.rnti.toNat
  let sinr := s.meanSinrDb.elim "n/a" fun db => Text.fixed 1 db ++ " dB"
  [ s!"UE 0x{rnti} at {Text.fixed 1 d.settings.snrDb} dB: "
      ++ s!"BLER {Text.fixed 4 s.blockErrorRatio}, "
      ++ s!"residual BLER {Text.fixed 4 s.residualRatio}, SINR {sinr}",
    s!"  HARQ-ACK errors {s.ackErrors}/{s.acks}, "
      ++ s!"CSI part 1 errors {s.csi1Errors}/{s.csi1s}" ]

end Device

namespace Devices

/-- The lines that report a run. -/
def summary (devices : Devices) : List String := devices.flatMap (·.summary)

end Devices

end Simulation

end Uplink
