import Uplink.ChannelState
import Uplink.TransportBlock.Reception
import Uplink.Uci.Field

/-!
# Reports

The fields of a received transmission, each reported once together with the channel state.
-/

namespace Uplink

/-- The report of a field. -/
inductive Report where
  /-- The transport block. -/
  | sch (result : SchResult) (state : ChannelState)
  /-- The acknowledgements. -/
  | harqAck (field : UciField) (state : ChannelState)
  /-- The first channel state report. -/
  | csiPart1 (field : UciField) (state : ChannelState)
deriving DecidableEq

namespace Report

/-- The channel state of a report. -/
def state : Report → ChannelState
  | sch _ state => state
  | harqAck _ state => state
  | csiPart1 _ state => state

/-- The result of a transport block's report. -/
def sch? : Report → Option SchResult
  | sch result _ => some result
  | _ => none

/-- The acknowledgements of a report. -/
def harqAck? : Report → Option UciField
  | harqAck field _ => some field
  | _ => none

/-- The channel state field of a report. -/
def csiPart1? : Report → Option UciField
  | csiPart1 field _ => some field
  | _ => none

end Report

end Uplink
