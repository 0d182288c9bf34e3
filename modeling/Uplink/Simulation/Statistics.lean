import Uplink.Receiver
import Uplink.Transmitter

/-!
# Statistics

What a device counts over the slots of a run, and the ratios that follow from the counts.

- `Statistics.addState`, `addBlock`, `addFields`: count one transmission.
- `Statistics.blockErrorRatio`, `residualRatio`, `meanSinrDb`: the ratios.
-/

namespace Uplink

namespace Simulation

/-- The counts of a device. -/
structure Statistics where
  transmissions : Nat := 0
  /-- Transport blocks sent for the first time, and how many of these were not received. -/
  firstTransmissions : Nat := 0
  firstErrors : Nat := 0
  /-- Transport blocks received, at whichever attempt. -/
  delivered : Nat := 0
  /-- Transport blocks given up. -/
  dropped : Nat := 0
  acks : Nat := 0
  ackErrors : Nat := 0
  csi1s : Nat := 0
  csi1Errors : Nat := 0
  /-- Sum and number of the reported signal to noise ratios, in decibels. -/
  sinrSum : Float32 := 0
  sinrCount : Nat := 0
deriving DecidableEq

/-- What becomes of a transport block after an attempt. -/
inductive BlockOutcome where
  | delivered
  | again
  | dropped
deriving DecidableEq, Repr

namespace Statistics

/-- Count a transmission with the signal to noise ratio of its first report that has one. -/
def addState (s : Statistics) (reports : List Report) : Statistics :=
  let s := { s with transmissions := s.transmissions + 1 }
  match reports.findSome? fun r => r.state.sinrDb with
  | some db => { s with sinrSum := s.sinrSum + db, sinrCount := s.sinrCount + 1 }
  | none => s

/-- Count an attempt at a transport block. -/
def addBlock (s : Statistics) (attempt : Nat) (received : Bool) (outcome : BlockOutcome) :
    Statistics :=
  let s := if attempt ≠ 0 then s else
    { s with
      firstTransmissions := s.firstTransmissions + 1
      firstErrors := s.firstErrors + if received then 0 else 1 }
  match outcome with
  | .delivered => { s with delivered := s.delivered + 1 }
  | .dropped => { s with dropped := s.dropped + 1 }
  | .again => s

/-- Whether a field was received as it was sent. -/
def matchesField (field : Option UciField) (sent : Bits) : Bool :=
  field.any fun f => f.status == .valid && f.payload == sent

/-- Count the control fields of a transmission. -/
def addFields (s : Statistics) (reports : List Report) (sent : Payload) : Statistics :=
  let s := if sent.harqAck.isEmpty then s else
    { s with
      acks := s.acks + 1
      ackErrors := s.ackErrors +
        if matchesField (reports.findSome? Report.harqAck?) sent.harqAck then 0 else 1 }
  if sent.csiPart1.isEmpty then s else
    { s with
      csi1s := s.csi1s + 1
      csi1Errors := s.csi1Errors +
        if matchesField (reports.findSome? Report.csiPart1?) sent.csiPart1 then 0 else 1 }

/-- The part `n` of `total`; zero of nothing. -/
def ratio (n total : Nat) : Float32 :=
  if total = 0 then 0 else Single.ofNat n / Single.ofNat total

/-- The part of the transport blocks that were not received at once. -/
def blockErrorRatio (s : Statistics) : Float32 := ratio s.firstErrors s.firstTransmissions

/-- The part of the finished transport blocks that were given up. -/
def residualRatio (s : Statistics) : Float32 := ratio s.dropped (s.delivered + s.dropped)

/-- The mean of the reported signal to noise ratios, in decibels. -/
def meanSinrDb (s : Statistics) : Option Float32 :=
  if 0 < s.sinrCount then some (s.sinrSum / Single.ofNat s.sinrCount) else none

end Statistics

end Simulation

end Uplink
