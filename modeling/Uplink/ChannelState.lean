import Uplink.Single

/-!
# Channel state

What is known of the channel when a field is reported: the signal to noise ratio by several methods,
one of which is selected, and the error vector magnitude of the equalized symbols.

- `SinrMethod`: the selectable methods.
- `ChannelState.sinrDb`: the ratio by the selected method.
- `DemodulationStatistics`, `ChannelState.withStatistics`: what the demodulation adds.
-/

namespace Uplink

/-- Where the reported signal to noise ratio comes from. -/
inductive SinrMethod where
  /-- The reference signals. -/
  | channelEstimator
  /-- The noise that equalization leaves. -/
  | postEqualization
  /-- The distance of the equalized symbols from the constellation. -/
  | evmBased
deriving DecidableEq, Repr

/-- What the demodulation of a codeword found. -/
structure DemodulationStatistics where
  /-- Error vector magnitude, relative to the constellation. -/
  evm : Option Float32
  sinrDb : Option Float32
deriving DecidableEq

namespace DemodulationStatistics

/-- Nothing was found. -/
def none : DemodulationStatistics := ⟨.none, .none⟩

end DemodulationStatistics

/-- The state of the channel in a report. -/
structure ChannelState where
  method : SinrMethod
  estimatorSinrDb : Option Float32
  equalizedSinrDb : Option Float32
  evm : Option Float32
deriving DecidableEq

namespace ChannelState

/-- Nothing is known yet. -/
def ofMethod (method : SinrMethod) : ChannelState := ⟨method, none, none, none⟩

/-- The signal to noise ratio in decibels by the selected method. -/
def sinrDb (state : ChannelState) : Option Float32 :=
  match state.method with
  | .channelEstimator => state.estimatorSinrDb
  | .postEqualization => state.equalizedSinrDb
  | .evmBased => (state.evm.filter fun evm => decide (0 < evm)).map fun evm => -20 * evm.log10

/-- The state with what the demodulation found; what it did not find stays as it was. -/
def withStatistics (state : ChannelState) (statistics : DemodulationStatistics) : ChannelState :=
  { state with
    evm := statistics.evm <|> state.evm
    equalizedSinrDb := statistics.sinrDb <|> state.equalizedSinrDb }

section Statistics

variable (state : ChannelState) (statistics : DemodulationStatistics)

@[simp] theorem method_withStatistics :
    (state.withStatistics statistics).method = state.method := rfl

@[simp] theorem estimatorSinrDb_withStatistics :
    (state.withStatistics statistics).estimatorSinrDb = state.estimatorSinrDb := rfl

@[simp] theorem evm_withStatistics :
    (state.withStatistics statistics).evm = (statistics.evm <|> state.evm) := rfl

@[simp] theorem equalizedSinrDb_withStatistics :
    (state.withStatistics statistics).equalizedSinrDb =
      (statistics.sinrDb <|> state.equalizedSinrDb) := rfl

/-- Before the demodulation nothing but the estimate is known, and afterwards all that it found. -/
theorem withStatistics_ofMethod (method : SinrMethod) (sinr : Option Float32) :
    { ofMethod method with estimatorSinrDb := sinr }.withStatistics statistics =
      ⟨method, sinr, statistics.sinrDb, statistics.evm⟩ := by
  simp [withStatistics, ofMethod]

end Statistics

end ChannelState

end Uplink
