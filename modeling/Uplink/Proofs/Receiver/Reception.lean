import Uplink.Proofs.Receiver.Fields

/-!
# Receptions complete

A receiver answers to every transmission that it accepts, however many it has received before and
whatever the grid holds: each field that was sent is reported once, in the order of transport block,
acknowledgements and channel state, and all reports carry one channel state.

- `Receiver.Serves`: the receivers with some settings, new ones and those that have been used.
- `Receiver.IsChannelState`: what a transmission tells of the channel, the statistics of its
  demodulation included.
- `Receiver.reportsOf`: the reports of the fields that were sent.
- `Receiver.reports_receive`: a receiver in use answers to a transmission that it accepts with just
  these reports.
-/

namespace Uplink

namespace Receiver

variable {settings : ReceiverSettings} {r r' : Receiver} {block : Bytes} {buffer : HarqBuffer}
  {grid : ResourceGrid} {pdu : Pdu} {received : Received}

/-! ## Receivers in use -/

/-- The receivers with some settings: a new one, and any one after a further
transmission. -/
inductive Serves (settings : ReceiverSettings) : Receiver → Prop where
  | created {r : Receiver} (h : create settings = .ok r) : Serves settings r
  | received {r r' : Receiver} {block : Bytes} {buffer : HarqBuffer} {grid : ResourceGrid}
      {pdu : Pdu} {received : Received} (earlier : Serves settings r)
      (h : r.receive block buffer grid pdu = .ok (received, r')) : Serves settings r'

theorem dims_of_estimate {q : EstimationRequest} {earlier estimate : ChannelEstimate}
    (h : q.estimate grid earlier = .ok estimate) : estimate.dims = earlier.dims := by
  unfold EstimationRequest.estimate at h
  simp only [bind_eq_ok] at h
  obtain ⟨-, -, -, -, values, -, weights, -, fits, -, h⟩ := h
  rw [← Except.ok.inj h]
  rfl

theorem dims_of_clearSubcarrier {estimate cleared : ChannelEstimate} {dc : Nat}
    (h : estimate.clearSubcarrier dc = .ok cleared) : cleared.dims = estimate.dims := by
  obtain ⟨k, -, h⟩ := bind_eq_ok.mp h
  rw [← Except.ok.inj h]

theorem dims_of_estimateChannel {mask : Array Bool} {estimate : ChannelEstimate}
    (h : r.estimateChannel grid pdu mask = .ok estimate) : estimate.dims = r.estimate.dims := by
  obtain ⟨q, -, h⟩ := bind_eq_ok.mp h
  obtain ⟨found, hfound, h⟩ := bind_eq_ok.mp h
  cases hdc : pdu.dcSubcarrier with
  | none =>
    rw [hdc] at h
    rw [← Except.ok.inj h, dims_of_estimate hfound]
  | some dc =>
    rw [hdc] at h
    rw [dims_of_clearSubcarrier h, dims_of_estimate hfound]

/-- What is decoded stays in the decoder: the settings and the estimate are
those of the receiver. -/
theorem finishBlock_eq_ok {reception : Option Reception} {state : ChannelState}
    (h : r.finishBlock reception state buffer block = .ok (received, r')) :
    r'.settings = r.settings ∧ r'.estimate = r.estimate := by
  cases reception with
  | none =>
    obtain ⟨-, rfl⟩ := Prod.mk.inj (Except.ok.inj h)
    exact ⟨rfl, rfl⟩
  | some reception =>
    obtain ⟨⟨result, reception⟩, -, h⟩ := bind_eq_ok.mp h
    obtain ⟨-, rfl⟩ := Prod.mk.inj (Except.ok.inj h)
    exact ⟨rfl, rfl⟩

/-- A transmission leaves the settings of the receiver and the dimensions of its
estimate, whatever it was and whatever was provided for it. -/
theorem Ready.receive (hr : r.Ready) (h : r.receive block buffer grid pdu = .ok (received, r')) :
    r'.Ready ∧ r'.settings = r.settings := by
  obtain ⟨verdict, -, h⟩ := bind_eq_ok.mp h
  cases verdict with
  | error e => cases h
  | ok _ =>
    replace h : r.receiveAccepted block buffer grid pdu = .ok (received, r') := h
    -- of all stages, only the estimation and the decoding touch the receiver
    unfold receiveAccepted at h
    simp only [bind_eq_ok] at h
    obtain ⟨mask, -, budget, -, estimate, hestimate, sinr, -, sch, -, demultiplexer, -,
      ⟨statistics, rest, sinks⟩, -, -, -, ⟨_, _⟩, hfinish, control, -, h⟩ := h
    obtain ⟨-, rfl⟩ := Prod.mk.inj (Except.ok.inj h)
    obtain ⟨hsettings, hfinal⟩ := finishBlock_eq_ok hfinish
    have hdims := dims_of_estimateChannel hestimate
    refine ⟨⟨hsettings ▸ hr.supported, ?_⟩, hsettings⟩
    rw [hfinal, hsettings]
    exact hdims.trans hr.dims_eq

/-- A receiver in use is ready for the next transmission. The induction is over
the transmissions that it has received. -/
theorem Serves.ready (h : Serves settings r) : r.Ready ∧ r.settings = settings := by
  induction h with
  | created h =>
    obtain ⟨hsupported, rfl⟩ := create_eq_ok.mp h
    exact ⟨⟨hsupported, rfl⟩, rfl⟩
  | received _ h ih =>
    obtain ⟨hready, hsettings⟩ := ih.1.receive h
    exact ⟨hready, hsettings.trans ih.2⟩

/-! ## One transmission -/

/-- What a transmission tells of the channel: the signal to noise ratio of its
reference signals, and what its demodulation finds. The demodulation is the same
whoever consumes its soft bits. -/
structure IsChannelState (r : Receiver) (grid : ResourceGrid) (pdu : Pdu) (state : ChannelState) :
    Prop where
  method_eq : state.method = r.settings.sinrMethod
  found : ∃ mask estimate statistics,
    pdu.blockMask = .ok mask ∧
    r.estimateChannel grid pdu mask = .ok estimate ∧
    estimatorSinrDb estimate pdu.layers pdu.rxPorts.length = .ok state.estimatorSinrDb ∧
    (pdu.demodulationRequest mask).run grid estimate (fun _ _ => .ok ()) () =
      .ok (statistics, ()) ∧
    state.equalizedSinrDb = statistics.sinrDb ∧ state.evm = statistics.evm

/-- The reports of a transmission's fields, all with one channel state. -/
def reportsOf (state : ChannelState) (result : Option SchResult) (ack csi1 : Option UciField) :
    List Report :=
  (result.map (Report.sch · state)).toList ++
    ((ack.map (Report.harqAck · state)).toList ++ (csi1.map (Report.csiPart1 · state)).toList)

/-- A receiver that is ready collects all soft bits of the transmission, and
knows the state of the channel by then. What is left to do is to decode the
fields and to report them. -/
theorem Suits.receive_eq (h : Suits r block buffer grid pdu) (hr : r.Ready) :
    ∃ estimate state sinks n,
      r.IsChannelState grid pdu state ∧
      FieldSinks.Gathered (fields r pdu block buffer) sinks
        (n * (pdu.layers * pdu.modulation.order)) ∧
      n * (pdu.layers * pdu.modulation.order) ≤ maxCodewordLength ∧
      r.receive block buffer grid pdu = do
        let (received, r) ← { r with estimate }.finishBlock sinks.sch state buffer block
        let control ← sinks.controlReports state
        return ({ received with reports := received.reports ++ control }, r) := by
  obtain ⟨mask, hmask, hmaskSize, hallocated⟩ := h.exists_blockMask hr
  obtain ⟨budget, d, hbudget, hd, hdone, hgroup, hsize, hlength⟩ := h.exists_start hr hallocated
  obtain ⟨estimate, hestimate, hdims, hcomplete⟩ := h.exists_estimateChannel hr hmaskSize
  obtain ⟨sinr, hsinr⟩ := h.exists_estimatorSinrDb hdims hcomplete
  obtain ⟨statistics, d', sinks, n, hrun, htrivial, hend, hsinks, hfed⟩ :=
    h.exists_demodulate (h.covered hr hmaskSize hdims hcomplete) hdone hgroup hsize hlength
  refine ⟨estimate, ⟨r.settings.sinrMethod, sinr, statistics.sinrDb, statistics.evm⟩, sinks, n,
    ⟨rfl, mask, estimate, statistics, hmask, hestimate, hsinr, htrivial, rfl, rfl⟩, hsinks, hfed,
    ?_⟩
  have hrun : (pdu.demodulationRequest mask).run grid estimate FieldSinks.consume
      (d, { sch := (fields r pdu block buffer).sch
            harqAck := startField pdu pdu.uci.ackBits
            csiPart1 := startField pdu pdu.uci.csi1Bits }) = .ok (statistics, d', sinks) := hrun
  -- each stage has an outcome, so the stages are run one by one
  rw [receive, h.check, ok_bind]
  show r.receiveAccepted block buffer grid pdu = _
  rw [receiveAccepted, hmask, ok_bind, hbudget, ok_bind, hestimate, ok_bind, hsinr, ok_bind,
    h.startBlocks_eq_ok, ok_bind, hd, ok_bind, hrun, ok_bind]
  dsimp only
  rw [ChannelState.withStatistics_ofMethod, hend, ok_bind]

/-- A receiver that is ready receives the transmission and reports each of its
fields once, all with the channel state of this transmission. -/
theorem Suits.exists_receive (h : Suits r block buffer grid pdu) (hr : r.Ready)
    (hafford : r.Affords block pdu) :
    ∃ received r' state result ack csi1,
      r.receive block buffer grid pdu = .ok (received, r') ∧
      r.IsChannelState grid pdu state ∧
      received.reports = reportsOf state result ack csi1 ∧
      (result.isSome ↔ pdu.block.isSome) ∧ (ack.isSome ↔ 0 < pdu.uci.ackBits) ∧
      (csi1.isSome ↔ 0 < pdu.uci.csi1Bits) := by
  obtain ⟨estimate, state, sinks, n, hstate, hsinks, hfed, hreceive⟩ := h.receive_eq hr
  obtain ⟨received, r', result, hfinish, hreports, hresult⟩ :=
    h.exists_blockReport hr hafford estimate hsinks hfed state
  obtain ⟨ack, csi1, hcontrol, hack, hcsi1⟩ := h.exists_controlReports hsinks state
  refine ⟨{ received with reports := reportsOf state result ack csi1 }, r', state, result, ack,
    csi1, ?_, hstate, rfl, hresult, hack, hcsi1⟩
  rw [hreceive, hfinish, ok_bind]
  dsimp only
  rw [hcontrol, ok_bind, hreports]
  rfl

/-- Without an early stop and on a new buffer, it does so only if the machine
can count the iterations of all codeblocks. -/
theorem Suits.affords_of_receive (h : Suits r block buffer grid pdu) (hr : r.Ready)
    (hpatient : r.settings.earlyStop = false) (hbuffer : ∀ i, (buffer.block i).passed = false)
    {outcome : Received × Receiver} (hreceive : r.receive block buffer grid pdu = .ok outcome) :
    r.Affords block pdu := by
  obtain ⟨estimate, state, sinks, n, -, hsinks, hfed, heq⟩ := h.receive_eq hr
  rw [heq] at hreceive
  obtain ⟨⟨received, r'⟩, hfinish, -⟩ := bind_eq_ok.mp hreceive
  exact h.affords_of_finishBlock hpatient hbuffer hsinks hfed hfinish

/-- A receiver in use answers to every transmission that it accepts, as long as
the machine can count the bits of the transport block and the iterations of its
decoding: the transport block, the acknowledgements and the channel state are
reported once each if they were sent, with what this transmission tells of the
channel. -/
theorem reports_receive (hr : Serves settings r) (h : r.Provides block buffer grid pdu)
    (hbytes : ∀ parameters ∈ pdu.block, 16 * block.size < Size.limit)
    (hafford : r.Affords block pdu) :
    ∃ received r' state result ack csi1,
      r.receive block buffer grid pdu = .ok (received, r') ∧
      r.IsChannelState grid pdu state ∧
      received.reports = reportsOf state result ack csi1 ∧
      (result.isSome ↔ pdu.block.isSome) ∧ (ack.isSome ↔ 0 < pdu.uci.ackBits) ∧
      (csi1.isSome ↔ 0 < pdu.uci.csi1Bits) :=
  (h.suits hbytes).exists_receive hr.ready.1 hafford

/-! ## A transmission of all fields -/

/-- One block, one layer and one port. -/
def smallSettings : ReceiverSettings := ⟨⟨1, 1, 1⟩, 1, true, .channelEstimator⟩

/-- A new receiver with these settings. -/
def smallReceiver : Receiver :=
  ⟨smallSettings, ChannelEstimate.zeros (dimensions smallSettings), BlockDecoder.fresh⟩

/-- A slot with data, an acknowledgement and four bits of channel state. -/
def smallPdu : Pdu :=
  { slot := ⟨.khz15, 0, 0⟩, rnti := 1, bwpStart := 0, bwpSize := 1, cyclicPrefix := .normal
    modulation := .qpsk, codeRate := 308, block := some ⟨0, .two, true⟩
    uci := { ackBits := 1, csi1Bits := 4, csi2Bits := 0, alpha := 1, betaAck := 2, betaCsi1 := 1.5 }
    cellId := 1, layers := 1, rxPorts := [0]
    dmrsMask := Budget.sampleRegion.dmrsMask
    dmrsType := .type1, dmrsIdentity := 1, second := false, freeGroups := 2
    allocation := .contiguous 0 1, firstSymbol := 0, symbolCount := 14, limitBytes := 0
    dcSubcarrier := some 6 }

/-- A receiver of one block, one layer and one port is provided for with any
transport block, a buffer for its codeblocks and an empty slot. -/
theorem provides_smallPdu {r : Receiver} {block : Bytes} {buffer : HarqBuffer} {s : Segmentation}
    (hlimits : r.settings.limits = ⟨1, 1, 1⟩) (hblock : block.size ≠ 0)
    (hfound : Segmentation.ofSize .two (block.size * 8) = .ok s) (hcount : buffer.count = s.blocks) :
    r.Provides block buffer (ResourceGrid.zeros 1 14 1) smallPdu where
  check := by rw [hlimits]; decide +kernel
  alpha_le := by decide +kernel
  unlimited := rfl
  distinct _ h := nomatch h
  transportBlock parameters h := by
    obtain rfl := Option.some.inj h
    exact ⟨by decide, hblock, fun s' hs' => by rw [hcount, Except.ok.inj (hfound.symm.trans hs')]⟩
  covers_ports := by decide
  covers_symbols := by decide
  covers_blocks := by decide

/-- One byte makes one codeblock, the shortest message there is. -/
theorem ofSize_byte : Segmentation.ofSize .two (1 * 8) =
    .ok ⟨.two, 1, 16, 0, 24, 4, 40, 16⟩ := by decide +kernel

/-- A byte in one codeblock, with an acknowledgement, is provided for. -/
theorem smallReceiver_provides : smallReceiver.Provides #[0xA5] (HarqBuffer.ofCount 1)
    (ResourceGrid.zeros 1 14 1) smallPdu :=
  provides_smallPdu rfl (by decide) ofSize_byte rfl

theorem smallReceiver_affords : smallReceiver.Affords #[0xA5] smallPdu := by
  intro parameters hparameters s hs
  obtain rfl := Option.some.inj hparameters
  rw [← Except.ok.inj (ofSize_byte.symm.trans hs)]
  decide

theorem reports_receive_small : ∃ received r' state result ack csi1,
    smallReceiver.receive #[0xA5] (HarqBuffer.ofCount 1) (ResourceGrid.zeros 1 14 1) smallPdu =
      .ok (received, r') ∧
    smallReceiver.IsChannelState (ResourceGrid.zeros 1 14 1) smallPdu state ∧
    received.reports = reportsOf state (some result) (some ack) (some csi1) := by
  obtain ⟨received, r', state, result, ack, csi1, hreceive, hstate, hreports, hresult, hack,
      hcsi1⟩ :=
    reports_receive (.created (rfl : create smallSettings = .ok smallReceiver))
      smallReceiver_provides (fun _ _ => by decide) smallReceiver_affords
  obtain ⟨result, rfl⟩ := Option.isSome_iff_exists.mp (hresult.mpr rfl)
  obtain ⟨ack, rfl⟩ := Option.isSome_iff_exists.mp (hack.mpr (by decide))
  obtain ⟨csi1, rfl⟩ := Option.isSome_iff_exists.mp (hcsi1.mpr (by decide))
  exact ⟨received, r', state, result, ack, csi1, hreceive, hstate, hreports⟩

/-- A receiver that makes `2 ^ 63` iterations on every codeblock. -/
def patientReceiver : Receiver :=
  .fresh { smallSettings with iterations := 2 ^ 63, earlyStop := false }

/-- A receiver of two blocks. -/
def wideReceiver : Receiver := .fresh { smallSettings with limits := ⟨2, 1, 1⟩ }

/-- A bandwidth part of two blocks, of which the first one is allocated. -/
def widePdu : Pdu := { smallPdu with bwpSize := 2 }

/-- Receptions that do not complete although all is provided that the fields
need: one of two codeblocks whose iterations the machine cannot add up, any one
of a transport block of `2 ^ 61` bytes, and one on a grid that has the allocated
block but not all of the bandwidth part. -/
theorem receive_ne_ok_of_large :
    (create patientReceiver.settings = .ok patientReceiver ∧
      patientReceiver.Provides (Array.replicate 480 0) (HarqBuffer.ofCount 2)
        (ResourceGrid.zeros 1 14 1) smallPdu ∧
      ∀ outcome, patientReceiver.receive (Array.replicate 480 0) (HarqBuffer.ofCount 2)
        (ResourceGrid.zeros 1 14 1) smallPdu ≠ .ok outcome) ∧
    (∀ buffer grid outcome,
      smallReceiver.receive (Array.replicate (2 ^ 61) 0) buffer grid smallPdu ≠ .ok outcome) ∧
    create wideReceiver.settings = .ok wideReceiver ∧
      (widePdu.check wideReceiver.settings.limits).run = .ok (.ok ()) ∧
      widePdu.blockMask = .ok #[true, false] ∧
      wideReceiver.receive #[0xA5] (HarqBuffer.ofCount 1) (ResourceGrid.zeros 1 14 1) widePdu =
        .error (.requirement "Range read (0, 2, 0..24) out of grid bounds (1, 14, 12)") := by
  have htwo : Segmentation.ofSize .two ((Array.replicate 480 (0 : UInt8)).size * 8) =
      .ok ⟨.two, 2, 24, 24, 1956, 208, 2080, 124⟩ := by
    rw [Array.size_replicate]
    decide
  have hprovides : patientReceiver.Provides (Array.replicate 480 0) (HarqBuffer.ofCount 2)
      (ResourceGrid.zeros 1 14 1) smallPdu :=
    provides_smallPdu rfl (by rw [Array.size_replicate]; decide) htwo rfl
  refine ⟨⟨rfl, hprovides, fun outcome hreceive => ?_⟩, fun buffer grid outcome hreceive => ?_, rfl,
    by decide +kernel, by decide +kernel, ?_⟩
  · -- had the first one completed, the machine could count `2 ^ 64` iterations
    have hsuits := hprovides.suits fun _ _ => by rw [Array.size_replicate]; decide
    have hready : patientReceiver.Ready :=
      (Serves.created (rfl : create patientReceiver.settings = .ok patientReceiver)).ready.1
    have hafford := hsuits.affords_of_receive hready rfl
      (fun i => by rw [HarqBuffer.block_ofCount]; rfl) hreceive
    exact absurd (hafford _ rfl _ htwo) (by decide)
  · -- the bits of the block leave the machine before its codeblocks are counted
    have hbudget : Budget.ofRequest (smallPdu.budgetRequest (smallPdu.blockBits (2 ^ 61))) =
        .error .arithmetic := by decide +kernel
    obtain ⟨verdict, hverdict, hreceive⟩ := bind_eq_ok.mp hreceive
    cases verdict with
    | error e => cases hreceive
    | ok _ =>
      obtain ⟨mask, -, hreceive⟩ := bind_eq_ok.mp hreceive
      obtain ⟨budget, hfound, -⟩ := bind_eq_ok.mp hreceive
      rw [Array.size_replicate, hbudget] at hfound
      cases hfound
  · -- the estimator reads the whole bandwidth part, and the grid ends with the first block
    have hfault : Except.map (fun _ => ()) (wideReceiver.receive #[0xA5] (HarqBuffer.ofCount 1)
        (ResourceGrid.zeros 1 14 1) widePdu) =
        .error (.requirement "Range read (0, 2, 0..24) out of grid bounds (1, 14, 12)") := by
      decide +kernel
    generalize wideReceiver.receive _ _ _ _ = answer at hfault ⊢
    cases answer with
    | error fault => exact congrArg _ (Except.error.inj hfault)
    | ok _ => cases hfault

end Receiver

end Uplink
