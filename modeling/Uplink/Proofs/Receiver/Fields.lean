import Uplink.Proofs.Demultiplexing
import Uplink.Proofs.Receiver.Stages
import Uplink.Proofs.TransportBlock.Completion

/-!
# The fields of a reception

The demodulated soft bits are taken apart and collected by the fields, which are then decoded.

- `Suits.fields`: the fields of a transmission before the first soft bits.
- `Suits.exists_demodulate`: all soft bits are collected, and the codeword ends where it should.
- `Suits.exists_blockReport`, `exists_controlReports`: the fields are decoded and reported.
-/

namespace Uplink

/-! ## Control fields -/

/-- A control field of one to eleven bits is decided, whatever its soft bits are
and however few of them there may be. -/
theorem UciCollector.exists_finish {c : UciCollector} (hpos : 0 < c.length)
    (hle : c.length ≤ ShortBlock.maxLength) : ∃ field, c.finish = .ok field := by
  have hle : c.length ≤ 11 := hle
  have hsigned : 11 < Size.signedLimit := by decide
  rw [finish, Size.cells_of_lt Nat.one_pos (by omega), ok_bind]
  split
  · exact ⟨_, rfl⟩
  · have hlength : (1 ≤ c.length && c.length ≤ ShortBlock.maxLength) = true :=
      Bool.and_eq_true_iff.mpr ⟨decide_eq_true hpos, decide_eq_true hle⟩
    rw [ShortBlock.decode, require_of hlength, ok_bind]
    exact ⟨_, rfl⟩

namespace Receiver

/-- The decoding of a codeword. -/
def receptionSettings (r : Receiver) (pdu : Pdu) (parameters : BlockParameters) :
    ReceptionSettings :=
  { base := parameters.base
    rv := parameters.rv
    modulation := pdu.modulation
    bufferLimit := pdu.limitBytes * 8
    layers := pdu.layers
    iterations := r.settings.iterations
    earlyStop := r.settings.earlyStop
    newData := parameters.newData }

/-- A control field that was sent is decided; one that was not gives no field.
-/
theorem exists_field (pdu : Pdu) (softBits : Array SoftBit) {length : Nat}
    (h : length ≤ ShortBlock.maxLength) :
    ∃ field, ((startField pdu length).map fun c => { c with softBits }).mapM (·.finish) =
        .ok field ∧ (field.isSome ↔ 0 < length) := by
  rw [startField]
  split
  case isTrue hpos =>
    obtain ⟨field, hfield⟩ := UciCollector.exists_finish
      (c := ⟨length, pdu.modulation, softBits⟩) hpos h
    refine ⟨some field, ?_, iff_of_true rfl hpos⟩
    rw [Option.map_some, Option.mapM_some]
    exact congrArg (some <$> ·) hfield
  case isFalse hzero => exact ⟨none, rfl, iff_of_false Bool.false_ne_true hzero⟩

namespace Suits

variable {r : Receiver} {block : Bytes} {buffer : HarqBuffer} {grid : ResourceGrid} {pdu : Pdu}

/-! ## Collecting soft bits -/

/-- The fields of a transmission before its first soft bits. -/
def fields (r : Receiver) (pdu : Pdu) (block : Bytes) (buffer : HarqBuffer) : FieldSinks :=
  { sch := pdu.block.map fun parameters =>
      ⟨r.receptionSettings pdu parameters, ⟨r.decoder.ldpc, #[]⟩, buffer, block, false⟩
    harqAck := startField pdu pdu.uci.ackBits
    csiPart1 := startField pdu pdu.uci.csi1Bits }

theorem mem_startField {length : Nat} : ∀ c ∈ startField pdu length, c.softBits = #[] := by
  intro c hc
  rw [startField] at hc
  split at hc
  · rw [← Option.some.inj hc]
    rfl
  · cases hc

theorem gathered_fields : FieldSinks.Gathered (fields r pdu block buffer)
    (fields r pdu block buffer) 0 := by
  refine FieldSinks.gathered_start (fun reception hreception => ?_) mem_startField mem_startField
  obtain ⟨parameters, -, rfl⟩ := Option.map_eq_some_iff.mp hreception
  rfl

theorem open_fields : ∀ reception ∈ (fields r pdu block buffer).sch,
    reception.finished = false := by
  intro reception hreception
  obtain ⟨parameters, -, rfl⟩ := Option.map_eq_some_iff.mp hreception
  rfl

variable {estimate : ChannelEstimate} {mask : Array Bool} {sinks : FieldSinks} {n : Nat}

/-- The codeword is demodulated and taken apart to its end: the transport block
gets the soft bits of whole elements. What the demodulation finds does not
depend on the fields. -/
theorem exists_demodulate (h : Suits r block buffer grid pdu)
    (hcovered : (pdu.demodulationRequest mask).Covered grid estimate) {d : Demultiplexer}
    (hdone : d.done = 0) (hgroup : d.group = pdu.layers * pdu.modulation.order)
    (hsize : d.placement.size = ((List.range' pdu.firstSymbol pdu.symbolCount).map
      (pdu.demodulationRequest mask).elementsOn).sum)
    (hlength : d.placement.size * d.group ≤ maxCodewordLength) :
    ∃ statistics d' sinks n,
      (pdu.demodulationRequest mask).run grid estimate FieldSinks.consume
        (d, fields r pdu block buffer) = .ok (statistics, d', sinks) ∧
      (pdu.demodulationRequest mask).run grid estimate (fun _ _ => .ok ()) () =
        .ok (statistics, ()) ∧
      d'.finish = .ok () ∧
      FieldSinks.Gathered (fields r pdu block buffer) sinks
        (n * (pdu.layers * pdu.modulation.order)) ∧
      n * (pdu.layers * pdu.modulation.order) ≤ maxCodewordLength := by
  have hpos : 0 < d.group := by
    rw [hgroup]
    exact Nat.mul_pos h.accepted.layers_pos pdu.modulation.order_pos
  have hstart : FieldSinks.Consumed d (fields r pdu block buffer) 0
      (d, fields r pdu block buffer) := by
    refine ⟨by rw [← hdone], ?_⟩
    rw [List.take_zero, List.countP_nil, Nat.zero_mul]
    exact gathered_fields
  obtain ⟨statistics, ⟨d', sinks⟩, hrun, hconsumed, htrivial⟩ :=
    hcovered.exists_run FieldSinks.consume (FieldSinks.Consumed d (fields r pdu block buffer))
      hstart (fun hstate hblock hnext => hstate.exists_consume open_fields hpos
        (by rw [hblock, hgroup]; rfl) (by rw [hsize]; exact hnext) hlength)
  -- the demodulator finds as many elements as are placed
  obtain ⟨rfl, hsinks⟩ := hsize ▸ hconsumed
  refine ⟨statistics, _, sinks, _, hrun, htrivial, ?_, hgroup ▸ hsinks, ?_⟩
  · exact require_of (beq_self_eq_true _) _
  · rw [← hgroup]
    refine Nat.le_trans (Nat.mul_le_mul_right _ (Nat.le_trans List.countP_le_length ?_)) hlength
    rw [List.length_take, Array.length_toList, Nat.min_self]

/-! ## Decoding the fields -/

theorem startBlock_eq_ok (h : Suits r block buffer grid pdu) {parameters : BlockParameters}
    (hparameters : parameters ∈ pdu.block) :
    r.startBlock pdu parameters buffer block =
      .ok ⟨r.receptionSettings pdu parameters, ⟨r.decoder.ldpc, #[]⟩, buffer, block, false⟩ := by
  have hblock : (!block.isEmpty) = true := by
    rw [Bool.not_eq_true', Array.isEmpty_eq_false_iff]
    intro hempty
    exact (h.transportBlock parameters hparameters).block_ne (by rw [hempty]; rfl)
  have hlimit : pdu.bufferLimit = .ok (pdu.limitBytes * 8) := by
    have := h.limit_lt parameters hparameters
    exact Size.mul_of_lt (by omega)
  rw [startBlock, hlimit, ok_bind, Reception.start, require_of hblock]
  rfl

theorem startBlocks_eq_ok (h : Suits r block buffer grid pdu) :
    (pdu.block.mapM fun parameters => r.startBlock pdu parameters buffer block) =
      .ok (fields r pdu block buffer).sch := by
  rw [fields]
  cases hblock : pdu.block with
  | none => rfl
  | some parameters =>
    rw [Option.mapM_some, h.startBlock_eq_ok hblock]
    rfl

/-- A codeword of whole elements is decoded, whatever its soft bits are. The
combining buffer may hold anything of earlier transmissions. -/
theorem exists_finishBlock (h : Suits r block buffer grid pdu) (hr : r.Ready)
    (hafford : r.Affords block pdu) {parameters : BlockParameters}
    (hparameters : parameters ∈ pdu.block) {softBits : Array SoftBit}
    (hwhole : softBits.size % (pdu.layers * pdu.modulation.order) = 0)
    (hlength : softBits.size ≤ maxCodewordLength) :
    ∃ result reception, Reception.finish ⟨r.receptionSettings pdu parameters,
      ⟨r.decoder.ldpc, softBits⟩, buffer, block, false⟩ = .ok (result, reception) := by
  have hholds := h.transportBlock parameters hparameters
  have hbytes := h.bytes_lt parameters hparameters
  have hne := hholds.block_ne
  have hgroup := h.group_le hr
  have hmachine : 32 < Size.limit := by decide
  have hpos : 0 < block.size * 8 := by omega
  obtain ⟨seg, hseg⟩ := Segmentation.exists_ofSize parameters.base hpos (by omega)
  have hsound := Segmentation.ofSize_eq_ok hseg
  -- the reception is a session that is fed its whole codeword at once
  let s : Session := ⟨r.decoder, r.receptionSettings pdu parameters, block, [softBits]⟩
  have hsoftBits : s.softBits = softBits := Session.softBits_singleton
  have hsuits : s.Suits parameters.base (block.size * 8) seg :=
    { base_eq := rfl
      tbs_eq := rfl
      rv_lt := hholds.rv_lt
      layers_pos := h.accepted.layers_pos
      iterations_pos := hr.supported.iterations_pos
      groups := by rw [hsoftBits]; exact hwhole
      length_le := by rwa [hsoftBits]
      room := h.room parameters hparameters seg hseg
      group_lt := show pdu.layers * pdu.modulation.order < _ by omega
      buffer_lt := h.limit_lt parameters hparameters
      budget_lt := hafford parameters hparameters seg hseg }
  obtain ⟨result, reception, hrun⟩ :=
    hsuits.exists_run hseg (by omega) (hholds.count seg hseg)
  have hfinish := (s.run_eq.mp hrun).2.2
  rw [Session.collected, hsoftBits] at hfinish
  exact ⟨result, reception, hfinish⟩

/-- What has been collected for the transport block is the codeword of a
reception that has not finished. -/
theorem exists_sch (hsinks : FieldSinks.Gathered (fields r pdu block buffer) sinks n)
    {parameters : BlockParameters} (hparameters : pdu.block = some parameters) :
    ∃ softBits, softBits.size = n ∧ sinks.sch = some ⟨r.receptionSettings pdu parameters,
      ⟨r.decoder.ldpc, softBits⟩, buffer, block, false⟩ := by
  obtain ⟨softBits, hsize, hsch⟩ := hsinks.sch
  refine ⟨softBits, hsize, ?_⟩
  rw [hsch, fields, hparameters]
  rfl

/-- The transport block of a codeword of whole elements is decoded and reported.
Without a transport block there is nothing to decode, and no report of one. -/
theorem exists_blockReport (h : Suits r block buffer grid pdu) (hr : r.Ready)
    (hafford : r.Affords block pdu) (estimate : ChannelEstimate)
    (hsinks : FieldSinks.Gathered (fields r pdu block buffer) sinks
      (n * (pdu.layers * pdu.modulation.order)))
    (hlength : n * (pdu.layers * pdu.modulation.order) ≤ maxCodewordLength)
    (state : ChannelState) :
    ∃ (received : Received) (r' : Receiver) (result : Option SchResult),
      { r with estimate }.finishBlock sinks.sch state buffer block = .ok (received, r') ∧
      received.reports = (result.map (Report.sch · state)).toList ∧
      (result.isSome ↔ pdu.block.isSome) := by
  cases hblock : pdu.block with
  | none =>
    obtain ⟨softBits, -, hsch⟩ := hsinks.sch
    rw [hsch, fields, hblock]
    exact ⟨_, _, none, rfl, rfl, Iff.rfl⟩
  | some parameters =>
    obtain ⟨softBits, hsize, hsch⟩ := exists_sch hsinks hblock
    have hwhole : softBits.size % (pdu.layers * pdu.modulation.order) = 0 := by
      rw [hsize, Nat.mul_mod_left]
    obtain ⟨result, reception, hfinish⟩ :=
      h.exists_finishBlock hr hafford hblock hwhole (hsize ▸ hlength)
    rw [hsch, finishBlock]
    dsimp only
    rw [hfinish]
    exact ⟨_, _, some result, rfl, rfl, Iff.rfl⟩

/-- Without an early stop, a codeblock that has not passed before takes the
whole budget. If none has, the transport block is decoded only if the machine
can count all iterations. -/
theorem affords_of_finishBlock (h : Suits r block buffer grid pdu)
    (hpatient : r.settings.earlyStop = false)
    (hbuffer : ∀ i, (buffer.block i).passed = false)
    (hsinks : FieldSinks.Gathered (fields r pdu block buffer) sinks n)
    (hlength : n ≤ maxCodewordLength) {state : ChannelState} {received : Received} {r' : Receiver}
    (hfinish : { r with estimate }.finishBlock sinks.sch state buffer block = .ok (received, r')) :
    r.Affords block pdu := by
  intro parameters hparameters seg hseg
  obtain ⟨softBits, hsize, hsch⟩ := exists_sch hsinks hparameters
  rw [hsch, finishBlock] at hfinish
  obtain ⟨⟨result, reception⟩, hfinish, -⟩ := bind_eq_ok.mp hfinish
  let s : Session := ⟨r.decoder, r.receptionSettings pdu parameters, block, [softBits]⟩
  have hsoftBits : s.softBits = softBits := Session.softBits_singleton
  have hrun : s.run buffer = .ok (result, reception) := by
    refine s.run_eq.mpr ⟨(h.transportBlock parameters hparameters).block_ne, ?_, ?_⟩
    · rw [hsoftBits, hsize]
      exact hlength
    · rw [Session.collected, hsoftBits]
      exact hfinish
  refine s.budget_lt_of_run hrun hseg hpatient fun i _ => ?_
  rw [Bool.eq_false_iff, Ne, Session.passed_opened, hbuffer i]
  -- a codeblock counts as passed only if the buffer says so before the session
  exact fun hpassed => Bool.noConfusion hpassed.2

/-- The control fields are decided and reported, the acknowledgements before the
channel state, each exactly if it was sent. -/
theorem exists_controlReports (h : Suits r block buffer grid pdu)
    (hsinks : FieldSinks.Gathered (fields r pdu block buffer) sinks n) (state : ChannelState) :
    ∃ ack csi1 : Option UciField,
      sinks.controlReports state = .ok ((ack.map (Report.harqAck · state)).toList ++
        (csi1.map (Report.csiPart1 · state)).toList) ∧
      (ack.isSome ↔ 0 < pdu.uci.ackBits) ∧ (csi1.isSome ↔ 0 < pdu.uci.csi1Bits) := by
  obtain ⟨ackBits, hack⟩ := hsinks.harqAck
  obtain ⟨csi1Bits, hcsi1⟩ := hsinks.csiPart1
  obtain ⟨ack, hackField, hackIff⟩ := exists_field pdu ackBits h.accepted.ackBits_le
  obtain ⟨csi1, hcsi1Field, hcsi1Iff⟩ := exists_field pdu csi1Bits h.accepted.csi1Bits_le
  refine ⟨ack, csi1, ?_, hackIff, hcsi1Iff⟩
  rw [FieldSinks.controlReports, hack, hcsi1, fields]
  dsimp only
  rw [hackField, ok_bind, hcsi1Field]
  rfl

end Suits

end Receiver

end Uplink
