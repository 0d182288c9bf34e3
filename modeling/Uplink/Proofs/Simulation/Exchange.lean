import Uplink.Proofs.Checked
import Uplink.Simulation.Device

/-!
# Exchanges with a receiver

What a device does in a slot does not depend on what chance decides or on how its receiver works: the
receiver is handed a combining buffer and the parameters of the attempt, and gives back reports, a
block and a buffer.

- `Exchange`: what is handed over in a slot, and what comes back.
- `Device.exchange`, `Device.exchanges`: a slot and several slots with any source and with any
  processor in the place of the receiver.
- `Device.runFrom`: slots with any sources; with the receiver itself they are exchanges.
- `Device.Attempted`: all that a slot does to a device that sends blocks.
- `Device.exchange_eq_ok`: every slot does this.
-/

namespace Uplink

namespace Simulation

/-- An outcome that can be computed is known. Comparing the whole outcome would
take an equality of states that nothing else needs. -/
theorem Outcome.exists_ok {α : Type} {x : Outcome α}
    (h : (x.run.toOption.bind Except.toOption).isSome = true) : ∃ a, x.run = .ok (.ok a) := by
  obtain ⟨a, ha⟩ := Option.isSome_iff_exists.mp h
  obtain ⟨outcome, houtcome, ha⟩ := Option.bind_eq_some_iff.mp ha
  cases hrun : x.run with
  | error fault =>
    rw [hrun] at houtcome
    cases houtcome
  | ok found =>
    rw [hrun] at houtcome
    obtain rfl := Option.some.inj houtcome
    cases found with
    | error e => cases ha
    | ok b => exact ⟨b, rfl⟩

/-! ## Counts -/

namespace Statistics

variable (s : Statistics) (reports : List Report) (sent : Payload)

/-- The counts of transmissions and blocks. -/
def blockCounts : Nat × Nat × Nat × Nat :=
  (s.transmissions, s.firstTransmissions, s.delivered, s.dropped)

@[simp] theorem blockCounts_addFields : (s.addFields reports sent).blockCounts = s.blockCounts := by
  by_cases hack : sent.harqAck.isEmpty <;> by_cases hcsi1 : sent.csiPart1.isEmpty <;>
    simp [addFields, blockCounts, hack, hcsi1]

@[simp] theorem blockCounts_addState :
    (s.addState reports).blockCounts =
      (s.transmissions + 1, s.firstTransmissions, s.delivered, s.dropped) := by
  unfold addState
  split <;> rfl

theorem blockCounts_addBlock (attempt : Nat) (received : Bool) (outcome : BlockOutcome) :
    (s.addBlock attempt received outcome).blockCounts =
      (s.transmissions, s.firstTransmissions + if attempt = 0 then 1 else 0,
        s.delivered + if outcome = .delivered then 1 else 0,
        s.dropped + if outcome = .dropped then 1 else 0) := by
  by_cases hfirst : attempt = 0 <;> cases outcome <;> simp [addBlock, blockCounts, hfirst]

end Statistics

/-! ## Exchanges -/

/-- What receives for a device: any function in the place of
`BufferedReceiver.receive`. -/
abbrev Processor :=
  BufferedReceiver → Bytes → HarqBuffer → ResourceGrid → Pdu →
    Checked (Received × BufferedReceiver)

/-- It leaves buffers with as many codeblocks as it is given. -/
def Processor.KeepsCount (process : Processor) : Prop :=
  ∀ receiver block buffer grid pdu received receiver',
    process receiver block buffer grid pdu = .ok (received, receiver') →
      received.buffer.count = buffer.count

/-- What passes between a device and its processor in a slot. -/
structure Exchange where
  /-- The block that is sent. -/
  data : Bytes
  /-- The parameters of the attempt. -/
  pdu : Pdu
  /-- The combining buffer that is handed over. -/
  buffer : HarqBuffer
  /-- What comes back. -/
  received : Received

/-- The block was received. -/
def Exchange.succeeded (x : Exchange) : Bool :=
  Device.blockReceived x.received.reports x.received.block ⟨x.data, 0⟩

variable [Randomness]

/-- A slot of a device: what decides for chance in it, and what receives. -/
structure Call where
  source : Source
  process : Processor
  slot : SlotPoint

namespace Device

/-! ## Slots -/

/-- Send in a slot, with what the source decides, and have it received by the
processor. -/
def exchange (d : Device) (call : Call) : Outcome (Exchange × Device) := do
  let (payload, d) := (d.beginSlot call.source call.slot).takePayload call.source
  let (grid, d) ← d.send call.source payload
  let (buffer, d) ← d.reserve
  let (received, receiver) ←
    call.process d.receiver (Array.replicate d.data.size 0) buffer grid d.pdu
  let left := { d with receiver, pool := d.pool.update d.harqId received.buffer }
  return (⟨d.data, d.pdu, buffer, received⟩,
    left.account payload received.reports received.block)

/-- Slots one after the other, each with a source and a processor of its own. -/
def exchanges (d : Device) : List Call → Outcome (List Exchange × Device)
  | [] => return ([], d)
  | call :: calls => do
    let (x, d) ← d.exchange call
    let (xs, d) ← d.exchanges calls
    return (x :: xs, d)

variable {d d' : Device} {source : Source} {call : Call} {slot : SlotPoint} {x : Exchange}

/-- With the receiver of the device this is its slot. -/
theorem runSlotFrom_eq (d : Device) (source : Source) (slot : SlotPoint) :
    d.runSlotFrom source slot =
      Prod.snd <$> d.exchange ⟨source, BufferedReceiver.receive, slot⟩ := by
  simp only [runSlotFrom, exchange, receive, bind_assoc, pure_bind, map_bind, map_pure]

/-- Slots one after the other, each with a source of its own. -/
def runFrom (d : Device) (steps : List (Source × SlotPoint)) : Outcome Device :=
  steps.foldlM (fun d step => d.runSlotFrom step.1 step.2) d

/-- A run with the generators of the device is one with this source in every
slot. -/
theorem foldlM_runSlot_eq_runFrom (d : Device) (slots : List SlotPoint) :
    slots.foldlM runSlot d = d.runFrom (slots.map fun slot => (Source.drawn, slot)) := by
  rw [runFrom, List.foldlM_map]
  rfl

/-- With its receiver these are exchanges, whatever the sources are. -/
theorem runFrom_eq (d : Device) (steps : List (Source × SlotPoint)) :
    d.runFrom steps = Prod.snd <$> d.exchanges
      (steps.map fun step => ⟨step.1, BufferedReceiver.receive, step.2⟩) := by
  induction steps generalizing d with
  | nil => simp only [runFrom, List.foldlM_nil, List.map_nil, exchanges, map_pure]
  | cons step steps ih =>
    have hcons : d.runFrom (step :: steps) =
        d.runSlotFrom step.1 step.2 >>= fun d => d.runFrom steps := List.foldlM_cons
    simp only [hcons, List.map_cons, exchanges, runSlotFrom_eq, ih, map_eq_pure_bind, bind_assoc,
      pure_bind]

/-! ## Attempts -/

/-- What becomes of the block after an exchange. -/
def outcome (d : Device) (x : Exchange) : BlockOutcome :=
  PendingBlock.outcome ⟨x.data, d.attempt⟩ d.maxRetransmissions x.succeeded

/-- A slot of a device that sends blocks, with parameters `p` before it. The
source of the slot does not occur: a pending block is sent again, and for a new
one any data will do. -/
structure Attempted (d : Device) (p : BlockParameters) (slot : SlotPoint) (x : Exchange)
    (d' : Device) : Prop where
  data_eq : ∀ b ∈ d.pending, x.data = b.data
  pdu_eq : x.pdu =
    { d.pdu with
      slot
      block := some { p with rv := PendingBlock.rvOf d.attempt, newData := d.attempt == 0 } }
  /-- The pool has a buffer for the codeblocks of the block, and keeps what comes back of it until
  the block is finished. -/
  granted : ∃ segmentation pool,
    Segmentation.ofSize p.base (x.data.size * 8) = .ok segmentation ∧
    (d.pool.expire slot).reserve slot d.harqId segmentation.blocks (d.attempt == 0) =
      .ok (x.buffer, pool) ∧
    d'.pool =
      if d.outcome x = .again then pool.update d.harqId x.received.buffer
      else (pool.update d.harqId x.received.buffer).release d.harqId
  pending_eq : d'.pending = PendingBlock.after ⟨x.data, d.attempt⟩ (d.outcome x)
  next_pdu : d'.pdu = x.pdu
  settings_eq : d'.settings = d.settings
  maxRetransmissions_eq : d'.maxRetransmissions = d.maxRetransmissions
  transmissions : d'.statistics.transmissions = d.statistics.transmissions + 1
  firstTransmissions : d'.statistics.firstTransmissions =
    d.statistics.firstTransmissions + if d.attempt = 0 then 1 else 0
  delivered : d'.statistics.delivered =
    d.statistics.delivered + if d.outcome x = .delivered then 1 else 0
  dropped : d'.statistics.dropped =
    d.statistics.dropped + if d.outcome x = .dropped then 1 else 0

variable {p : BlockParameters} {payload : Payload} {grid : ResourceGrid} {buffer : HarqBuffer}

/-- A slot begins with a block, the pending one if there is one, and the
parameters of its next attempt. -/
theorem beginSlot_eq (hp : d.pdu.block = some p) (source : Source) (slot : SlotPoint) :
    ∃ data generator, (∀ b ∈ d.pending, data = b.data) ∧ d.beginSlot source slot =
      { d with
        pool := d.pool.expire slot
        generator
        pending := some ⟨data, d.attempt⟩
        pdu :=
          { d.pdu with
            slot
            block := some
              { p with rv := PendingBlock.rvOf d.attempt, newData := d.attempt == 0 } } } := by
  cases hpending : d.pending with
  | none =>
    refine ⟨(source.bytes d.generator d.blockBytes).1, (source.bytes d.generator d.blockBytes).2,
      fun b hb => absurd hb (Option.not_mem_none b), ?_⟩
    simp [beginSlot, takeBlock, setAttempt, attempt, hp, hpending]
  | some b =>
    refine ⟨b.data, d.generator, fun c hc => congrArg PendingBlock.data (Option.some.inj hc), ?_⟩
    simp [beginSlot, takeBlock, setAttempt, attempt, hp, hpending]

/-- Sending leaves all but the graphs and the channel as they are, so the
pending block and the pool are still those of the slot. -/
theorem send_eq_ok (h : (d.send source payload).run = .ok (.ok (grid, d'))) :
    ∃ graphs channel, d' = { d with graphs, channel } := by
  obtain ⟨⟨written, graphs⟩, -, h⟩ := run_bind_eq_ok.mp h
  dsimp only at h
  cases herror : written.error? with
  | some e =>
    rw [herror] at h
    cases h
  | none =>
    rw [herror] at h
    cases h
    exact ⟨_, _, rfl⟩

/-- A device with a block has been granted a buffer for its codeblocks. -/
theorem reserve_eq_ok (hp : d.pdu.block = some p)
    (h : d.reserve.run = .ok (.ok (buffer, d'))) :
    ∃ segmentation pool, Segmentation.ofSize p.base (d.data.size * 8) = .ok segmentation ∧
      d.pool.reserve d.pdu.slot d.harqId segmentation.blocks p.newData = .ok (buffer, pool) ∧
      d' = { d with pool } := by
  rw [reserve, hp] at h
  obtain ⟨segmentation, hsegmentation, h⟩ := run_bind_eq_ok.mp h
  obtain ⟨⟨granted, pool⟩, hpool, h⟩ := run_bind_eq_ok.mp h
  cases h
  refine ⟨segmentation, pool, run_lift_eq_ok.mp hsegmentation, ?_, rfl⟩
  cases hreserve : d.pool.reserve d.pdu.slot d.harqId segmentation.blocks p.newData with
  | error e =>
    rw [hreserve] at hpool
    cases hpool
  | ok a =>
    rw [hreserve] at hpool
    cases hpool
    rfl

/-! ## Accounting -/

/-- An attempt at the pending block is accounted for by its outcome: delivered,
dropped or to be repeated. -/
theorem account_eq {b : PendingBlock} {sent : Payload} {reports : List Report} {decoded : Bytes}
    (h : d.account sent reports decoded = d') (hpending : d.pending = some b) :
    ∃ statistics, d' =
      { d with
        statistics
        pending :=
          b.after (b.outcome d.maxRetransmissions (blockReceived reports decoded b))
        pool :=
          if b.outcome d.maxRetransmissions (blockReceived reports decoded b) = .again then d.pool
          else d.pool.release d.harqId } ∧
      statistics.blockCounts =
        (d.statistics.transmissions + 1,
          d.statistics.firstTransmissions + if b.attempt = 0 then 1 else 0,
          d.statistics.delivered +
            if b.outcome d.maxRetransmissions (blockReceived reports decoded b) = .delivered then 1
            else 0,
          d.statistics.dropped +
            if b.outcome d.maxRetransmissions (blockReceived reports decoded b) = .dropped then 1
            else 0) := by
  have hstate := d.statistics.blockCounts_addState reports
  simp only [Statistics.blockCounts, Prod.mk.injEq] at hstate
  obtain ⟨htransmissions, hfirst, hdelivered, hdropped⟩ := hstate
  refine ⟨((d.statistics.addState reports).addBlock b.attempt (blockReceived reports decoded b)
    (b.outcome d.maxRetransmissions (blockReceived reports decoded b))).addFields reports sent,
    ?_, ?_⟩
  · rw [← h]
    simp only [account, accountBlock, hpending]
    rfl
  · rw [Statistics.blockCounts_addFields, Statistics.blockCounts_addBlock, htransmissions, hfirst,
      hdelivered, hdropped]

/-- All that a slot does, with any source and any processor. What follows about
runs is derived from this record and opens no stage of the slot again. -/
theorem exchange_eq_ok {call : Call} (hp : d.pdu.block = some p)
    (h : (d.exchange call).run = .ok (.ok (x, d'))) : d.Attempted p call.slot x d' := by
  obtain ⟨data, generator, hdata, hbegin⟩ := d.beginSlot_eq hp call.source call.slot
  rw [exchange, hbegin] at h
  obtain ⟨⟨grid, sent⟩, hsend, h⟩ := run_bind_eq_ok.mp h
  obtain ⟨graphs, channel, rfl⟩ := send_eq_ok hsend
  obtain ⟨⟨buffer, reserved⟩, hreserve, h⟩ := run_bind_eq_ok.mp h
  obtain ⟨segmentation, pool, hsegmentation, hpool, rfl⟩ := reserve_eq_ok rfl hreserve
  obtain ⟨⟨received, receiver⟩, -, h⟩ := run_bind_eq_ok.mp h
  dsimp only at h
  obtain ⟨rfl, hleft⟩ := Prod.mk.inj (run_pure_eq_ok.mp h)
  -- the block that is accounted for is the one that was taken in the beginning
  obtain ⟨statistics, rfl, hcounts⟩ := account_eq hleft rfl
  simp only [Statistics.blockCounts, Prod.mk.injEq] at hcounts
  obtain ⟨htransmissions, hfirst, hdelivered, hdropped⟩ := hcounts
  exact
    { data_eq := hdata
      pdu_eq := rfl
      granted := ⟨segmentation, pool, hsegmentation, hpool, rfl⟩
      pending_eq := rfl
      next_pdu := rfl
      settings_eq := rfl
      maxRetransmissions_eq := rfl
      transmissions := htransmissions
      firstTransmissions := hfirst
      delivered := hdelivered
      dropped := hdropped }

theorem count_of_exchange {call : Call} (hprocess : call.process.KeepsCount)
    (h : (d.exchange call).run = .ok (.ok (x, d'))) :
    x.received.buffer.count = x.buffer.count := by
  unfold exchange at h
  obtain ⟨⟨grid, sent⟩, -, h⟩ := run_bind_eq_ok.mp h
  obtain ⟨⟨buffer, reserved⟩, -, h⟩ := run_bind_eq_ok.mp h
  obtain ⟨⟨received, receiver⟩, hreceived, h⟩ := run_bind_eq_ok.mp h
  obtain ⟨rfl, -⟩ := Prod.mk.inj (run_pure_eq_ok.mp h)
  exact hprocess _ _ _ _ _ _ _ (run_lift_eq_ok.mp hreceived)

/-- Every exchange of a run leaves as many codeblocks in its buffer. -/
theorem count_of_exchanges {calls : List Call} {log : List Exchange}
    (hcalls : ∀ call ∈ calls, call.process.KeepsCount)
    (h : (d.exchanges calls).run = .ok (.ok (log, d'))) :
    ∀ x ∈ log, x.received.buffer.count = x.buffer.count := by
  induction calls generalizing d log with
  | nil =>
    cases h
    exact fun x hx => nomatch hx
  | cons call calls ih =>
    obtain ⟨hcall, hcalls⟩ := List.forall_mem_cons.mp hcalls
    obtain ⟨⟨x, next⟩, hx, h⟩ := run_bind_eq_ok.mp h
    obtain ⟨⟨xs, last⟩, hxs, h⟩ := run_bind_eq_ok.mp h
    cases h
    exact List.forall_mem_cons.mpr ⟨count_of_exchange hcall hx, ih hcalls hxs⟩

end Device

end Simulation

end Uplink
