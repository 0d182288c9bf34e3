import Uplink.Proofs.Harq.OneProcess
import Uplink.Proofs.Reuse.Receiver
import Uplink.Proofs.Simulation.Exchange
import Uplink.Proofs.Simulation.Source
import Uplink.Proofs.Transmitter

/-!
# Slots complete

A device between two slots takes what it sends, sends it, receives it and accounts for it, whatever
it draws and whatever the channel does.

- `Settings.InReach`, `Settings.HasRoom`: what the settings have to leave room for.
- `Device.Operates`: a device between two slots; `Device.Prepared`: a device about to send.
- `Operates.exists_runSlotFrom`: the next slot completes and leaves the device so.
- `Operates.room_of_runSlotFrom`: it does only if there is room.
-/

namespace Uplink

namespace Simulation

/-! ## Settings -/

/-- The graph of the transport blocks. -/
def TransmissionSettings.graph (t : TransmissionSettings) : Ldpc.BaseGraph :=
  selectBaseGraph (t.codeRate / 1024) (t.blockBytes * 8)

namespace Settings

/-- Control information takes at most all elements, and the machine can count
what is sent. -/
structure InReach (s : Settings) : Prop where
  alpha_le : ¬ 1 < s.transmission.alpha
  bytes_lt : 32 * s.transmission.blockBytes < Size.limit
  limit_lt : s.transmission.blockBytes ≠ 0 → 3 * (s.transmission.limitBytes * 8) < Size.limit
  iterations_lt : ∀ seg,
    Segmentation.ofSize s.transmission.graph (s.transmission.blockBytes * 8) = .ok seg →
      seg.blocks * s.decoding.iterations < Size.limit

/-- The circular buffers of the transport blocks hold more than fillers. -/
def HasRoom (s : Settings) : Prop := ∀ seg,
  Segmentation.ofSize s.transmission.graph (s.transmission.blockBytes * 8) = .ok seg →
    seg.fillers < seg.ringLength (s.transmission.limitBytes * 8)

/-- A transmission of the settings, in some slot and at some attempt. -/
structure Sends (s : Settings) (pdu : Pdu) : Prop where
  check : (pdu.check (Device.receiverSettings s).limits).run = .ok (.ok ())
  cyclicPrefix_eq : pdu.cyclicPrefix = .normal
  rxPorts_eq : pdu.rxPorts = List.range s.carrier.rxPorts
  alpha_eq : pdu.uci.alpha = s.transmission.alpha
  limitBytes_eq : pdu.limitBytes = s.transmission.limitBytes
  contiguous : ∃ first n, pdu.allocation = .contiguous first n
  isSome_block : pdu.block.isSome = true ↔ s.transmission.blockBytes ≠ 0
  parameters : ∀ p ∈ pdu.block, p.base = s.transmission.graph ∧ p.rv < 4

variable {s : Settings} {pdu : Pdu}

/-- Another slot and another attempt: neither the check nor the sizes depend on
them. -/
theorem Sends.again (h : s.Sends pdu) (slot : SlotPoint) {rv : Nat} (hrv : rv < 4)
    (newData : Bool) :
    s.Sends { pdu with slot, block := pdu.block.map fun p => { p with rv, newData } } where
  check := h.check
  cyclicPrefix_eq := h.cyclicPrefix_eq
  rxPorts_eq := h.rxPorts_eq
  alpha_eq := h.alpha_eq
  limitBytes_eq := h.limitBytes_eq
  contiguous := h.contiguous
  isSome_block := by
    rw [Option.isSome_map]
    exact h.isSome_block
  parameters := by
    intro p hp
    obtain ⟨first, hfirst, rfl⟩ := Option.map_eq_some_iff.mp hp
    exact ⟨(h.parameters first hfirst).1, hrv⟩

end Settings

theorem PendingBlock.rvOf_lt (attempt : Nat) : rvOf attempt < 4 := by
  have hlt : attempt % 4 < 4 := Nat.mod_lt _ (by decide)
  have hall : ∀ k < 4, rvSequence.getD k 0 < 4 := by decide
  exact hall _ hlt

/-- The data of a block stay the same over all attempts. -/
theorem PendingBlock.data_of_mem_after {b later : PendingBlock} {outcome : BlockOutcome}
    (h : later ∈ b.after outcome) : later.data = b.data := by
  cases outcome with
  | again =>
    obtain rfl := Option.some.inj h
    rfl
  | delivered => cases h
  | dropped => cases h

variable [Randomness]

namespace Device

variable {s : Settings} {d : Device} {payload : Payload} {source : Source} {slot : SlotPoint}

/-! ## Devices between two slots -/

/-- A device between two slots. -/
structure Operates (s : Settings) (d : Device) : Prop where
  supported : (receiverSettings s).Supported
  blocks_eq : d.blocks = s.carrier.blocks
  blockBytes_eq : d.blockBytes = s.transmission.blockBytes
  sends : s.Sends d.pdu
  receiver : d.receiver.Ready (receiverSettings s)
  pool : d.pool.OnlyFor d.harqId
  size_pending : ∀ b ∈ d.pending, b.data.size = s.transmission.blockBytes

/-- A device that has taken what it sends. -/
structure Prepared (s : Settings) (payload : Payload) (d : Device) : Prop extends
    d.Operates s where
  pending : d.pdu.block.isSome = true → d.pending.isSome = true
  fits : Receiver.Suits.Fits payload d.pdu d.data.size

/-- A pending block is there to be sent, whether it is kept from the slot before
or drawn anew. -/
theorem takeBlock_eq (source : Source) (d : Device) : ∃ pending generator,
    d.takeBlock source = { d with pending, generator } ∧
    (d.pdu.block.isSome = true → pending.isSome = true) ∧
    ∀ b ∈ pending, b ∈ d.pending ∨ b.data = (source.bytes d.generator d.blockBytes).1 := by
  rw [takeBlock]
  split
  case isTrue =>
    refine ⟨some ⟨(source.bytes d.generator d.blockBytes).1, 0⟩, _, rfl, fun _ => rfl, fun b hb => ?_⟩
    obtain rfl := Option.some.inj hb
    exact .inr rfl
  case isFalse hkept =>
    refine ⟨d.pending, d.generator, rfl, fun hsends => ?_, fun b hb => .inl hb⟩
    rw [hsends, Bool.true_and, Option.isNone_iff_eq_none] at hkept
    exact Option.isSome_iff_ne_none.mpr hkept

/-- Whatever the source, the device takes what it sends: a block of the right
size and as many control bits as are asked for. -/
theorem Operates.exists_prepared (h : d.Operates s) (hsource : source.Fits) (slot : SlotPoint) :
    ∃ payload d', (d.beginSlot source slot).takePayload source = (payload, d') ∧
      d'.Prepared s payload := by
  obtain ⟨pending, generator, htake, hpending, hdata⟩ := takeBlock_eq source
    { d with pool := d.pool.expire slot, pdu := { d.pdu with slot } }
  refine ⟨_, _, rfl, ?_⟩
  rw [beginSlot, htake]
  constructor
  case toOperates =>
    constructor
    case supported => exact h.supported
    case blocks_eq => exact h.blocks_eq
    case blockBytes_eq => exact h.blockBytes_eq
    case sends => exact h.sends.again slot (PendingBlock.rvOf_lt _) _
    case receiver => exact h.receiver
    case pool => exact h.pool.expire slot
    case size_pending =>
      intro b hb
      rcases hdata b hb with hkept | hnew
      · exact h.size_pending b hkept
      · rw [hnew, hsource.size_bytes]
        exact h.blockBytes_eq
  case pending =>
    intro hsends
    exact hpending (Option.isSome_map.symm.trans hsends)
  case fits => exact ⟨rfl, hsource.size_bits _ _, hsource.size_bits _ _⟩

namespace Prepared

theorem size_data (h : d.Prepared s payload) {p : BlockParameters} (hp : d.pdu.block = some p) :
    d.data.size = s.transmission.blockBytes := by
  obtain ⟨b, hb⟩ := Option.isSome_iff_exists.mp (h.pending (by rw [hp]; rfl))
  rw [data, hb]
  exact h.size_pending b hb

/-- The receiver of the settings before its first transmission. -/
theorem serves (h : d.Prepared s payload) :
    Receiver.Serves (receiverSettings s) (.fresh (receiverSettings s)) :=
  .created (Receiver.create_eq_ok.mpr ⟨h.supported, rfl⟩)

section Provision

variable {buffer : HarqBuffer} {grid : ResourceGrid}

/-- The receiver is given all that it needs: a buffer for the codeblocks and a
grid of its slot. -/
theorem provision (h : d.Prepared s payload)
    (hbuffer : ∀ p ∈ d.pdu.block, ∀ seg,
      Segmentation.ofSize p.base (d.data.size * 8) = .ok seg → buffer.count = seg.blocks)
    (hports : grid.ports = d.pdu.rxPorts.length) (hsymbols : grid.symbols = symbols)
    (hblocks : grid.blocks = d.blocks) :
    Receiver.Provision (.fresh (receiverSettings s)) (Array.replicate d.data.size 0) buffer grid
      d.pdu := by
  have haccepted := Pdu.check_eq_ok h.sends.check
  constructor
  case check => exact h.sends.check
  case distinct =>
    intro blocks hlisted
    obtain ⟨first, n, hcontiguous⟩ := h.sends.contiguous
    rw [hcontiguous] at hlisted
    cases hlisted
  case transportBlock =>
    intro p hp
    have hne := h.sends.isSome_block.mp (by rw [hp]; rfl)
    constructor
    case rv_lt => exact (h.sends.parameters p hp).2
    case block_ne => rwa [Array.size_replicate, h.size_data hp]
    case count => rw [Array.size_replicate]; exact hbuffer p hp
  case covers_ports =>
    intro port hport
    rw [h.sends.rxPorts_eq] at hport hports
    rw [hports, List.length_range]
    exact List.mem_range.mp hport
  case covers_symbols =>
    rw [hsymbols, symbols, ← h.sends.cyclicPrefix_eq]
    exact haccepted.symbols
  case covers_blocks =>
    rw [hblocks, h.blocks_eq]
    exact haccepted.bandwidth

/-- What is sent suits the receiver. The room in the circular buffers is all
that the check of the settings leaves open. -/
theorem suits (h : d.Prepared s payload) (hs : s.InReach) (hroom : s.HasRoom)
    (hbuffer : ∀ p ∈ d.pdu.block, ∀ seg,
      Segmentation.ofSize p.base (d.data.size * 8) = .ok seg → buffer.count = seg.blocks)
    (hports : grid.ports = d.pdu.rxPorts.length) (hsymbols : grid.symbols = symbols)
    (hblocks : grid.blocks = d.blocks) :
    Receiver.Suits (.fresh (receiverSettings s)) (Array.replicate d.data.size 0) buffer grid
      d.pdu := by
  have hlimit := h.sends.limitBytes_eq
  constructor
  case toProvision => exact h.provision hbuffer hports hsymbols hblocks
  case alpha =>
    rw [h.sends.alpha_eq]
    exact Budget.isPart_of_not_lt hs.alpha_le
  case room =>
    intro p hp
    rw [Array.size_replicate, h.size_data hp, (h.sends.parameters p hp).1, hlimit]
    exact hroom
  case limit_lt =>
    intro p hp
    rw [hlimit]
    exact hs.limit_lt (h.sends.isSome_block.mp (by rw [hp]; rfl))
  case bytes_lt =>
    intro p hp
    have hlt := hs.bytes_lt
    rw [Array.size_replicate, h.size_data hp]
    omega

end Provision

/-- The machine can count the iterations of the receiver. -/
theorem affords (h : d.Prepared s payload) (hs : s.InReach) :
    (Receiver.fresh (receiverSettings s)).Affords (Array.replicate d.data.size 0) d.pdu := by
  intro p hp
  rw [Array.size_replicate, h.size_data hp, (h.sends.parameters p hp).1]
  exact hs.iterations_lt

/-- The pool has a buffer for the attempt, with one place for each codeblock. -/
theorem exists_reserve (h : d.Prepared s payload) (hs : s.InReach) :
    ∃ buffer pool, d.reserve.run = .ok (.ok (buffer, { d with pool })) ∧
      pool.OnlyFor d.harqId ∧ ∀ p ∈ d.pdu.block, ∀ seg,
        Segmentation.ofSize p.base (d.data.size * 8) = .ok seg → buffer.count = seg.blocks := by
  rw [reserve]
  cases hblock : d.pdu.block with
  | none => exact ⟨_, d.pool, rfl, h.pool, fun p hp => absurd hp (Option.not_mem_none p)⟩
  | some p =>
    have hne := h.sends.isSome_block.mp (by rw [hblock]; rfl)
    have hbytes := h.size_data hblock
    have hlt := hs.bytes_lt
    obtain ⟨seg, hseg⟩ : ∃ seg, Segmentation.ofSize p.base (d.data.size * 8) = .ok seg :=
      Segmentation.exists_ofSize p.base (by omega) (by omega)
    obtain ⟨buffer, pool, hreserve, hcount, hpool⟩ :=
      h.pool.exists_reserve d.pdu.slot seg.blocks p.newData
    refine ⟨buffer, pool, ?_, hpool, fun p' hp' seg' hseg' => ?_⟩
    · dsimp only
      refine run_bind_eq_ok.mpr ⟨seg, run_lift_eq_ok.mpr hseg, ?_⟩
      rw [hreserve]
      rfl
    · obtain rfl := Option.some.inj hp'
      rw [hcount, Except.ok.inj (hseg.symm.trans hseg')]

/-- The payload is sent, and every port observes a slot, whatever is observed in
it. -/
theorem exists_send (h : d.Prepared s payload) (hs : s.InReach) (hroom : s.HasRoom)
    (hsource : source.Fits) :
    ∃ grid graphs channel,
      (d.send source payload).run = .ok (.ok (grid, { d with graphs, channel })) ∧
      grid.ports = d.pdu.rxPorts.length ∧ grid.symbols = symbols ∧ grid.blocks = d.blocks := by
  obtain ⟨buffer, -, -, -, hbuffer⟩ := h.exists_reserve hs
  have hsuits := h.suits hs hroom hbuffer
    (rfl : (ResourceGrid.zeros d.pdu.rxPorts.length symbols d.blocks).ports = _) rfl rfl
  have hfits : Receiver.Suits.Fits payload d.pdu (Array.replicate d.data.size (0 : UInt8)).size := by
    rw [Array.size_replicate]
    exact h.fits
  obtain ⟨target, graphs, htransmit, hextent⟩ := hsuits.exists_transmit h.serves.ready.1 hfits
    (Nat.le_refl _ : _ ≤ (ResourceGrid.zeros d.pdu.layers symbols d.blocks).ports)
    hsuits.covers_symbols hsuits.covers_blocks d.graphs
  refine ⟨(source.propagate d.channel target d.pdu.rxPorts.length).1, graphs,
    (source.propagate d.channel target d.pdu.rxPorts.length).2, ?_, hsource.ports_eq _ _ _,
    (hsource.symbols_eq _ _ _).trans hextent.symbols_eq,
    (hsource.blocks_eq _ _ _).trans hextent.blocks_eq⟩
  rw [send]
  dsimp only
  refine run_bind_eq_ok.mpr ⟨_, run_lift_eq_ok.mpr htransmit, ?_⟩
  rfl

/-- What is observed is received: the receiver answers whatever stands in the
grid. -/
theorem exists_receive (h : d.Prepared s payload) (hs : s.InReach) (hroom : s.HasRoom)
    {grid : ResourceGrid} (hports : grid.ports = d.pdu.rxPorts.length)
    (hsymbols : grid.symbols = symbols) (hblocks : grid.blocks = d.blocks) :
    ∃ received d', (d.receive grid).run = .ok (.ok (received, d')) ∧ d'.Operates s := by
  obtain ⟨buffer, pool, hreserve, hpool, hbuffer⟩ := h.exists_reserve hs
  obtain ⟨received, receiver, hreceive⟩ := h.receiver.exists_receive h.serves
    (h.suits hs hroom hbuffer hports hsymbols hblocks) (h.affords hs)
  refine ⟨received, { d with receiver, pool := pool.update d.harqId received.buffer }, ?_, ?_⟩
  · rw [receive]
    refine run_bind_eq_ok.mpr ⟨_, hreserve, ?_⟩
    dsimp only
    exact run_bind_eq_ok.mpr ⟨_, run_lift_eq_ok.mpr hreceive, rfl⟩
  · exact { h.toOperates with
      receiver := h.receiver.receive hreceive
      pool := hpool.update received.buffer }

end Prepared

/-- Accounting keeps the block or gives it up; in both cases the device operates
on. -/
theorem Operates.account (h : d.Operates s) (sent : Payload) (reports : List Report)
    (decoded : Bytes) : (d.account sent reports decoded).Operates s := by
  cases hpending : d.pending with
  | none =>
    rw [Device.account, accountBlock, hpending]
    exact { h with size_pending := fun b hb => h.size_pending b (hpending ▸ hb) }
  | some b =>
    obtain ⟨statistics, heq, -⟩ := account_eq rfl hpending
    rw [heq]
    refine { h with pool := ?_, size_pending := ?_ }
    · split
      · exact h.pool
      · exact h.pool.release
    · intro later hlater
      rw [PendingBlock.data_of_mem_after hlater]
      exact h.size_pending b hpending

/-! ## Slots -/

/-- The next slot completes, whatever is drawn, and leaves a device that
operates. -/
theorem Operates.exists_runSlotFrom (h : d.Operates s) (hs : s.InReach) (hroom : s.HasRoom)
    (hsource : source.Fits) (slot : SlotPoint) :
    ∃ d', (d.runSlotFrom source slot).run = .ok (.ok d') ∧ d'.Operates s := by
  obtain ⟨payload, taken, htaken, hprepared⟩ := h.exists_prepared hsource slot
  obtain ⟨grid, graphs, channel, hsend, hports, hsymbols, hblocks⟩ :=
    hprepared.exists_send hs hroom hsource
  -- sending changes nothing that the reception depends on
  have hsent : Prepared s payload { taken with graphs, channel } := { hprepared with }
  obtain ⟨received, d', hreceive, hoperates⟩ :=
    hsent.exists_receive hs hroom hports hsymbols hblocks
  refine ⟨_, ?_, hoperates.account payload received.reports received.block⟩
  rw [runSlotFrom, htaken]
  dsimp only
  refine run_bind_eq_ok.mpr ⟨_, hsend, ?_⟩
  dsimp only
  exact run_bind_eq_ok.mpr ⟨_, hreceive, rfl⟩

/-- A slot completes only if the circular buffers of the block hold more than
the fillers: without the room, sending already fails. -/
theorem Operates.room_of_runSlotFrom (h : d.Operates s) (hsource : source.Fits) {d' : Device}
    (hrun : (d.runSlotFrom source slot).run = .ok (.ok d')) : s.HasRoom := by
  obtain ⟨payload, taken, htaken, hprepared⟩ := h.exists_prepared hsource slot
  intro seg hseg
  have hne : s.transmission.blockBytes ≠ 0 := by
    have := (Segmentation.ofSize_eq_ok hseg).tbs_pos
    omega
  obtain ⟨p, hp⟩ := Option.isSome_iff_exists.mp (hprepared.sends.isSome_block.mpr hne)
  rw [runSlotFrom, htaken] at hrun
  obtain ⟨⟨grid, sent⟩, hsend, -⟩ := run_bind_eq_ok.mp hrun
  obtain ⟨⟨written, graphs⟩, htransmit, -⟩ := run_bind_eq_ok.mp hsend
  rw [← (hprepared.sends.parameters p hp).1, ← hprepared.size_data hp,
    ← hprepared.fits.block_eq] at hseg
  rw [← hprepared.sends.limitBytes_eq]
  exact Transmitter.room_of_transmit (run_lift_eq_ok.mp htransmit) hp hseg

end Device

end Simulation

end Uplink
