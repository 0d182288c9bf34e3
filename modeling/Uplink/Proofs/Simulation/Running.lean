import Uplink.Proofs.Simulation.Operation
import Uplink.Simulation.Draws

/-!
# Devices run

A device runs through any number of slots exactly if its circular buffers hold more than fillers.
Nothing else that is accepted stops it, as long as control information takes at most all elements
and the machine can count what is sent.

- `Device.Created`: devices as they are created.
- `Operates.exists_runFrom`: slots one after the other complete.
- `Device.runs_iff_hasRoom`: which devices run.
-/

namespace Uplink

namespace Simulation

section Running

variable [Randomness]

namespace Device

variable {s : Settings} {d : Device}

/-- All slots complete, by induction on the slots with a source each. -/
theorem Operates.exists_runFrom (h : d.Operates s) (hs : s.InReach) (hroom : s.HasRoom)
    {steps : List (Source × SlotPoint)} (hsteps : ∀ step ∈ steps, step.1.Fits) :
    ∃ d', (d.runFrom steps).run = .ok (.ok d') ∧ d'.Operates s := by
  induction steps generalizing d with
  | nil => exact ⟨d, rfl, h⟩
  | cons step steps ih =>
    obtain ⟨hstep, hsteps⟩ := List.forall_mem_cons.mp hsteps
    obtain ⟨next, hnext, hoperates⟩ := h.exists_runSlotFrom hs hroom hstep step.2
    obtain ⟨d', hrest, hd'⟩ := ih hoperates hsteps
    refine ⟨d', ?_, hd'⟩
    rw [runFrom, List.foldlM_cons]
    exact run_bind_eq_ok.mpr ⟨next, hnext, hrest⟩

/-! ## Devices as they are created -/

/-- A device of accepted settings before its first slot, with any channel and
any seed. -/
structure Created (s : Settings) (scs : SubcarrierSpacing) (device : DeviceSettings) (d : Device) :
    Prop where
  receiver_eq : BufferedReceiver.create (receiverSettings s) = .ok d.receiver
  pdu_eq : (firstPdu s scs device).run = .ok (.ok d.pdu)
  check : (d.pdu.check (receiverSettings s).limits).run = .ok (.ok ())
  blocks_eq : d.blocks = s.carrier.blocks
  blockBytes_eq : d.blockBytes = s.transmission.blockBytes
  pool_eq : d.pool = HarqPool.empty HarqPoolSettings.standard
  pending_eq : d.pending = none

omit [Randomness] in
theorem Outcome.ofExcept_eq_ok {ε α : Type} {wrap : ε → DeviceError} {x : Except ε α} {a : α} :
    (Outcome.ofExcept wrap x).run = .ok (.ok a) ↔ x = .ok a := by
  cases x with
  | ok b => exact run_pure_eq_ok.trans (by rw [Except.ok.injEq])
  | error e => exact iff_of_false (fun h => nomatch h) (fun h => nomatch h)

/-- A device that has been created has passed all the checks of its settings. -/
theorem created_of_create {scs : SubcarrierSpacing} {device : DeviceSettings} {seed : UInt64}
    (h : (create s scs device seed).run = .ok (.ok d)) : d.Created s scs device := by
  obtain ⟨receiver, hreceiver, h⟩ := run_bind_eq_ok.mp h
  obtain ⟨pdu, hpdu, h⟩ := run_bind_eq_ok.mp h
  obtain ⟨verdict, hverdict, h⟩ := run_bind_eq_ok.mp h
  obtain ⟨u, hok, h⟩ := run_bind_eq_ok.mp h
  rw [Outcome.ofExcept_eq_ok] at hreceiver hok
  obtain ⟨hsettings, -, -⟩ := BufferedReceiver.ready_of_create hreceiver
  have hcheck := run_lift_eq_ok.mp hverdict
  rw [hok, hsettings] at hcheck
  cases hchannel : Channel.ofSnr device.snrDb seed with
  | none =>
    rw [hchannel] at h
    cases h
  | some channel =>
    rw [hchannel] at h
    cases h
    exact ⟨hreceiver, hpdu, hcheck, rfl, rfl, rfl, rfl⟩

omit [Randomness] in
/-- The first transmission is one of the settings. What it takes from them is
read off its definition. -/
theorem sends_firstPdu {scs : SubcarrierSpacing} {device : DeviceSettings} {pdu : Pdu}
    (h : (firstPdu s scs device).run = .ok (.ok pdu))
    (hcheck : (pdu.check (receiverSettings s).limits).run = .ok (.ok ())) : s.Sends pdu := by
  obtain ⟨block, hblock, h⟩ := run_bind_eq_ok.mp h
  obtain ⟨mask, -, h⟩ := run_bind_eq_ok.mp h
  obtain rfl := run_pure_eq_ok.mp h
  obtain ⟨bits, hbits, hblock⟩ := bind_eq_ok.mp (run_lift_eq_ok.mp hblock)
  obtain ⟨-, rfl⟩ := Size.mul_eq_ok.mp hbits
  have hblock := Except.ok.inj hblock
  constructor
  case check => exact hcheck
  case cyclicPrefix_eq => rfl
  case rxPorts_eq => rfl
  case alpha_eq => rfl
  case limitBytes_eq => rfl
  case contiguous => exact ⟨_, _, rfl⟩
  case isSome_block =>
    show block.isSome = true ↔ _
    rw [← hblock]
    by_cases hzero : s.transmission.blockBytes * 8 = 0
    · rw [if_pos hzero]
      exact iff_of_false Bool.false_ne_true (fun hne => by omega)
    · rw [if_neg hzero]
      exact iff_of_true rfl (by omega)
  case parameters =>
    intro p hp
    change p ∈ block at hp
    rw [← hblock] at hp
    split at hp
    · cases hp
    · obtain rfl := Option.some.inj hp
      exact ⟨rfl, Nat.zero_lt_succ 3⟩

theorem Created.operates {scs : SubcarrierSpacing} {device : DeviceSettings}
    (h : d.Created s scs device) : d.Operates s := by
  constructor
  case supported => exact (BufferedReceiver.create_eq_ok.mp h.receiver_eq).1
  case blocks_eq => exact h.blocks_eq
  case blockBytes_eq => exact h.blockBytes_eq
  case sends => exact sends_firstPdu h.pdu_eq h.check
  case receiver => exact BufferedReceiver.ready_of_create h.receiver_eq
  case pool => exact h.pool_eq ▸ .empty d.harqId
  case size_pending =>
    rw [h.pending_eq]
    exact fun b hb => nomatch hb

/-- Every run completes, whatever its sources draw. -/
def Runs (d : Device) : Prop :=
  ∀ steps, (∀ step ∈ steps, Source.Fits step.1) → ∃ d', (d.runFrom steps).run = .ok (.ok d')

/-- Whatever is drawn, a device runs through all slots exactly if its circular
buffers hold more than fillers; otherwise it does not get through any slot. This
is true of every device that is created, in every slot and with the random
source of the simulation. -/
theorem runs_iff_hasRoom {scs : SubcarrierSpacing} {device : DeviceSettings} (hs : s.InReach)
    (hd : d.Created s scs device) :
    (d.Runs ↔ s.HasRoom) ∧
    (s.HasRoom → ∀ slots : List SlotPoint, ∃ d', (slots.foldlM runSlot d).run = .ok (.ok d')) ∧
    (¬ s.HasRoom → ∀ slot d', (d.runSlot slot).run ≠ .ok (.ok d')) ∧
    ∀ scs device seed e, (create s scs device seed).run = .ok (.ok e) →
      e.Created s scs device := by
  have hoperates := hd.operates
  have hruns : s.HasRoom → d.Runs := fun hroom steps hsteps => by
    obtain ⟨d', hrun, -⟩ := hoperates.exists_runFrom hs hroom hsteps
    exact ⟨d', hrun⟩
  refine ⟨⟨fun h => ?_, hruns⟩, fun hroom slots => ?_, fun hno slot d' hrun => ?_,
    fun scs device seed e => created_of_create⟩
  · obtain ⟨d', hrun⟩ := h [(Source.drawn, d.pdu.slot)]
      (List.forall_mem_singleton.mpr Source.fits_drawn)
    obtain ⟨next, hnext, -⟩ := run_bind_eq_ok.mp hrun
    exact hoperates.room_of_runSlotFrom Source.fits_drawn hnext
  · rw [foldlM_runSlot_eq_runFrom]
    refine hruns hroom _ fun step hstep => ?_
    obtain ⟨slot, -, rfl⟩ := List.mem_map.mp hstep
    exact Source.fits_drawn
  · exact hno (hoperates.room_of_runSlotFrom Source.fits_drawn hrun)

end Device

end Running

/-- One byte in each slot of one block, with a limit on the combining buffer. -/
def byteSettings (limitBytes : Nat) : Settings :=
  { carrier := { spacingKHz := 15, blocks := 1, rxPorts := 1, dcSubcarrier := some 6 }
    transmission :=
      { bwpSize := 1, blocks := 1, codeRate := 308, blockBytes := 1, dmrsSymbols := [2]
        ackBits := 1, betaAck := 2, betaCsi1 := 1.5, limitBytes }
    decoding := { iterations := 1 }
    devices := [⟨1, 0⟩] }

/-- A device with these settings before its first slot, behind a channel without
noise. -/
def byteDevice (limitBytes : Nat) : Device :=
  { settings := ⟨1, 0⟩
    pdu := { Receiver.smallPdu with limitBytes }
    blocks := 1
    blockBytes := 1
    maxRetransmissions := 3
    graphs := Ldpc.GraphStore.empty
    channel := ⟨Draws.ofSeed 1, ⟨0, 0⟩⟩
    receiver :=
      ⟨.fresh (Device.receiverSettings (byteSettings limitBytes)), ReceiverMemory.fresh⟩
    pool := HarqPool.empty HarqPoolSettings.standard
    generator := Draws.ofSeed 1
    pending := none
    statistics := {} }

theorem created_byteDevice (limitBytes : Nat) :
    (byteDevice limitBytes).Created (byteSettings limitBytes) .khz15 ⟨1, 0⟩ where
  receiver_eq := rfl
  pdu_eq := rfl
  check := by
    show (Receiver.smallPdu.check ⟨1, 4, 1⟩).run = _
    decide +kernel
  blocks_eq := rfl
  blockBytes_eq := rfl
  pool_eq := rfl
  pending_eq := rfl

/-- Sixteen of the forty message bits are fillers. -/
theorem ofSize_byteSettings (limitBytes : Nat) :
    Segmentation.ofSize (byteSettings limitBytes).transmission.graph
      ((byteSettings limitBytes).transmission.blockBytes * 8) =
        .ok ⟨.two, 1, 16, 0, 24, 4, 40, 16⟩ := by
  show Segmentation.ofSize (byteSettings 0).transmission.graph (1 * 8) = _
  decide +kernel

theorem inReach_byteSettings {limitBytes : Nat} (h : limitBytes ≤ 1) :
    (byteSettings limitBytes).InReach where
  alpha_le := by
    show ¬ (1 : Float32) < 1
    decide +kernel
  bytes_lt := by
    show 32 * 1 < Size.limit
    decide
  limit_lt _ := by
    show 3 * (limitBytes * 8) < Size.limit
    have hlimit : 24 < Size.limit := by decide
    omega
  iterations_lt seg hseg := by
    rw [← Except.ok.inj ((ofSize_byteSettings limitBytes).symm.trans hseg)]
    show 1 * 1 < Size.limit
    decide

/-- Without a limit the device runs. With a limit of one byte the circular
buffer has twelve positions, fewer than there are fillers: both settings are
accepted, but no slot completes. -/
theorem Device.runs_iff_hasRoom_byte :
    (byteDevice 0).Runs ∧ (byteSettings 1).check = .ok () ∧
    (byteDevice 1).Created (byteSettings 1) .khz15 ⟨1, 0⟩ ∧
    ∀ slot d', ((byteDevice 1).runSlot slot).run ≠ .ok (.ok d') := by
  have hunlimited := runs_iff_hasRoom (inReach_byteSettings (Nat.zero_le 1)) (created_byteDevice 0)
  have hlimited := runs_iff_hasRoom (inReach_byteSettings (Nat.le_refl 1)) (created_byteDevice 1)
  refine ⟨hunlimited.1.mpr fun seg hseg => ?_, rfl, created_byteDevice 1,
    hlimited.2.2.1 fun hroom => ?_⟩
  · rw [← Except.ok.inj ((ofSize_byteSettings 0).symm.trans hseg)]
    decide
  · exact absurd (hroom _ (ofSize_byteSettings 1)) (by decide)

end Simulation

end Uplink
