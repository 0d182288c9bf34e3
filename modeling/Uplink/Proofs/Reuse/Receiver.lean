import Uplink.Proofs.Receiver.Reception
import Uplink.Proofs.Reuse.Demodulation
import Uplink.Proofs.Reuse.Estimation
import Uplink.Proofs.TransportBlock.SideBySide
import Uplink.Reuse.Receiver

/-!
# Nothing passes from one transmission to the next

A receiver that keeps its estimate, its decoder and all its buffers answers to a transmission as a
new one does: with the same reports, the same transport block and the same combining buffer, or with
the same fault.

- `FieldSinks.Abreast`: fields that differ in what their decoder did before.
- `BufferedReceiver.Ready`: receivers between two transmissions.
- `Ready.receive_alike`: such a receiver receives as any receiver without buffers does.
- `BufferedReceiver.receive_after`: after any transmissions a receiver answers as before the first.
-/

namespace Uplink

/-! ## Fields -/

/-- Soft bits are collected alike, as they join what is alike already. -/
theorem Reception.push_alike {r r' : Reception} (h : r.Abreast r') (softBits : Array SoftBit) :
    Alike Abreast (r.push softBits) (r'.push softBits) := by
  obtain ⟨settings, ⟨ldpc, collected⟩, buffer, block, finished⟩ := r
  obtain ⟨settings', ⟨ldpc', collected'⟩, buffer', block', finished'⟩ := r'
  obtain ⟨rfl, rfl, rfl, rfl, hcount, hbuffer⟩ := h
  unfold push
  dsimp only
  refine .after _ fun _ _ => .after _ fun _ _ => .ok ⟨rfl, rfl, rfl, rfl, hcount, hbuffer⟩

namespace FieldSinks

/-- What the fields of one transmission have in common in two receivers. -/
structure Abreast (sinks sinks' : FieldSinks) : Prop where
  sch : Option.Rel Reception.Abreast sinks.sch sinks'.sch
  harqAck_eq : sinks.harqAck = sinks'.harqAck
  csiPart1_eq : sinks.csiPart1 = sinks'.csiPart1

variable {sinks sinks' : FieldSinks}

theorem deliver_alike (h : sinks.Abreast sinks') (d : Delivery) :
    Alike Abreast (sinks.deliver d) (sinks'.deliver d) := by
  obtain ⟨sch, harqAck, csiPart1⟩ := sinks
  obtain ⟨sch', harqAck', csiPart1'⟩ := sinks'
  obtain ⟨hsch, rfl, rfl⟩ := h
  obtain ⟨stream, softBits⟩ := d
  cases stream with
  | sch =>
    exact (Alike.optionMapM hsch fun _ _ h => Reception.push_alike h softBits).bind
      fun _ _ h => .ok ⟨h, rfl, rfl⟩
  | harqAck => exact .ok ⟨hsch, rfl, rfl⟩
  | csiPart1 => exact .ok ⟨hsch, rfl, rfl⟩

/-- A block of the codeword is taken apart alike, by demultiplexers at one
place. -/
theorem consume_alike {state state' : Demultiplexer × FieldSinks} (hd : state.1 = state'.1)
    (h : state.2.Abreast state'.2) (block : Array SoftBit) :
    Alike (fun x x' => x.1 = x'.1 ∧ x.2.Abreast x'.2) (consume state block)
      (consume state' block) := by
  obtain ⟨d, sinks⟩ := state
  obtain ⟨d', sinks'⟩ := state'
  obtain rfl : d = d' := hd
  unfold consume
  dsimp only
  refine .after _ fun routed _ => ?_
  refine (Alike.foldlM (fun _ => Abreast) h fun _ delivery _ _ _ _ h =>
    deliver_alike h delivery).bind fun _ _ h => .ok ⟨rfl, h⟩

theorem Abreast.controlReports_eq (h : sinks.Abreast sinks') (state : ChannelState) :
    sinks.controlReports state = sinks'.controlReports state := by
  rw [controlReports, controlReports, h.harqAck_eq, h.csiPart1_eq]

end FieldSinks

/-! ## Receivers without buffers -/

namespace Receiver

variable {r r' : Receiver} {block : Bytes} {buffer : HarqBuffer} {pdu : Pdu}

theorem startBlock_alike (h : r.settings = r'.settings) (parameters : BlockParameters) :
    Alike Reception.Abreast (r.startBlock pdu parameters buffer block)
      (r'.startBlock pdu parameters buffer block) := by
  unfold startBlock Reception.start
  rw [h]
  exact .after _ fun limit _ => .after _ fun _ _ => .ok ⟨rfl, rfl, rfl, rfl, rfl, fun _ => rfl⟩

/-- The end of a codeword is the same, and leaves the settings and the estimate.
The decoders may differ, before it as after it. -/
theorem finishBlock_alike {reception reception' : Option Reception}
    (h : Option.Rel Reception.Abreast reception reception') (state : ChannelState) :
    Alike (fun x x' => x.1 = x'.1 ∧ x.2.settings = r.settings ∧ x.2.estimate = r.estimate)
      (r.finishBlock reception state buffer block)
      (r'.finishBlock reception' state buffer block) := by
  cases h with
  | none => exact .ok ⟨rfl, rfl, rfl⟩
  | some h =>
    refine (Reception.finish_alike h).bind ?_
    rintro ⟨result, reception⟩ ⟨_, reception'⟩ ⟨rfl, hblock, hbuffer⟩
    dsimp only at hblock hbuffer ⊢
    rw [hblock, hbuffer]
    exact .ok ⟨rfl, rfl, rfl⟩

end Receiver

/-! ## Receivers with buffers -/

namespace BufferedReceiver

variable {settings : ReceiverSettings} {b fresh : BufferedReceiver} {r : Receiver}
  {block : Bytes} {buffer : HarqBuffer} {grid : ResourceGrid} {pdu : Pdu}

/-- A receiver between two transmissions. Nothing is said of its buffers. -/
structure Ready (settings : ReceiverSettings) (b : BufferedReceiver) : Prop where
  settings_eq : b.receiver.settings = settings
  dims_eq : b.receiver.estimate.dims = Receiver.dimensions settings
  complete : b.receiver.estimate.Complete

/-- There is a receiver with buffers exactly for the supported settings, and it
is the fresh one. -/
theorem create_eq_ok : create settings = .ok b ↔
    settings.Supported ∧ b = ⟨Receiver.fresh settings, ReceiverMemory.fresh⟩ := by
  rw [create]
  constructor
  · intro h
    cases hr : Receiver.create settings with
    | error e =>
      rw [hr] at h
      cases h
    | ok r =>
      obtain ⟨hsupported, rfl⟩ := Receiver.create_eq_ok.mp hr
      rw [hr] at h
      exact ⟨hsupported, (Except.ok.inj h).symm⟩
  · rintro ⟨hsupported, rfl⟩
    rw [Receiver.create_eq_ok.mpr ⟨hsupported, rfl⟩]
    rfl

theorem ready_of_create (h : create settings = .ok b) : b.Ready settings := by
  obtain ⟨-, rfl⟩ := create_eq_ok.mp h
  exact ⟨rfl, rfl, LeastSquares.complete_zeros _⟩

namespace Ready

/-- The channel is estimated as without buffers, on any complete estimate of the
right dimensions. -/
theorem estimateChannel_alike (hb : b.Ready settings)
    (hdims : r.estimate.dims = Receiver.dimensions settings) (mask : Array Bool) :
    Alike (fun x e => x.1 = e ∧ e.Complete ∧ e.dims = Receiver.dimensions settings)
      (b.estimateChannel grid pdu mask) (r.estimateChannel grid pdu mask) := by
  unfold estimateChannel Receiver.estimateChannel
  refine .after _ fun q _ => ?_
  refine (EstimationRequest.estimateInPlace_alike b.memory.estimator hb.complete
    (hb.dims_eq.trans hdims.symm)).bind ?_
  rintro ⟨estimate, memory⟩ _ ⟨rfl, hcomplete, hestimate⟩
  rw [hdims] at hestimate
  cases hdc : pdu.dcSubcarrier with
  | none => exact .ok ⟨rfl, hcomplete, hestimate⟩
  | some dc =>
    refine (Alike.refl (R := fun e e' => e = e' ∧ estimate.clearSubcarrier dc = .ok e') _
      fun e he => ⟨rfl, he⟩).bind_left ?_
    rintro e _ ⟨rfl, he⟩
    obtain ⟨hclearedDims, hcleared⟩ := hcomplete.of_clearSubcarrier he
    exact ⟨_, rfl, rfl, hcleared, hclearedDims.trans hestimate⟩

/-- A receiver with buffers receives as one without them, and is ready again. -/
theorem receiveAccepted_alike (hb : b.Ready settings) (hr : r.settings = settings)
    (hdims : r.estimate.dims = Receiver.dimensions settings) :
    Alike (fun x x' => x.1 = x'.1 ∧ x.2.Ready settings) (b.receiveAccepted block buffer grid pdu)
      (r.receiveAccepted block buffer grid pdu) := by
  have hsettings : b.receiver.settings = r.settings := hb.settings_eq.trans hr.symm
  unfold receiveAccepted Receiver.receiveAccepted
  refine .after _ fun mask _ => .after _ fun budget _ => ?_
  refine (hb.estimateChannel_alike hdims mask).bind ?_
  rintro ⟨estimate, estimator⟩ _ ⟨rfl, hcomplete, hestimate⟩
  dsimp only at hcomplete hestimate ⊢
  refine .after _ fun sinr _ => ?_
  have hblock : Option.Rel (· = ·) pdu.block pdu.block := by
    cases pdu.block with
    | none => exact .none
    | some parameters => exact .some rfl
  refine (Alike.optionMapM (T := Reception.Abreast) hblock fun parameters _ h =>
    h ▸ Receiver.startBlock_alike hsettings parameters).bind fun sch sch' hsch => ?_
  refine .after _ fun demultiplexer _ => ?_
  -- the consumers of the soft bits differ in their receptions, which go on abreast
  refine (DemodulationRequest.runInPlace_alike
    (T := fun x x' : Demultiplexer × FieldSinks => x.1 = x'.1 ∧ x.2.Abreast x'.2)
    (fun _ _ block h => FieldSinks.consume_alike h.1 h.2 block) b.memory.demodulator
    ?start).bind ?_
  case start => exact ⟨rfl, hsch, rfl, rfl⟩
  rintro ⟨statistics, ⟨rest, sinks⟩, demodulator⟩ ⟨_, _, sinks'⟩ ⟨rfl, rfl, hsinks⟩
  dsimp only at hsinks ⊢
  rw [hsettings]
  refine .after _ fun _ _ => ?_
  refine (Receiver.finishBlock_alike hsinks.sch _).bind ?_
  rintro ⟨received, receiver⟩ ⟨_, receiver'⟩ ⟨rfl, hreceiver, hleft⟩
  dsimp only at hreceiver hleft ⊢
  rw [hsinks.controlReports_eq]
  refine .after _ fun control _ => .ok ⟨rfl, ?_⟩
  constructor
  case settings_eq => exact hreceiver.trans hr
  case dims_eq => exact hleft ▸ hestimate
  case complete => exact hleft ▸ hcomplete

/-- The same for any transmission, accepted or not: the check reads the settings
only. -/
theorem receive_alike (hb : b.Ready settings) (hr : r.settings = settings)
    (hdims : r.estimate.dims = Receiver.dimensions settings) :
    Alike (fun x x' => x.1 = x'.1 ∧ x.2.Ready settings) (b.receive block buffer grid pdu)
      (r.receive block buffer grid pdu) := by
  unfold receive Receiver.receive
  rw [hb.settings_eq, hr]
  refine .after _ fun verdict _ => ?_
  cases verdict with
  | error e => exact .fault _
  | ok _ => exact hb.receiveAccepted_alike hr hdims

/-- What is received is the same with buffers as without them. -/
theorem map_receive_eq (hb : b.Ready settings) (hr : r.settings = settings)
    (hdims : r.estimate.dims = Receiver.dimensions settings) :
    Except.map Prod.fst (b.receive block buffer grid pdu) =
      Except.map Prod.fst (r.receive block buffer grid pdu) :=
  (hb.receive_alike hr hdims).map_eq fun _ _ hx => hx.1

/-- A receiver with buffers answers whenever one without them does. -/
theorem exists_receive (hb : b.Ready settings) (hr : Receiver.Serves settings r)
    (h : r.Suits block buffer grid pdu) (hafford : r.Affords block pdu) :
    ∃ received b', b.receive block buffer grid pdu = .ok (received, b') := by
  obtain ⟨hready, hsettings⟩ := hr.ready
  obtain ⟨received, r', _, _, _, _, hreceive, -⟩ := h.exists_receive hready hafford
  obtain ⟨⟨received, b'⟩, hanswer, -⟩ :=
    (hb.receive_alike hsettings (hsettings ▸ hready.dims_eq)).exists_ok_left hreceive
  exact ⟨received, b', hanswer⟩

theorem receive (hb : b.Ready settings) {received : Received} {b' : BufferedReceiver}
    (h : b.receive block buffer grid pdu = .ok (received, b')) : b'.Ready settings := by
  obtain ⟨x, -, -, hready⟩ := (hb.receive_alike hb.settings_eq hb.dims_eq).exists_ok h
  exact hready

/-- A receiver is ready for the next transmission after any number of them, by
induction on these. -/
theorem receiveEach (hb : b.Ready settings) {transmissions : List Transmission}
    {b' : BufferedReceiver} (h : b.receiveEach transmissions = .ok b') : b'.Ready settings := by
  refine foldlM_invariant (fun _ b => b.Ready settings) h hb fun _ t _ b₁ b₂ _ hb₁ hnext => ?_
  obtain ⟨⟨received, left⟩, hreceive, hnext⟩ := bind_eq_ok.mp hnext
  obtain rfl := Except.ok.inj hnext
  exact hb₁.receive hreceive

end Ready

/-- Whatever a receiver received before, it answers to a further transmission as
a new one does: with the same reports, the same transport block and the same
combining buffer. -/
theorem receive_after {earlier : List Transmission} (hfresh : create settings = .ok fresh)
    (h : fresh.receiveEach earlier = .ok b) (t : Transmission) :
    Except.map Prod.fst (b.receive t.block t.buffer t.grid t.pdu) =
      Except.map Prod.fst (fresh.receive t.block t.buffer t.grid t.pdu) := by
  have hb := (ready_of_create hfresh).receiveEach h
  have hnew := ready_of_create hfresh
  calc Except.map Prod.fst (b.receive t.block t.buffer t.grid t.pdu)
      = Except.map Prod.fst (fresh.receiver.receive t.block t.buffer t.grid t.pdu) :=
        hb.map_receive_eq hnew.settings_eq hnew.dims_eq
    _ = Except.map Prod.fst (fresh.receive t.block t.buffer t.grid t.pdu) :=
        (hnew.map_receive_eq hnew.settings_eq hnew.dims_eq).symm

/-- A transmission of all fields through an empty slot. -/
def smallTransmission : Transmission :=
  ⟨#[0xA5], HarqBuffer.ofCount 1, ResourceGrid.zeros 1 14 1, Receiver.smallPdu⟩

theorem receive_after_small : ∃ fresh b received,
    create Receiver.smallSettings = .ok fresh ∧ fresh.receiveEach [smallTransmission] = .ok b ∧
    Except.map Prod.fst (fresh.receive #[0xA5] (HarqBuffer.ofCount 1) (ResourceGrid.zeros 1 14 1)
      Receiver.smallPdu) = .ok received ∧
    Except.map Prod.fst (b.receive #[0xA5] (HarqBuffer.ofCount 1) (ResourceGrid.zeros 1 14 1)
      Receiver.smallPdu) = .ok received := by
  have hcreate : create Receiver.smallSettings =
      .ok ⟨Receiver.smallReceiver, ReceiverMemory.fresh⟩ := rfl
  obtain ⟨received, b, hreceive⟩ := (ready_of_create hcreate).exists_receive
    (.created (rfl : Receiver.create Receiver.smallSettings = .ok Receiver.smallReceiver))
    (Receiver.smallReceiver_provides.suits fun _ _ => by decide) Receiver.smallReceiver_affords
  have hanswer : Except.map Prod.fst (receive ⟨Receiver.smallReceiver, ReceiverMemory.fresh⟩ #[0xA5]
      (HarqBuffer.ofCount 1) (ResourceGrid.zeros 1 14 1) Receiver.smallPdu) = .ok received := by
    rw [hreceive]
    rfl
  have hused : receiveEach ⟨Receiver.smallReceiver, ReceiverMemory.fresh⟩ [smallTransmission] =
      .ok b := by
    rw [receiveEach, List.foldlM_cons, smallTransmission, hreceive]
    rfl
  exact ⟨_, b, received, hcreate, hused, hanswer,
    (receive_after hcreate hused smallTransmission).trans hanswer⟩

end BufferedReceiver

end Uplink
