import Uplink.Proofs.TransportBlock.Session
import Uplink.Reuse.Receiver

/-!
# The codeblocks of a combining buffer

A reception fills the codeblocks of the buffer that it is given. It neither adds nor removes any.

- `Reception.count_of_finish`: the end of a codeword.
- `DemodulationRequest.runInPlace_invariant`: what holds of a consumer through a demodulation.
- `BufferedReceiver.count_of_receive`: a whole transmission.
-/

namespace Uplink

variable {n : Nat}

/-! ## Transport blocks -/

theorem Assembly.count_verify (a : Assembly) (blocks : Nat) :
    (a.verify blocks).2.count = a.buffer.count := by
  unfold verify
  split
  · split
    · rfl
    · exact HarqBuffer.count_clearPassed _
  · rfl

/-- The end of a codeword leaves a buffer of as many codeblocks. -/
theorem Reception.count_of_finish {r r' : Reception} {result : SchResult}
    (h : r.finish = .ok (result, r')) : r'.buffer.count = r.buffer.count := by
  unfold finish at h
  simp only [bind_eq_ok] at h
  obtain ⟨-, -, -, -, codeblocks, -, -, -, a, hloop, h⟩ := h
  obtain ⟨-, rfl⟩ := Prod.mk.inj (Except.ok.inj h)
  dsimp only
  rw [Assembly.count_verify]
  rw [← Array.foldlM_toList] at hloop
  refine foldlM_invariant (fun _ (a : Assembly) => a.buffer.count = r.buffer.count) hloop ?_
    fun _ block _ b b' _ hb hstep => ?_
  · split
    · exact HarqBuffer.count_clearPassed _
    · rfl
  · obtain ⟨c, i⟩ := block
    obtain ⟨new, -, -, -, hbuffer, -⟩ := Assembly.addBlock_eq_ok hstep
    rw [hbuffer, HarqBuffer.count_store, hb]

/-! ## Fields -/

namespace FieldSinks

/-- A transport block on its way has a buffer for so many codeblocks. -/
def Counts (n : Nat) (sinks : FieldSinks) : Prop := ∀ r ∈ sinks.sch, r.buffer.count = n

variable {sinks sinks' : FieldSinks}

/-- Soft bits that are delivered do not touch the buffer. -/
theorem Counts.deliver {d : Delivery} (h : sinks.Counts n) (hstep : sinks.deliver d = .ok sinks') :
    sinks'.Counts n := by
  unfold FieldSinks.deliver at hstep
  cases hstream : d.stream with
  | harqAck =>
    rw [hstream] at hstep
    obtain rfl := Except.ok.inj hstep
    exact h
  | csiPart1 =>
    rw [hstream] at hstep
    obtain rfl := Except.ok.inj hstep
    exact h
  | sch =>
    rw [hstream] at hstep
    obtain ⟨sch, hsch, hstep⟩ := bind_eq_ok.mp hstep
    obtain rfl := Except.ok.inj hstep
    intro r' hr'
    obtain rfl : sch = some r' := hr'
    cases hold : sinks.sch with
    | none =>
      rw [hold] at hsch
      cases hsch
    | some r =>
      rw [hold] at hsch
      obtain ⟨pushed, hpush, hsch⟩ := bind_eq_ok.mp hsch
      obtain ⟨-, -, rfl⟩ := Session.push_eq_ok.mp hpush
      obtain rfl := Option.some.inj (Except.ok.inj hsch)
      exact h r hold

theorem Counts.consume {state state' : Demultiplexer × FieldSinks} {block : Array SoftBit}
    (h : state.2.Counts n) (hstep : FieldSinks.consume state block = .ok state') :
    state'.2.Counts n := by
  obtain ⟨⟨deliveries, d⟩, -, hstep⟩ := bind_eq_ok.mp hstep
  obtain ⟨sinks, hloop, hstep⟩ := bind_eq_ok.mp hstep
  obtain rfl := Except.ok.inj hstep
  exact foldlM_invariant (fun _ sinks => sinks.Counts n) hloop h
    fun _ _ _ _ _ _ hb hstep => hb.deliver hstep

end FieldSinks

/-! ## Demodulation -/

namespace DemodulationRequest

variable {q : DemodulationRequest} {grid : ResourceGrid} {estimate : ChannelEstimate}
  {portNoise : Array Float32} {σ : Type} {consume : σ → Array SoftBit → Checked σ}

/-- What the consumer keeps with every block holds after some symbols. -/
theorem receiveAllInPlace_invariant (motive : σ → Prop)
    (hconsume : ∀ s block s', motive s → consume s block = .ok s' → motive s') :
    ∀ {count first : Nat} {memory memory' : DemodulatorMemory} {s s' : σ}
      {progress progress' : Progress}, motive s →
      q.receiveAllInPlace grid estimate portNoise consume first count memory (s, progress) =
        .ok (memory', s', progress') → motive s'
  | 0, _, _, _, _, _, _, _, hs, h => by
    cases h
    exact hs
  | count + 1, first, memory, memory', s, s', progress, progress', hs, h => by
    obtain ⟨⟨symbol, next⟩, -, h⟩ := bind_eq_ok.mp h
    dsimp only at h
    split at h
    · exact receiveAllInPlace_invariant motive hconsume hs h
    · obtain ⟨s₁, hs₁, h⟩ := bind_eq_ok.mp h
      exact receiveAllInPlace_invariant motive hconsume (hconsume _ _ _ hs hs₁) h

/-- What the consumer keeps with every block holds after the codeword. -/
theorem runInPlace_invariant (motive : σ → Prop)
    (hconsume : ∀ s block s', motive s → consume s block = .ok s' → motive s')
    {memory memory' : DemodulatorMemory} {s s' : σ} {statistics : DemodulationStatistics}
    (hs : motive s)
    (h : q.runInPlace memory grid estimate consume s = .ok (statistics, s', memory')) :
    motive s' := by
  unfold runInPlace at h
  simp only [bind_eq_ok] at h
  obtain ⟨-, -, -, -, _, -, _, -, ⟨_, _, _⟩, hall, h⟩ := h
  cases h
  exact receiveAllInPlace_invariant motive hconsume hs hall

end DemodulationRequest

/-! ## Transmissions -/

variable {block : Bytes} {buffer : HarqBuffer} {grid : ResourceGrid} {pdu : Pdu}
  {received : Received}

theorem Receiver.count_of_finishBlock {r r' : Receiver} {sinks : FieldSinks} {state : ChannelState}
    (hsinks : sinks.Counts buffer.count)
    (h : r.finishBlock sinks.sch state buffer block = .ok (received, r')) :
    received.buffer.count = buffer.count := by
  cases hsch : sinks.sch with
  | none =>
    rw [hsch] at h
    obtain ⟨rfl, -⟩ := Prod.mk.inj (Except.ok.inj h)
    rfl
  | some reception =>
    rw [hsch] at h
    obtain ⟨⟨result, finished⟩, hfinish, h⟩ := bind_eq_ok.mp h
    obtain ⟨rfl, -⟩ := Prod.mk.inj (Except.ok.inj h)
    exact (Reception.count_of_finish hfinish).trans (hsinks reception hsch)

namespace BufferedReceiver

/-- A transmission leaves a buffer with as many codeblocks as it was given,
whatever it holds for the transport block. -/
theorem count_of_receive {b b' : BufferedReceiver}
    (h : b.receive block buffer grid pdu = .ok (received, b')) :
    received.buffer.count = buffer.count := by
  obtain ⟨verdict, -, h⟩ := bind_eq_ok.mp h
  cases verdict with
  | error e => cases h
  | ok _ =>
    replace h : b.receiveAccepted block buffer grid pdu = .ok (received, b') := h
    unfold receiveAccepted at h
    simp only [bind_eq_ok] at h
    obtain ⟨mask, -, budget, -, ⟨estimate, estimator⟩, -, sinr, -, sch, hsch, demultiplexer, -,
      ⟨statistics, ⟨rest, sinks⟩, demodulator⟩, hrun, -, -, ⟨found, _⟩, hfinish, control, -, h⟩ := h
    obtain ⟨rfl, -⟩ := Prod.mk.inj (Except.ok.inj h)
    show found.buffer.count = buffer.count
    -- collecting the codeword keeps the count, and decoding it does
    suffices hcounts : sinks.Counts buffer.count from Receiver.count_of_finishBlock hcounts hfinish
    refine DemodulationRequest.runInPlace_invariant (fun state => state.2.Counts buffer.count)
      (fun _ _ _ hs hstep => hs.consume hstep) ?_ hrun
    intro reception hreception
    obtain rfl : sch = some reception := hreception
    cases hblock : pdu.block with
    | none =>
      rw [hblock] at hsch
      cases hsch
    | some parameters =>
      rw [hblock] at hsch
      obtain ⟨started, hstart, hsch⟩ := bind_eq_ok.mp hsch
      obtain rfl := Option.some.inj (Except.ok.inj hsch)
      obtain ⟨limit, -, hstart⟩ := bind_eq_ok.mp hstart
      obtain ⟨-, -, hstart⟩ := bind_eq_ok.mp hstart
      obtain rfl := Except.ok.inj hstart
      rfl

end BufferedReceiver

end Uplink
