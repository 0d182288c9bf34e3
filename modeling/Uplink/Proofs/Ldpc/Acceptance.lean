import Uplink.Proofs.Crc
import Uplink.Proofs.Ldpc.Code
import Uplink.Proofs.Ldpc.Decoding
import Uplink.TransportBlock.Reception

/-!
# What an accepted codeblock guarantees

Whatever messages a decoding exchanges, its verdict is about the a-posteriori values that it ends
with, and its message is what is decided from the same values.

- `Workspace.Leans`: no value of the first variables is zero; `Workspace.passes_iff`.
- `Decoder.Decides`: a decision overwrites the whole message with the decisions on the last values.
- `Decoder.exists_decode_crc`, `Decoder.exists_decode_none`: what the decoder answers with and
  without a check, and exactly when it accepts.
- `Decoder.decode_sound`: both together, and what a receiver that uses either of them accepts.
-/

namespace Uplink

namespace Ldpc

namespace Workspace

variable {w w' : Workspace} {graph : LiftedGraph} {scale : Float32} {crc : Crc}
  {n k budget made : Nat}

/-! ## The last values -/

/-- None of the first `n` a-posteriori values is zero. -/
def Leans (w : Workspace) (n : Nat) : Prop := ∀ v < n, (w.posterior.getD v 0 == 0) = false

/-- Determined means that no value is zero. -/
theorem determined_iff (h : n ≤ w.posterior.size) : w.determined n = true ↔ w.Leans n := by
  rw [determined, Array.all_eq_true]
  constructor
  · intro hall v hv
    have hne := hall v (by rw [Array.size_extract]; omega)
    rw [Array.getElem_extract] at hne
    simp only [Nat.zero_add] at hne
    rw [Buffer.getD_of_lt (by omega)]
    simpa [bne] using hne
  · intro hleans v hv
    rw [Array.size_extract] at hv
    have hne := hleans v (by omega)
    rw [Buffer.getD_of_lt (by omega)] at hne
    rw [Array.getElem_extract]
    simp only [Nat.zero_add]
    simpa [bne] using hne

theorem passes_iff (h : n ≤ w.posterior.size) :
    w.passes crc n = true ↔ crc.ofBits (w.decisions n) = 0 ∧ w.Leans n := by
  rw [passes, Bool.and_eq_true, beq_iff_eq, determined_iff h]

/-- The sweep that is reported is one of the budget. -/
theorem lt_of_sweepUntil (h : w.sweepUntil graph scale crc n budget made = (some k, w')) :
    made < k ∧ k ≤ made + budget := by
  induction budget generalizing made w with
  | zero => cases h
  | succ budget ih =>
    rw [sweepUntil] at h
    split at h
    · obtain ⟨hk, -⟩ := Prod.mk.inj h
      obtain rfl := Option.some.inj hk
      omega
    · have := ih h
      omega

/-- When no sweep is reported, the last one left a message that does not pass.
-/
theorem not_passes_of_sweepUntil (hbudget : 0 < budget)
    (h : w.sweepUntil graph scale crc n budget made = (none, w')) : w'.passes crc n = false := by
  induction budget generalizing made w with
  | zero => exact absurd hbudget (Nat.lt_irrefl 0)
  | succ budget ih =>
    rw [sweepUntil] at h
    split at h
    · cases h
    · rename_i hfails
      cases budget with
      | zero =>
        obtain ⟨-, rfl⟩ := Prod.mk.inj h
        exact Bool.eq_false_iff.mpr hfails
      | succ budget => exact ih (Nat.succ_pos budget) h

end Workspace

namespace Decoder

variable {settings : DecoderSettings} {input : Array SoftBit}

/-! ## Decisions -/

/-- A decision fills the whole message with the decisions on the values that are
left. -/
structure Decides (settings : DecoderSettings) (decision : Decision) (w : Workspace) : Prop where
  values : w.posterior.size = settings.base.columns * settings.liftingSize
  size : decision.message.size = settings.base.messageLength settings.liftingSize
  only01 : decision.message.HasOnly01
  message : decision.message =
    w.decisions (settings.base.messageLength settings.liftingSize)

/-- The decisions on the variables that are sent. -/
def sentDecisions (settings : DecoderSettings) (w : Workspace) : Bits :=
  (w.decisions (settings.base.columns * settings.liftingSize)).extract
    (puncturedColumns * settings.liftingSize) (settings.base.columns * settings.liftingSize)

/-- The sizes that the decoder requires. -/
structure Ready (settings : DecoderSettings) (input : Array SoftBit) : Prop where
  liftingSize_mem : settings.liftingSize ∈ liftingSizes
  input_size : input.size = settings.base.sentLength settings.liftingSize
  fillers_le : settings.fillers ≤ settings.base.messageLength settings.liftingSize
  iterations_pos : 0 < settings.iterations

theorem variableCount_eq {graph : LiftedGraph} (hbase : graph.base = settings.base)
    (hz : graph.liftingSize = settings.liftingSize) :
    graph.variableCount = settings.base.columns * settings.liftingSize := by
  rw [LiftedGraph.variableCount, hbase, hz]

/-- They are the part of all decisions that an encoder sends of its codeword. -/
theorem sentDecisions_eq {graph : LiftedGraph} (hbase : graph.base = settings.base)
    (hz : graph.liftingSize = settings.liftingSize) {w : Workspace}
    (hsize : w.posterior.size = graph.variableCount) :
    sentDecisions settings w = graph.sentPart (w.decisions graph.variableCount) := by
  rw [LiftedGraph.sentPart, Workspace.size_decisions, hsize, Nat.min_self, sentDecisions,
    variableCount_eq hbase hz, hz]

theorem messageLength_le_columns (settings : DecoderSettings) :
    settings.base.messageLength settings.liftingSize ≤
      settings.base.columns * settings.liftingSize :=
  Nat.mul_le_mul_right _ (Nat.le_add_right _ _)

theorem significant_le (settings : DecoderSettings) :
    significant settings ≤ settings.base.messageLength settings.liftingSize :=
  Nat.sub_le _ _

theorem decides_of_size {decision : Decision} {w : Workspace}
    (hsize : w.posterior.size = settings.base.columns * settings.liftingSize)
    (hmessage : decision.message =
      w.decisions (settings.base.messageLength settings.liftingSize)) :
    Decides settings decision w where
  values := hsize
  size := by
    rw [hmessage, Workspace.size_decisions, hsize,
      Nat.min_eq_left (messageLength_le_columns settings)]
  only01 := hmessage ▸ w.decisions_only01 _
  message := hmessage

/-- The values are on all variables from the start. -/
theorem Ready.size_load (h : Ready settings input) {graph : LiftedGraph}
    (hbase : graph.base = settings.base) (hz : graph.liftingSize = settings.liftingSize) :
    (Workspace.load graph input).posterior.size = graph.variableCount := by
  refine Workspace.size_load ?_
  rw [h.input_size, hbase, hz]

/-- The decoder answers, with a graph of the right sizes. -/
theorem Ready.exists_decode (h : Ready settings input) (decoder : Decoder) (crc : Option Crc) :
    ∃ graph store, graph.base = settings.base ∧ graph.liftingSize = settings.liftingSize ∧
      decoder.decode settings crc input (settings.base.messageLength settings.liftingSize) =
        .ok (answer settings crc input graph store) := by
  obtain ⟨graph, store, hfetch⟩ :=
    decoder.store.exists_fetch settings.base h.liftingSize_mem
  obtain ⟨hbase, hz⟩ := GraphStore.fetch_eq_ok hfetch
  exact ⟨graph, store, hbase, hz, decode_eq_ok_iff.mpr
    ⟨graph, store, hfetch, h.input_size, rfl, h.iterations_pos, h.fillers_le, rfl⟩⟩

/-- With a check, a message is accepted exactly if it passes the check at the
end and each of its bits leans to one side. -/
theorem Ready.exists_decode_crc (h : Ready settings input) (decoder : Decoder) (crc : Crc) :
    ∃ decision decoder',
      decoder.decode settings (some crc) input
          (settings.base.messageLength settings.liftingSize) = .ok (decision, decoder') ∧
        Decides settings decision decoder'.workspace ∧
        (∀ n, decision.iterations = some n → 1 ≤ n ∧ n ≤ settings.iterations) ∧
        (decision.iterations.isSome = true ↔
          crc.ofBits (decision.message.extract 0 (significant settings)) = 0 ∧
            decoder'.workspace.Leans (significant settings)) := by
  obtain ⟨graph, store, hbase, hz, hdecode⟩ := h.exists_decode decoder (some crc)
  set swept := (Workspace.load graph input).sweepUntil graph settings.scale crc
    (significant settings) settings.iterations 0 with hswept
  obtain ⟨passed, w⟩ := swept
  have hanswer : answer settings (some crc) input graph store =
      (⟨passed, w.decisions (settings.base.messageLength settings.liftingSize)⟩, ⟨store, w⟩) := by
    simp only [answer, ← hswept]
  rw [hanswer] at hdecode
  have hsize : w.posterior.size = settings.base.columns * settings.liftingSize := by
    have hkept := @Workspace.size_sweepUntil graph settings.scale crc (significant settings) _
      (h.size_load hbase hz) settings.iterations 0
    rw [← hswept] at hkept
    rw [hkept, variableCount_eq hbase hz]
  have hvalues : significant settings ≤ w.posterior.size := by
    rw [hsize]
    exact Nat.le_trans (significant_le settings) (messageLength_le_columns settings)
  refine ⟨_, _, hdecode, decides_of_size hsize rfl, fun n hn => ?_, ?_⟩
  · obtain rfl : passed = some n := hn
    have := Workspace.lt_of_sweepUntil hswept.symm
    omega
  · -- the verdict of the last sweep is about the values that it left
    have hverdict : passed.isSome = true ↔ w.passes crc (significant settings) = true := by
      cases passed with
      | none =>
        rw [Workspace.not_passes_of_sweepUntil h.iterations_pos hswept.symm]
        exact Iff.rfl
      | some n => exact iff_of_true rfl (Workspace.passes_of_sweepUntil hswept.symm)
    rw [Workspace.passes_iff hvalues,
      Workspace.decisions_extract (significant_le settings)] at hverdict
    exact hverdict

/-- Without a check, a message is accepted exactly if encoding it gives the
decisions on all that is sent and each of its bits leans to one side. -/
theorem Ready.exists_decode_none (h : Ready settings input) (decoder : Decoder) :
    ∃ decision decoder',
      decoder.decode settings none input
          (settings.base.messageLength settings.liftingSize) = .ok (decision, decoder') ∧
        Decides settings decision decoder'.workspace ∧
        (decision.iterations = none ∨ decision.iterations = some settings.iterations) ∧
        ∀ store : GraphStore, ∃ sent store',
          encode store settings.base settings.liftingSize decision.message
              (settings.base.sentLength settings.liftingSize) = .ok (sent, store') ∧
            (decision.iterations = some settings.iterations ↔
              sent = sentDecisions settings decoder'.workspace ∧
                decoder'.workspace.Leans (significant settings)) := by
  obtain ⟨graph, store, hbase, hz, hdecode⟩ := h.exists_decode decoder none
  set w := (Workspace.load graph input).sweepAll graph settings.scale settings.iterations with hw
  have hload : w.posterior.size = graph.variableCount := by
    refine Workspace.sweepAll_induction (motive := fun w => w.posterior.size = graph.variableCount)
      (fun w hkept => ?_) (h.size_load hbase hz) _
    rw [Workspace.size_posterior_sweep, hkept]
  have hcount := variableCount_eq hbase hz
  have hword : (w.decisions graph.variableCount).size = graph.variableCount := by
    rw [Workspace.size_decisions, hload, Nat.min_self]
  have hvalues : significant settings ≤ w.posterior.size := by
    rw [hload, hcount]
    exact Nat.le_trans (significant_le settings) (messageLength_le_columns settings)
  -- all sweeps are made, and the verdict is about the values that the last one left
  set accepted := graph.satisfiedBy (w.decisions graph.variableCount) &&
    w.determined (significant settings) with haccepted
  have hanswer : answer settings none input graph store =
      (⟨if accepted then some settings.iterations else none,
        w.decisions (settings.base.messageLength settings.liftingSize)⟩, ⟨store, w⟩) := rfl
  rw [hanswer] at hdecode
  refine ⟨_, _, hdecode, decides_of_size (hload.trans hcount) rfl, ?_, fun other => ?_⟩
  · cases accepted with
    | true => exact .inr rfl
    | false => exact .inl rfl
  · have hmessage : w.decisions (settings.base.messageLength settings.liftingSize) =
        (w.decisions graph.variableCount).extract 0
          (graph.base.messageLength graph.liftingSize) := by
      rw [hbase, hz, hcount, ← Workspace.decisions_extract (messageLength_le_columns settings)]
    obtain ⟨hK, hN⟩ := settings.base.lengths_lt_limit h.liftingSize_mem
    obtain ⟨store', hfetch⟩ := other.fetch_of_graph graph
    rw [hbase, hz] at hfetch
    have hsize := graph.size_extract_message hword
    rw [← hmessage, hbase, hz] at hsize
    refine ⟨_, store', encode_eq hfetch hsize hK hN, ?_⟩
    show (if accepted then some settings.iterations else none) = some settings.iterations ↔ _
    rw [sentDecisions_eq hbase hz hload, hmessage, graph.sentPart_codeword_eq_iff hword,
      ← Workspace.determined_iff hvalues, ← Bool.and_eq_true, ← haccepted]
    cases accepted <;> simp

/-! ## Both modes -/

/-- What a receiver tells the decoder of a codeblock. -/
def settingsFor (reception : ReceptionSettings) (c : Codeblock) : DecoderSettings :=
  { base := c.base, liftingSize := c.liftingSize, fillers := c.fillers,
    iterations := reception.iterations, scale := ReceptionSettings.messageScale }

/-- In either mode a receiver gets a whole message, and one that it accepts
passes the check over the bits that are not fillers. -/
theorem exists_decodeBlock (decoder : Decoder) {reception : ReceptionSettings} {c : Codeblock}
    (crc : Crc) (h : Ready (settingsFor reception c) input) :
    ∃ decision decoder', reception.decodeBlock decoder crc c input c.messageLength =
        .ok (decision, decoder') ∧
      decision.message.size = c.messageLength ∧ decision.message.HasOnly01 ∧
      ∀ n, decision.iterations = some n → 1 ≤ n ∧ n ≤ reception.iterations ∧
        crc.ofBits (decision.message.extract 0 (c.messageLength - c.fillers)) = 0 := by
  unfold ReceptionSettings.decodeBlock
  dsimp only
  split
  · obtain ⟨decision, decoder', hdecode, hdecides, hbounds, haccepted⟩ :=
      h.exists_decode_crc decoder crc
    refine ⟨decision, decoder', hdecode, hdecides.size, hdecides.only01, fun n hn => ?_⟩
    obtain ⟨hlow, hhigh⟩ := hbounds n hn
    exact ⟨hlow, hhigh, (haccepted.mp (by rw [hn]; rfl)).1⟩
  · -- the decoder is not told the check, which is made on its message
    obtain ⟨decision, decoder', hdecode, hdecides, -, -⟩ := h.exists_decode_none decoder
    change decoder.decode (settingsFor reception c) none input c.messageLength = _ at hdecode
    rw [settingsFor] at hdecode
    rw [hdecode, ok_bind]
    refine ⟨_, decoder', rfl, hdecides.size, hdecides.only01, fun n hn => ?_⟩
    dsimp only at hn
    split at hn
    · rename_i haccepted
      obtain rfl := Option.some.inj hn
      rw [Bool.and_eq_true, beq_iff_eq] at haccepted
      exact ⟨h.iterations_pos, Nat.le_refl _, haccepted.2⟩
    · cases hn

/-- The decoder answers soft bits of every admitted size, whatever it decoded
before and whatever the scale of its messages: it fills the message with bits
that are decided from its last a-posteriori values. With a check it accepts,
after one of the sweeps of its budget, exactly the messages that pass the check
and none of whose values is zero. Without one it makes all sweeps and accepts
exactly the messages that encode to what was decided on the sent variables,
again with no value of zero. So what a receiver accepts in either mode passes
the check over the bits that it stores. -/
theorem decode_sound (decoder : Decoder) (h : Ready settings input) :
    (∀ crc : Crc, ∃ decision decoder',
      decoder.decode settings (some crc) input
          (settings.base.messageLength settings.liftingSize) = .ok (decision, decoder') ∧
        Decides settings decision decoder'.workspace ∧
        (∀ n, decision.iterations = some n → 1 ≤ n ∧ n ≤ settings.iterations) ∧
        (decision.iterations.isSome = true ↔
          crc.ofBits (decision.message.extract 0 (significant settings)) = 0 ∧
            decoder'.workspace.Leans (significant settings))) ∧
    (∃ decision decoder',
      decoder.decode settings none input
          (settings.base.messageLength settings.liftingSize) = .ok (decision, decoder') ∧
        Decides settings decision decoder'.workspace ∧
        (decision.iterations = none ∨ decision.iterations = some settings.iterations) ∧
        ∀ store : GraphStore, ∃ sent store',
          encode store settings.base settings.liftingSize decision.message
              (settings.base.sentLength settings.liftingSize) = .ok (sent, store') ∧
            (decision.iterations = some settings.iterations ↔
              sent = sentDecisions settings decoder'.workspace ∧
                decoder'.workspace.Leans (significant settings))) ∧
    ∀ (reception : ReceptionSettings) (c : Codeblock) (soft : Array SoftBit) (crc : Crc),
      Ready (settingsFor reception c) soft →
      ∃ decision decoder', reception.decodeBlock decoder crc c soft c.messageLength =
          .ok (decision, decoder') ∧
        decision.message.size = c.messageLength ∧ decision.message.HasOnly01 ∧
        ∀ n, decision.iterations = some n → 1 ≤ n ∧ n ≤ reception.iterations ∧
          crc.ofBits (decision.message.extract 0 (c.messageLength - c.fillers)) = 0 :=
  ⟨h.exists_decode_crc decoder, h.exists_decode_none decoder,
    fun _ _ _ crc hc => exists_decodeBlock decoder crc hc⟩

/-- The message of zeros is sent as zeros. -/
theorem sentPart_codeword_zeros (graph : LiftedGraph) :
    graph.sentPart (graph.codeword
        (Array.replicate (graph.base.messageLength graph.liftingSize) 0)) =
      Array.replicate (graph.base.sentLength graph.liftingSize) 0 := by
  have hle : graph.base.messageLength graph.liftingSize ≤ graph.variableCount :=
    Nat.mul_le_mul_right _ (Nat.le_add_right _ _)
  have hsatisfied : graph.satisfiedBy (Array.replicate graph.variableCount 0) = true := by
    refine graph.satisfiedBy_iff_meetsRow.mpr fun r _ i _ => ?_
    rw [LiftedGraph.checkSum]
    refine Array.foldl_induction (fun _ (sum : UInt8) => sum = 0) rfl fun e sum hsum => ?_
    rw [hsum, Array.getD_eq_getD_getElem?, Array.getElem?_replicate]
    split <;> rfl
  have hword := (graph.satisfiedBy_iff Array.size_replicate).mp hsatisfied
  rw [Array.extract_replicate, Nat.min_eq_left hle, Nat.sub_zero] at hword
  rw [hword, LiftedGraph.sentPart, Array.size_replicate, Array.extract_replicate, Nat.min_self,
    LiftedGraph.variableCount, ← Nat.sub_mul]
  rfl

/-- Soft bits that all favour a zero are accepted with the message of zeros by
the first of three sweeps, and then no value of the 16 bits before the fillers
is zero. -/
theorem decode_sound_two :
    Ready ⟨.two, 2, 4, 3, ReceptionSettings.messageScale⟩ (Array.replicate 100 ⟨10⟩) ∧
      ∃ decoder', fresh.decode ⟨.two, 2, 4, 3, ReceptionSettings.messageScale⟩ (some .crc16)
          (Array.replicate 100 ⟨10⟩) 20 = .ok (⟨some 1, Array.replicate 20 0⟩, decoder') ∧
        decoder'.workspace.Leans 16 := by
  set settings : DecoderSettings := ⟨.two, 2, 4, 3, ReceptionSettings.messageScale⟩
  have hready : Ready settings (Array.replicate 100 ⟨10⟩) := by
    constructor <;> decide
  obtain ⟨graph, hbuild⟩ := LiftedGraph.exists_build .two hready.liftingSize_mem
  obtain ⟨hbase, hz⟩ := LiftedGraph.build_eq_ok hbuild
  have hK : graph.base.messageLength graph.liftingSize = 20 := by
    rw [hbase, hz]
    rfl
  have hN : graph.base.sentLength graph.liftingSize = 100 := by
    rw [hbase, hz]
    rfl
  have hsent := sentPart_codeword_zeros graph
  rw [hK, hN] at hsent
  have hvalue : ∀ p < 100, ((Array.replicate 100 (⟨10⟩ : SoftBit)).getD p SoftBit.erased).favour =
      bitSide ((Array.replicate 100 (0 : UInt8)).getD p 0) := by
    intro p hp
    rw [Buffer.getD_of_lt (by simpa using hp), Buffer.getD_of_lt (by simpa using hp),
      Array.getElem_replicate, Array.getElem_replicate]
    decide
  -- the codeword of zeros is the one that all soft bits favour
  have hfavours : Favours graph (graph.codeword (Array.replicate 20 0))
      (Array.replicate 100 ⟨10⟩) := by
    constructor
    · rw [hN, Array.size_replicate]
    · intro p hp
      rw [Array.size_replicate] at hp
      rw [hsent]
      exact .inr (hvalue p hp)
    · intro p hp
      rw [hK] at hp
      rw [hsent]
      exact hvalue p (by omega)
  have hcheck : Crc.crc16.ofBits ((Array.replicate 20 (0 : UInt8)).extract 0
      (significant settings)) = 0 := by
    refine Crc.ofBits_of_zeros .crc16 fun b hb => ?_
    obtain ⟨i, hi, rfl⟩ := Array.getElem_of_mem hb
    rw [Array.getElem_extract, Array.getElem_replicate]
  have hscale : Single.KeepsSide settings.scale := Single.keepsSide_messageFactor
  obtain ⟨decoder', hdecode⟩ := fresh.decode_of_favours hbase hz hscale hready.iterations_pos
    (Bits.HasOnly01.zeros 20) (by rw [hK, Array.size_replicate])
    (by rw [Array.size_replicate]; decide) hcheck hfavours
  rw [Array.size_replicate] at hdecode
  -- the theorem applies to the very run that accepts it
  obtain ⟨_, _, hdecode', -, -, haccepted⟩ := (fresh.decode_sound hready).1 .crc16
  have hlength : settings.base.messageLength settings.liftingSize = 20 := rfl
  rw [hlength, hdecode] at hdecode'
  obtain ⟨rfl, rfl⟩ := Prod.mk.inj (Except.ok.inj hdecode')
  exact ⟨hready, decoder', hdecode, (haccepted.mp rfl).2⟩

end Decoder

end Ldpc

end Uplink
