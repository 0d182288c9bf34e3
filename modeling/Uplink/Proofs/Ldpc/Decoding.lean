import Uplink.Ldpc.MinSum
import Uplink.Proofs.Ldpc.Sweep
import Uplink.Proofs.SoftBit

/-!
# Decoding a codeblock

Two ends of the scale: soft bits that all favour the sent word, and soft bits that say nothing about
the parity bits.

- `Decoder.decode_of_favours`: the first are decoded in one sweep, whatever their magnitudes, if the
  sent systematic bits and the first two parity columns are known.
- `Decoder.decode_of_erased`: the second are rejected after any number of sweeps.
- `Decoder.decode_eq_ok_iff`: what a decision guarantees; an accepted message passes its check.
-/

namespace Uplink

namespace Ldpc

open Single

/-! ## The start -/

namespace Workspace

/-- A soft bit keeps its side in single precision. -/
theorem side_channelValue (a : SoftBit) : side (channelValue a) = some a.favour := by
  -- a soft bit is one of 256 values
  have hall : ∀ n : Fin 256, side (channelValue ⟨(UInt8.ofNat n).toInt8⟩) =
      some (SoftBit.favour ⟨(UInt8.ofNat n).toInt8⟩) := by
    decide +kernel
  have := hall ⟨a.value.toUInt8.toNat, UInt8.toNat_lt _⟩
  simpa using this

variable {graph : LiftedGraph} {input : Array SoftBit}

theorem size_load (hinput : input.size = graph.base.sentLength graph.liftingSize) :
    (load graph input).posterior.size = graph.variableCount := by
  have hcolumns : puncturedColumns ≤ graph.base.columns := by cases graph.base <;> decide
  simp only [load, Array.size_append, Array.size_replicate, Array.size_map, hinput,
    BaseGraph.sentLength, LiftedGraph.variableCount, ← Nat.add_mul]
  rw [Nat.add_sub_cancel' hcolumns]

/-- Nothing is known of a punctured variable; a sent one takes the side of its
soft bit. -/
theorem side_load (v : Nat) :
    side ((load graph input).posterior.getD v 0) =
      some (if v < puncturedColumns * graph.liftingSize then 0
        else (input.getD (v - puncturedColumns * graph.liftingSize) SoftBit.erased).favour) := by
  rw [Array.getD_eq_getD_getElem?, load, Array.getElem?_append, Array.size_replicate]
  split
  · rename_i h
    rw [Array.getElem?_replicate, if_pos h]
    rfl
  · rw [Array.getElem?_map, Array.getD_eq_getD_getElem?]
    cases input[v - puncturedColumns * graph.liftingSize]? with
    | none => rfl
    | some a => exact side_channelValue a

theorem side_load_messages (k : Nat) : side ((load graph input).messages.getD k 0) = some 0 := by
  rw [Array.getD_eq_getD_getElem?, load, Array.getElem?_replicate]
  split <;> rfl

end Workspace

/-! ## Decisions -/

namespace Workspace

variable {w : Workspace} {n : Nat}

@[simp] theorem size_decisions : (w.decisions n).size = min n w.posterior.size := by
  simp [decisions]

/-- Decisions are bits. -/
theorem decisions_only01 (w : Workspace) (n : Nat) : (w.decisions n).HasOnly01 := by
  intro b hb
  obtain ⟨x, -, rfl⟩ := Array.mem_map.mp hb
  split
  · exact .inr rfl
  · exact .inl rfl

/-- The decision on a settled variable is its bit. -/
theorem getD_decisions {word : Bits} (hbits : word.HasOnly01) {v : Nat} (hv : v < n)
    (hsize : v < w.posterior.size) (h : Settled word w v) :
    (w.decisions n).getD v 0 = word.getD v 0 := by
  have hget : (w.decisions n).getD v 0 = if w.posterior.getD v 0 < 0 then 1 else 0 := by
    rw [Buffer.getD_of_lt (by simp; omega), Buffer.getD_of_lt hsize]
    simp [decisions]
  rw [hget]
  have hside : side (w.posterior.getD v 0) = some (bitSide (word.getD v 0)) := h
  rcases hbits.getD v with hb | hb
  · rw [if_neg, hb]
    rw [lt_zero_iff, hside, hb]
    decide
  · rw [if_pos, hb]
    rw [lt_zero_iff, hside, hb]
    decide

/-- The decisions on a shorter part are the first of those on a longer one. -/
theorem decisions_extract {m : Nat} (h : m ≤ n) : w.decisions m = (w.decisions n).extract 0 m := by
  simp [decisions, Nat.min_eq_left h]

/-- Settled variables are determined, because each value has a side. -/
theorem determined_of_settled {word : Bits} (h : ∀ v < n, Settled word w v) :
    w.determined n = true := by
  rw [determined, Array.all_eq_true]
  intro v hv
  have hv' : v < n ∧ v < w.posterior.size := by simpa using hv
  have hside : side (w.posterior.getD v 0) = some (bitSide (word.getD v 0)) := h v hv'.1
  rw [Buffer.getD_of_lt hv'.2] at hside
  rw [Array.getElem_extract, bne_zero_iff]
  simp only [Nat.zero_add]
  rw [hside]
  exact fun heq => bitSide_ne_zero _ (Option.some.inj heq)

/-- A variable without a side is not determined, and one of them is enough to
reject a message. -/
theorem not_determined {v : Nat} (hv : v < n) (hsize : v < w.posterior.size)
    (h : side (w.posterior.getD v 0) = some 0) : w.determined n = false := by
  rw [← Bool.not_eq_true, determined, Array.all_eq_true]
  intro hall
  have := hall v (by simp; omega)
  rw [Array.getElem_extract, bne_zero_iff] at this
  simp only [Nat.zero_add] at this
  rw [Buffer.getD_of_lt hsize] at h
  exact this h

end Workspace

/-! ## Sweeps until the message passes -/

namespace Workspace

variable {graph : LiftedGraph} {scale : Float32} {crc : Crc} {n : Nat}

/-- A count of sweeps is reported for a message that passes. -/
theorem passes_of_sweepUntil {budget made k : Nat} {w w' : Workspace}
    (h : w.sweepUntil graph scale crc n budget made = (some k, w')) : w'.passes crc n = true := by
  induction budget generalizing made w with
  | zero => cases h
  | succ budget ih =>
    rw [sweepUntil] at h
    split at h
    · rename_i hpasses
      obtain ⟨-, rfl⟩ := Prod.mk.inj h
      exact hpasses
    · exact ih h

/-- What a sweep keeps holds after any number of sweeps. -/
theorem sweepAll_induction {motive : Workspace → Prop}
    (step : ∀ w, motive w → motive (w.sweep graph scale)) {w : Workspace} (start : motive w)
    (budget : Nat) : motive (w.sweepAll graph scale budget) := by
  induction budget generalizing w with
  | zero => exact start
  | succ budget ih => exact ih (step w start)

theorem size_sweepUntil {w : Workspace} (h : w.posterior.size = graph.variableCount)
    (budget made : Nat) :
    (w.sweepUntil graph scale crc n budget made).2.posterior.size = graph.variableCount := by
  induction budget generalizing w made with
  | zero => exact h
  | succ budget ih =>
    have hkept : (w.sweep graph scale).posterior.size = graph.variableCount := by
      rw [size_posterior_sweep, h]
    rw [sweepUntil]
    split
    · exact hkept
    · exact ih hkept (made + 1)

/-- A message that never passes exhausts the budget. -/
theorem sweepUntil_eq_none {motive : Workspace → Prop}
    (step : ∀ w, motive w → motive (w.sweep graph scale))
    (fails : ∀ w, motive w → w.passes crc n = false) {w : Workspace} (start : motive w)
    (budget made : Nat) : (w.sweepUntil graph scale crc n budget made).1 = none := by
  induction budget generalizing w made with
  | zero => rfl
  | succ budget ih =>
    have hkept := step w start
    rw [sweepUntil]
    rw [if_neg (by rw [fails _ hkept]; exact Bool.false_ne_true)]
    exact ih hkept (made + 1)

end Workspace

/-! ## The decoder -/

namespace Decoder

variable {decoder decoder' : Decoder} {settings : DecoderSettings} {crc : Option Crc}
  {input : Array SoftBit} {outputLength : Nat} {decision : Decision}

/-- Message bits that are not known beforehand. -/
def significant (settings : DecoderSettings) : Nat :=
  settings.base.messageLength settings.liftingSize - settings.fillers

/-- What the decoder answers on a graph once its requirements are met. -/
def answer (settings : DecoderSettings) (crc : Option Crc) (input : Array SoftBit)
    (graph : LiftedGraph) (store : GraphStore) : Decision × Decoder :=
  let messageLength := settings.base.messageLength settings.liftingSize
  match crc with
  | some crc =>
    let (passed, w) := (Workspace.load graph input).sweepUntil graph settings.scale crc
      (significant settings) settings.iterations 0
    (⟨passed, w.decisions messageLength⟩, ⟨store, w⟩)
  | none =>
    let w := (Workspace.load graph input).sweepAll graph settings.scale settings.iterations
    let accepted := graph.satisfiedBy (w.decisions graph.variableCount) &&
      w.determined (significant settings)
    (⟨if accepted then some settings.iterations else none, w.decisions messageLength⟩, ⟨store, w⟩)

/-- When the decoder answers, and what. All requirements are listed, so that
nothing else can stop it. -/
theorem decode_eq_ok_iff {answered : Decision × Decoder} :
    decoder.decode settings crc input outputLength = .ok answered ↔
      ∃ graph store,
        decoder.store.fetch settings.base settings.liftingSize = .ok (graph, store) ∧
        input.size = settings.base.sentLength settings.liftingSize ∧
        outputLength = settings.base.messageLength settings.liftingSize ∧
        0 < settings.iterations ∧
        settings.fillers ≤ settings.base.messageLength settings.liftingSize ∧
        answered = answer settings crc input graph store := by
  constructor
  · intro h
    rw [decode] at h
    simp only [bind_eq_ok, require_eq_ok, Size.mul_eq_ok, Size.ofNat_eq_ok, Size.sub_eq_ok] at h
    obtain ⟨_, ⟨-, rfl⟩, _, ⟨-, rfl⟩, ⟨⟩, hinput, ⟨⟩, houtput, ⟨⟩, hiterations, ⟨graph, store⟩,
      hfetch, _, ⟨hfillers, rfl⟩, hanswer⟩ := h
    refine ⟨graph, store, hfetch, by simpa using hinput,
      by simpa [BaseGraph.messageLength] using houtput, by simpa using hiterations, hfillers, ?_⟩
    cases crc <;> exact (Except.ok.inj hanswer).symm
  · rintro ⟨graph, store, hfetch, hinput, rfl, hiterations, hfillers, rfl⟩
    -- a graph is found for admitted lifting sizes only, whose lengths do not overflow
    have hz : settings.liftingSize ∈ liftingSizes :=
      (GraphStore.fetch_eq_ok hfetch).2 ▸ graph.liftingSize_mem
    obtain ⟨hK, hN⟩ := settings.base.lengths_lt_limit hz
    have hmul : Size.mul settings.base.systematicColumns settings.liftingSize =
        .ok (settings.base.messageLength settings.liftingSize) := Size.mul_of_lt hK
    have hof : Size.ofNat (settings.base.sentLength settings.liftingSize) =
        .ok (settings.base.sentLength settings.liftingSize) := Size.ofNat_eq_ok.mpr ⟨hN, rfl⟩
    rw [decode, hmul, ok_bind, hof, ok_bind, require_of (by simpa using hinput), ok_bind,
      require_of (by simp), ok_bind, require_of (by simpa using hiterations), ok_bind, hfetch,
      ok_bind]
    dsimp only
    rw [Size.sub_of_le hfillers, ok_bind]
    cases crc <;> rfl

/-- What a decoder did before does not matter for its decision. -/
theorem decision_unique {other other' : Decoder} {decision' : Decision}
    (h : decoder.decode settings crc input outputLength = .ok (decision, decoder'))
    (h' : other.decode settings crc input outputLength = .ok (decision', other')) :
    decision = decision' := by
  obtain ⟨graph, store, hfetch, -, -, -, -, hanswer⟩ := decode_eq_ok_iff.mp h
  obtain ⟨graph', store', hfetch', -, -, -, -, hanswer'⟩ := decode_eq_ok_iff.mp h'
  obtain ⟨hbase, hz⟩ := GraphStore.fetch_eq_ok hfetch
  obtain ⟨hbase', hz'⟩ := GraphStore.fetch_eq_ok hfetch'
  -- both stores hold the same graph, and the workspace is loaded afresh
  obtain rfl : graph = graph' :=
    LiftedGraph.eq_of_size (hbase.trans hbase'.symm) (hz.trans hz'.symm)
  rw [show decision = _ from congrArg (·.1) hanswer,
    show decision' = _ from congrArg (·.1) hanswer']
  cases crc <;> rfl

/-- The decided message is a word of message bits, whatever is decided. -/
theorem message_of_decode (h : decoder.decode settings crc input outputLength =
    .ok (decision, decoder')) :
    decision.message.size = outputLength ∧ decision.message.HasOnly01 := by
  obtain ⟨graph, store, hfetch, hinput, rfl, -, -, hanswer⟩ := decode_eq_ok_iff.mp h
  obtain ⟨hbase, hz⟩ := GraphStore.fetch_eq_ok hfetch
  -- decisions on all message variables of a workspace of the graph's size
  suffices ∃ w : Workspace, w.posterior.size = graph.variableCount ∧
      decision.message = w.decisions (settings.base.messageLength settings.liftingSize) by
    obtain ⟨w, hw, hmessage⟩ := this
    rw [hmessage, Workspace.size_decisions, hw]
    refine ⟨Nat.min_eq_left ?_, w.decisions_only01 _⟩
    rw [← hbase, ← hz]
    exact Nat.mul_le_mul_right _ (Nat.le_add_right _ _)
  have hload : (Workspace.load graph input).posterior.size = graph.variableCount :=
    Workspace.size_load (by rw [hinput, hbase, hz])
  have hsize : ∀ w : Workspace, w.posterior.size = graph.variableCount →
      (w.sweep graph settings.scale).posterior.size = graph.variableCount := by
    intro w hw
    rw [Workspace.size_posterior_sweep, hw]
  cases crc with
  | some crc => exact ⟨_, Workspace.size_sweepUntil hload _ _, congrArg (·.1.message) hanswer⟩
  | none => exact ⟨_, Workspace.sweepAll_induction hsize hload _, congrArg (·.1.message) hanswer⟩

/-- An accepted message passes the check that the decoder was given. -/
theorem check_of_decode {crc : Crc} (h : decoder.decode settings (some crc) input outputLength =
    .ok (decision, decoder')) (haccepted : decision.iterations.isSome = true) :
    crc.ofBits (decision.message.extract 0 (significant settings)) = 0 := by
  obtain ⟨graph, store, -, -, rfl, -, -, hanswer⟩ := decode_eq_ok_iff.mp h
  obtain ⟨k, hk⟩ := Option.isSome_iff_exists.mp haccepted
  have hpassed := congrArg (·.1.iterations) hanswer
  have hmessage := congrArg (·.1.message) hanswer
  simp only [answer] at hpassed hmessage
  have hpasses := Workspace.passes_of_sweepUntil (Prod.ext (hpassed.symm.trans hk) rfl)
  rw [Workspace.passes, Bool.and_eq_true, beq_iff_eq] at hpasses
  rw [hmessage, ← Workspace.decisions_extract (m := significant settings) (Nat.sub_le _ _)]
  exact hpasses.1

/-- Soft bits that say nothing about the parity bits are rejected, whatever the
budget. The first column never gets a side, and is part of the message. -/
theorem decode_of_erased (hscale : KeepsSide settings.scale)
    (h : decoder.decode settings crc input outputLength = .ok (decision, decoder'))
    (hsignificant : 0 < significant settings)
    (herased : ∀ p, settings.base.messageLength settings.liftingSize ≤
        puncturedColumns * settings.liftingSize + p →
      (input.getD p SoftBit.erased).favour = 0) :
    decision.iterations = none := by
  obtain ⟨graph, store, hfetch, hinput, rfl, -, -, hanswer⟩ := decode_eq_ok_iff.mp h
  obtain ⟨hbase, hz⟩ := GraphStore.fetch_eq_ok hfetch
  rw [← hbase, ← hz] at hinput herased
  have hpos := graph.liftingSize_pos
  -- the sides of the start, which no sweep changes
  let s : Nat → SignType := fun v => if v < puncturedColumns * graph.liftingSize then 0
    else (input.getD (v - puncturedColumns * graph.liftingSize) SoftBit.erased).favour
  have hstart : Knows s graph.variableCount (Workspace.load graph input) :=
    ⟨Workspace.size_load hinput, fun v _ => Workspace.side_load v, Workspace.side_load_messages⟩
  have hfirst : ∀ v < graph.liftingSize, s v = 0 := by
    intro v hv
    have : v < puncturedColumns * graph.liftingSize := by
      rw [puncturedColumns]
      omega
    exact if_pos this
  have hparity : ∀ v, graph.base.messageLength graph.liftingSize ≤ v → s v = 0 := by
    intro v hv
    show (if _ then _ else _) = _
    split
    · rfl
    · rename_i hge
      exact herased _ (by omega)
  have hstep : ∀ w, Knows s graph.variableCount w →
      Knows s graph.variableCount (w.sweep graph settings.scale) := fun w hw =>
    hw.sweep graph hscale fun r hr i _ => unhelpful_of_erased graph hfirst hparity hr i
  -- the first variable stays undetermined, so no message passes
  have hfails : ∀ w, Knows s graph.variableCount w →
      w.determined (significant settings) = false := by
    intro w hw
    have hcount : 0 < graph.variableCount :=
      Nat.mul_pos (by cases graph.base <;> decide) hpos
    refine Workspace.not_determined hsignificant (by rwa [hw.size]) ?_
    rw [hw.value 0 hcount, hfirst 0 hpos]
  cases crc with
  | some crc =>
    rw [show decision = _ from congrArg (·.1) hanswer]
    refine Workspace.sweepUntil_eq_none hstep (fun w hw => ?_) hstart _ _
    rw [Workspace.passes, hfails w hw, Bool.and_false]
  | none =>
    rw [show decision = _ from congrArg (·.1) hanswer]
    simp [answer, hfails _ (Workspace.sweepAll_induction hstep hstart _)]

end Decoder

/-! ## Soft bits of a sent word -/

/-- The soft bits favour the sent bits of a word or say nothing, and are known
up to the second parity column. -/
structure Favours (graph : LiftedGraph) (word : Bits) (input : Array SoftBit) : Prop where
  size : input.size = graph.base.sentLength graph.liftingSize
  value : ∀ p < input.size, (input.getD p SoftBit.erased).favour = 0 ∨
    (input.getD p SoftBit.erased).favour = bitSide ((graph.sentPart word).getD p 0)
  known : ∀ p < graph.base.messageLength graph.liftingSize,
    (input.getD p SoftBit.erased).favour = bitSide ((graph.sentPart word).getD p 0)

namespace Favours

variable {graph : LiftedGraph} {word : Bits} {input : Array SoftBit}

/-- The start agrees with the word: what is known is right. -/
theorem agrees_load (h : Favours graph word input) (hword : word.size = graph.variableCount) :
    Agrees word graph.variableCount (Workspace.load graph input) where
  size := Workspace.size_load h.size
  value := by
    intro v hv
    rw [Settled, Workspace.side_load]
    split
    · exact .inl rfl
    · rename_i hge
      -- a variable behind the punctured columns has a soft bit of its own
      have hp : v - puncturedColumns * graph.liftingSize < input.size := by
        have hsize := graph.size_sentPart hword
        rw [LiftedGraph.sentPart, Array.size_extract, hword, Nat.min_self] at hsize
        rw [h.size, ← hsize]
        omega
      have hbit := @LiftedGraph.getD_sentPart graph word
        (v - puncturedColumns * graph.liftingSize) (by omega)
      rw [Nat.add_sub_cancel' (Nat.le_of_not_lt hge)] at hbit
      rcases h.value _ hp with h0 | h0
      · exact .inl (by rw [h0])
      · exact .inr (by rw [h0, hbit])

/-- What the start knows is enough for the first two rows. -/
theorem columnsSettled_load (h : Favours graph word input)
    (hword : word.size = graph.variableCount) :
    ColumnsSettled graph word (Workspace.load graph input) puncturedColumns
      (graph.base.systematicColumns + 2) := by
  intro v hlo hhi
  have hrows : graph.base.systematicColumns + 2 ≤ graph.base.columns := by
    cases graph.base <;> decide
  have hv : v < word.size := by
    rw [hword]
    exact Nat.lt_of_lt_of_le hhi (Nat.mul_le_mul_right _ hrows)
  rw [Settled, Workspace.side_load, if_neg (by omega), h.known, graph.getD_sentPart (by omega),
    Nat.add_sub_cancel' hlo]
  rw [Nat.add_mul] at hhi
  rw [BaseGraph.messageLength]
  simp only [puncturedColumns] at hlo ⊢
  omega

end Favours

/-- Soft bits that favour the word of a message which passes its check are
decoded in one sweep. -/
theorem Decoder.decode_of_favours (decoder : Decoder) {settings : DecoderSettings} {crc : Crc}
    {graph : LiftedGraph} {message : Bits} {input : Array SoftBit}
    (hbase : graph.base = settings.base) (hz : graph.liftingSize = settings.liftingSize)
    (hscale : KeepsSide settings.scale) (hiterations : 0 < settings.iterations)
    (hbits : message.HasOnly01)
    (hsize : message.size = graph.base.messageLength graph.liftingSize)
    (hfillers : settings.fillers ≤ message.size)
    (hcheck : crc.ofBits (message.extract 0 (significant settings)) = 0)
    (hinput : Favours graph (graph.codeword message) input) :
    ∃ decoder', decoder.decode settings (some crc) input message.size =
      .ok (⟨some 1, message⟩, decoder') := by
  obtain ⟨store, hfetch⟩ := decoder.store.fetch_of_graph graph
  have hword := graph.size_codeword hsize
  have hmet := metBy_codeword graph hbits hsize
  obtain ⟨hagrees, hsettled⟩ := (hinput.agrees_load hword).sweep graph hscale hmet
    Workspace.side_load_messages (hinput.columnsSettled_load hword)
  set w := (Workspace.load graph input).sweep graph settings.scale with hw
  -- all message variables are settled, so the decisions are the message
  have hsystematic : ∀ v < message.size, Settled (graph.codeword message) w v := fun v hv =>
    hsettled v (by omega) (by rwa [hsize] at hv)
  have hvariables : message.size ≤ w.posterior.size := by
    rw [hagrees.size, hsize]
    exact Nat.mul_le_mul_right _ (Nat.le_add_right _ _)
  have hdecisions : w.decisions message.size = message := by
    apply Array.ext
    · rw [Workspace.size_decisions, Nat.min_eq_left hvariables]
    · intro v h₁ h₂
      have hbit := Workspace.getD_decisions (graph.onlyBits_codeword hbits) h₂ (by omega)
        (hsystematic v h₂)
      rwa [graph.getD_codeword message h₂, Buffer.getD_of_lt h₁, Buffer.getD_of_lt h₂] at hbit
  have hsignificant : significant settings ≤ message.size := by
    rw [hsize, significant, ← hbase, ← hz]
    exact Nat.sub_le _ _
  have hpasses : w.passes crc (significant settings) = true := by
    rw [Workspace.passes, Bool.and_eq_true, beq_iff_eq]
    constructor
    · rw [Workspace.decisions_extract hsignificant, hdecisions, hcheck]
    · exact Workspace.determined_of_settled fun v hv => hsystematic v (by omega)
  refine ⟨⟨store, w⟩, decode_eq_ok_iff.mpr ⟨graph, store, ?_, ?_, ?_, hiterations, ?_, ?_⟩⟩
  · rw [← hbase, ← hz, hfetch]
  · rw [← hbase, ← hz, hinput.size]
  · rw [hsize, hbase, hz]
  · rwa [← hbase, ← hz, ← hsize]
  · -- the first sweep of the budget passes
    obtain ⟨k, hk⟩ := Nat.exists_eq_succ_of_ne_zero (Nat.ne_of_gt hiterations)
    simp only [answer, hk, Workspace.sweepUntil, ← hw, hpasses, if_true]
    rw [← hbase, ← hz, ← hsize, hdecisions]

end Ldpc

end Uplink
