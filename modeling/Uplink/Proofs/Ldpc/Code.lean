import Uplink.Proofs.Ldpc.Codeword

/-!
# The code is what the encoder makes of messages

The parity columns form a triangle: a row meets its own parity column, which no row before it meets,
and otherwise only columns that are known by then. So the checks can be solved row after row, in one
way only, and the encoder solves them.

- `LiftedGraph.AgreesUpTo`: a word holds what the encoder has appended by some row.
- `LiftedGraph.agreesUpTo_succ_iff`: one row further, a word agrees exactly if it meets the row's
  checks; `agreesUpTo_iff`: so does the run over the rows.
- `LiftedGraph.satisfiedBy_iff`: a word meets every check exactly if it is the word of its message.
- `accepts_iff_encode`: the words that are accepted are those that the encoder sends, the punctured
  columns in front.
-/

namespace Uplink

namespace Ldpc

namespace LiftedGraph

variable (graph : LiftedGraph) {word message : Bits} {n r i : Nat}

/-- Every check of a row is met. -/
def MeetsRow (word : Bits) (r : Nat) : Prop :=
  ∀ i < graph.liftingSize, checkSum graph.liftingSize (graph.edges r) word i = 0

/-- A word is accepted exactly if it meets all rows. -/
theorem satisfiedBy_iff_meetsRow :
    graph.satisfiedBy word = true ↔ ∀ r < graph.base.rows, graph.MeetsRow word r := by
  rw [satisfiedBy, ← Array.all_toList, graph.rows_eq_map, List.all_map, List.all_eq_true]
  constructor
  · intro h r hr i hi
    have hrow := List.all_eq_true.mp (h r (List.mem_range.mpr hr))
    exact beq_iff_eq.mp (hrow i (List.mem_range.mpr hi))
  · intro h r hr
    refine List.all_eq_true.mpr fun i hi => ?_
    exact beq_iff_eq.mpr (h r (List.mem_range.mp hr) i (List.mem_range.mp hi))

/-- A word holds the message and the parity bits of the first `n` rows. -/
def AgreesUpTo (word message : Bits) (n : Nat) : Prop :=
  ∀ v < (graph.base.systematicColumns + n) * graph.liftingSize,
    word.getD v 0 = (graph.wordUpTo message n).getD v 0

/-- A check of a row is met exactly if the row's parity bit is the sum of the
other variables. -/
theorem checkSum_edges_eq_zero_iff (hr : r < graph.base.rows) (hi : i < graph.liftingSize) :
    checkSum graph.liftingSize (graph.edges r) word i = 0 ↔
      word.getD ((graph.base.systematicColumns + r) * graph.liftingSize + i) 0 =
        checkSum graph.liftingSize (graph.otherEdges r).toArray word i := by
  have hrow : graph.edges r = (graph.otherEdges r ++ [graph.parityEdge r]).toArray :=
    Array.toList_inj.mp (graph.toList_edges hr)
  have hown : (graph.parityEdge r).target graph.liftingSize i =
      (graph.base.systematicColumns + r) * graph.liftingSize + i := by
    rw [Edge.target, parityEdge, Nat.add_zero, Nat.mod_eq_of_lt hi]
  rw [hrow, checkSum_append, hown, UInt8.xor_eq_zero_iff, eq_comm]

/-- A word that agrees up to a row agrees one row further exactly if it meets
the row's checks. The row's parity bits are then the only ones that meet them.
-/
theorem agreesUpTo_succ_iff (hm : message.size = graph.base.messageLength graph.liftingSize)
    (hn : n < graph.base.rows) (h : graph.AgreesUpTo word message n) :
    graph.AgreesUpTo word message (n + 1) ↔ graph.MeetsRow word n := by
  have hz := graph.liftingSize_pos
  have hsize := graph.size_wordUpTo hm n
  -- the row's other variables are known by then
  have hothers (i : Nat) : checkSum graph.liftingSize (graph.otherEdges n).toArray word i =
      checkSum graph.liftingSize (graph.otherEdges n).toArray (graph.wordUpTo message n) i := by
    refine checkSum_congr fun edge hedge => h _ (Edge.target_lt hz ?_)
    exact graph.column_lt_of_mem_otherEdges (List.mem_toArray.mp hedge)
  have hparity {i : Nat} (hi : i < graph.liftingSize) :
      (graph.wordUpTo message (n + 1)).getD
          ((graph.base.systematicColumns + n) * graph.liftingSize + i) 0 =
        checkSum graph.liftingSize (graph.otherEdges n).toArray word i := by
    rw [hothers, wordUpTo_succ, ← hsize]
    exact graph.getD_extend_parity hn hi
  have hstop : (graph.base.systematicColumns + (n + 1)) * graph.liftingSize =
      (graph.base.systematicColumns + n) * graph.liftingSize + graph.liftingSize := by
    rw [← Nat.add_assoc, Nat.succ_mul]
  constructor
  · intro hnext i hi
    rw [graph.checkSum_edges_eq_zero_iff hn hi, ← hparity hi]
    exact hnext _ (by omega)
  · intro hmeets v hv
    by_cases hold : v < (graph.base.systematicColumns + n) * graph.liftingSize
    · rw [h v hold, wordUpTo_succ, graph.getD_extend (by omega)]
    · -- one of the row's own parity bits
      obtain ⟨i, rfl⟩ := Nat.exists_eq_add_of_le (Nat.le_of_not_lt hold)
      have hi : i < graph.liftingSize := by omega
      rw [hparity hi]
      exact (graph.checkSum_edges_eq_zero_iff hn hi).mp (hmeets i hi)

/-- A word that starts with the message agrees up to a row exactly if it meets
the checks before. -/
theorem agreesUpTo_iff (hm : message.size = graph.base.messageLength graph.liftingSize)
    (hn : n ≤ graph.base.rows) (hstart : graph.AgreesUpTo word message 0) :
    graph.AgreesUpTo word message n ↔ ∀ r < n, graph.MeetsRow word r := by
  induction n with
  | zero => exact iff_of_true hstart fun r hr => absurd hr (Nat.not_lt_zero r)
  | succ n ih =>
    have ih := ih (by omega)
    constructor
    · intro h
      have hearlier : graph.AgreesUpTo word message n := by
        intro v hv
        have hsize := graph.size_wordUpTo hm n
        rw [h v (Nat.lt_of_lt_of_le hv (Nat.mul_le_mul_right _ (by omega))), wordUpTo_succ,
          graph.getD_extend (by omega)]
      intro r hr
      rcases Nat.lt_succ_iff_lt_or_eq.mp hr with hlt | rfl
      · exact ih.mp hearlier r hlt
      · exact (graph.agreesUpTo_succ_iff hm (by omega) hearlier).mp h
    · intro h
      have hearlier := ih.mpr fun r hr => h r (by omega)
      exact (graph.agreesUpTo_succ_iff hm (by omega) hearlier).mpr (h n (by omega))

theorem size_extract_message (hword : word.size = graph.variableCount) :
    (word.extract 0 (graph.base.messageLength graph.liftingSize)).size =
      graph.base.messageLength graph.liftingSize := by
  have hle : graph.base.messageLength graph.liftingSize ≤ word.size := by
    rw [hword]
    exact Nat.mul_le_mul_right _ (Nat.le_add_right _ _)
  rw [Array.size_extract]
  omega

/-- A word meets every check exactly if it is the word of the message it starts
with. -/
theorem satisfiedBy_iff (hword : word.size = graph.variableCount) :
    graph.satisfiedBy word = true ↔
      graph.codeword (word.extract 0 (graph.base.messageLength graph.liftingSize)) = word := by
  have hm := graph.size_extract_message hword
  have hsize := graph.size_codeword hm
  have hstart : graph.AgreesUpTo word
      (word.extract 0 (graph.base.messageLength graph.liftingSize)) 0 := by
    intro v hv
    have hmessage := Buffer.getD_extract word 0
      (graph.base.messageLength graph.liftingSize) v 0 (by rw [Nat.zero_add]; exact hv)
    rw [Nat.zero_add] at hmessage
    exact hmessage.symm
  rw [graph.satisfiedBy_iff_meetsRow, ← graph.agreesUpTo_iff hm (Nat.le_refl _) hstart]
  constructor
  · intro h
    refine Array.ext (hsize.trans hword.symm) fun v hv hv' => ?_
    rw [← Buffer.getD_of_lt hv 0, ← Buffer.getD_of_lt hv' 0]
    exact (h v (by rw [hsize] at hv; exact hv)).symm
  · intro h v _
    show _ = (graph.codeword _).getD v 0
    rw [h]

/-- What is sent of a word, behind its punctured columns, is all of it. -/
theorem append_sentPart (word : Bits) :
    word.extract 0 (puncturedColumns * graph.liftingSize) ++ graph.sentPart word = word := by
  rw [sentPart, Array.extract_append_extract, Nat.min_eq_left (Nat.zero_le _)]
  simp

/-- The word of a message starts with the punctured columns of the message. -/
theorem extract_codeword (hm : message.size = graph.base.messageLength graph.liftingSize) :
    (graph.codeword message).extract 0 (puncturedColumns * graph.liftingSize) =
      message.extract 0 (puncturedColumns * graph.liftingSize) := by
  have hle : puncturedColumns * graph.liftingSize ≤ message.size := by
    rw [hm]
    exact Nat.mul_le_mul_right _ (by cases graph.base <;> decide)
  have hle' : puncturedColumns * graph.liftingSize ≤ (graph.codeword message).size := by
    rw [graph.size_codeword hm]
    exact Nat.mul_le_mul_right _ (by cases graph.base <;> decide)
  refine Array.ext (by simp only [Array.size_extract]; omega) fun v hv hv' => ?_
  rw [Array.size_extract] at hv
  rw [← Buffer.getD_of_lt, ← Buffer.getD_of_lt hv' 0,
    Buffer.getD_extract _ _ _ _ _ (by omega), Buffer.getD_extract _ _ _ _ _ (by omega)]
  exact graph.getD_codeword message (by omega)

/-- Of the word of a message what is sent decides, as the punctured columns are
columns of the message. -/
theorem sentPart_codeword_eq_iff (hword : word.size = graph.variableCount) :
    graph.sentPart (graph.codeword
        (word.extract 0 (graph.base.messageLength graph.liftingSize))) = graph.sentPart word ↔
      graph.satisfiedBy word = true := by
  have hle : puncturedColumns * graph.liftingSize ≤
      graph.base.messageLength graph.liftingSize :=
    Nat.mul_le_mul_right _ (by cases graph.base <;> decide)
  rw [graph.satisfiedBy_iff hword]
  constructor
  · intro h
    -- the punctured columns are the same in both words
    have hfront := graph.extract_codeword (graph.size_extract_message hword)
    rw [Array.extract_extract, Nat.zero_add, Nat.zero_add, Nat.min_eq_left hle] at hfront
    rw [← graph.append_sentPart (graph.codeword _), hfront, h, graph.append_sentPart]
  · intro h
    rw [h]

theorem accepts_eq (hword : word.size = graph.variableCount) :
    graph.accepts word = .ok (graph.satisfiedBy word) := by
  rw [accepts, require_of (by simpa using hword)]
  rfl

/-- Nothing is accepted but a word with all variables that meets every check. -/
theorem accepts_eq_ok (h : graph.accepts word = .ok true) :
    word.size = graph.variableCount ∧ graph.satisfiedBy word = true := by
  obtain ⟨u, hu, h⟩ := bind_eq_ok.mp h
  exact ⟨by simpa using require_eq_ok.mp hu, Except.ok.inj h⟩

end LiftedGraph

/-! ## Sending and accepting -/

/-- A word with all variables is accepted exactly if the encoder, whatever
graphs it has built before, sends of the message in front just what the word
holds behind the punctured columns. So all that is sent is accepted, and an
accepted word is known by its message. -/
theorem accepts_iff_encode (base : BaseGraph) {z : Nat} (hz : z ∈ liftingSizes) :
    ∃ graph, LiftedGraph.build base z = .ok graph ∧ ∀ store : GraphStore,
      (∀ word : Bits, word.size = base.columns * z →
        ∃ sent store', encode store base z (word.extract 0 (base.messageLength z))
            (base.sentLength z) = .ok (sent, store') ∧
          graph.accepts word =
            .ok (decide (sent = word.extract (puncturedColumns * z) word.size))) ∧
      (∀ message : Bits, message.size = base.messageLength z →
        ∃ sent store', encode store base z message (base.sentLength z) = .ok (sent, store') ∧
          graph.accepts (message.extract 0 (puncturedColumns * z) ++ sent) = .ok true) ∧
      ∀ word word' : Bits, graph.accepts word = .ok true → graph.accepts word' = .ok true →
        word.extract 0 (base.messageLength z) = word'.extract 0 (base.messageLength z) →
        word = word' := by
  obtain ⟨graph, hbuild⟩ := LiftedGraph.exists_build base hz
  obtain ⟨rfl, rfl⟩ := LiftedGraph.build_eq_ok hbuild
  obtain ⟨hK, hN⟩ := graph.base.lengths_lt_limit hz
  refine ⟨graph, hbuild, fun store => ?_⟩
  obtain ⟨store', hfetch⟩ := store.fetch_of_graph graph
  have hencode {message : Bits}
      (hm : message.size = graph.base.messageLength graph.liftingSize) :=
    encode_eq hfetch hm hK hN
  refine ⟨fun word hword => ?_, fun message hm => ?_, fun word word' h h' heq => ?_⟩
  · refine ⟨_, store', hencode (graph.size_extract_message hword), ?_⟩
    rw [graph.accepts_eq hword]
    refine congrArg Except.ok (Bool.eq_iff_iff.mpr ?_)
    rw [decide_eq_true_iff]
    exact (graph.sentPart_codeword_eq_iff hword).symm
  · refine ⟨_, store', hencode hm, ?_⟩
    rw [← graph.extract_codeword hm, graph.append_sentPart, graph.accepts_eq (graph.size_codeword hm),
      graph.satisfiedBy_codeword hm]
  · obtain ⟨hword, hsatisfied⟩ := graph.accepts_eq_ok h
    obtain ⟨hword', hsatisfied'⟩ := graph.accepts_eq_ok h'
    rw [← (graph.satisfiedBy_iff hword).mp hsatisfied, heq,
      (graph.satisfiedBy_iff hword').mp hsatisfied']

/-- At lifting size 2 the message of ones is sent and accepted, and a last
parity bit that is turned over is not. -/
theorem accepts_iff_encode_two : ∃ graph, LiftedGraph.build .two 2 = .ok graph ∧
    (∃ sent store', encode GraphStore.empty .two 2 (Array.replicate 20 1) 100 =
        .ok (sent, store') ∧
      graph.accepts ((Array.replicate 20 1).extract 0 4 ++ sent) = .ok true) ∧
    graph.accepts ((Array.replicate 103 0).push 1) = .ok false := by
  obtain ⟨graph, hbuild, hcode⟩ := accepts_iff_encode .two (z := 2) (by decide)
  obtain ⟨hword, hmessage, -⟩ := hcode GraphStore.empty
  refine ⟨graph, hbuild, hmessage _ (by decide), ?_⟩
  obtain ⟨sent, store', hencode, haccepts⟩ := hword ((Array.replicate 103 0).push 1) (by decide)
  have hzeros : (encode GraphStore.empty .two 2 (((Array.replicate 103 0).push 1).extract 0 20)
      100).map Prod.fst = .ok (Array.replicate 100 0) := by
    decide +kernel
  obtain rfl : sent = Array.replicate 100 0 := by
    have h := congrArg (Except.map Prod.fst) hencode
    exact Except.ok.inj (h.symm.trans hzeros)
  rw [haccepts]
  decide +kernel

end Ldpc

end Uplink
