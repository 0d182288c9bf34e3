import Uplink.Ldpc.Codeword
import Uplink.Proofs.Bits
import Uplink.Proofs.Ldpc.Graph

/-!
# Encoded words meet every check

The parity bits of a row are computed from variables that are known by then, so every check of the
row sums to zero once they are appended, and what is appended later does not change it.

- `LiftedGraph.wordUpTo`: the word with the parity bits of the first rows.
- `LiftedGraph.satisfiedBy_codeword`: the word of a message meets every check.
- `LiftedGraph.getD_codeword`, `onlyBits_codeword`: it starts with the message, and is a word of
  bits.
- `encode_eq`: what the encoder sends.
-/

namespace Uplink

namespace Ldpc

namespace LiftedGraph

variable (graph : LiftedGraph)

/-- A sum over edges, taken from the left. -/
theorem checkSum_append (z : Nat) (l : List Edge) (edge : Edge) (word : Bits) (i : Nat) :
    checkSum z (l ++ [edge]).toArray word i =
      checkSum z l.toArray word i ^^^ word.getD (edge.target z i) 0 := by
  simp [checkSum]

/-- A sum depends on the variables that it meets only. -/
theorem checkSum_congr {z : Nat} {row : Array Edge} {word word' : Bits} {i : Nat}
    (h : ∀ edge ∈ row, word.getD (edge.target z i) 0 = word'.getD (edge.target z i) 0) :
    checkSum z row word i = checkSum z row word' i := by
  rw [checkSum, checkSum, ← Array.foldl_toList, ← Array.foldl_toList]
  refine List.foldl_ext _ _ _ fun sum edge hedge => ?_
  rw [h edge (Array.mem_toList_iff.mp hedge)]

/-- The message with the parity bits of the first `n` rows. -/
def wordUpTo (message : Bits) (n : Nat) : Bits := (List.range n).foldl graph.extend message

theorem wordUpTo_succ (message : Bits) (n : Nat) :
    graph.wordUpTo message (n + 1) = graph.extend (graph.wordUpTo message n) n := by
  simp [wordUpTo, List.range_succ]

@[simp] theorem size_extend (word : Bits) (r : Nat) :
    (graph.extend word r).size = word.size + graph.liftingSize := by
  simp [extend]

/-- Each row adds one column of parity bits. -/
theorem size_wordUpTo {message : Bits}
    (hm : message.size = graph.base.messageLength graph.liftingSize) (n : Nat) :
    (graph.wordUpTo message n).size = (graph.base.systematicColumns + n) * graph.liftingSize := by
  induction n with
  | zero => exact hm
  | succ n ih => rw [wordUpTo_succ, size_extend, ih, ← Nat.add_assoc, Nat.succ_mul]

/-- What is appended leaves the word as it is. -/
theorem getD_extend {word : Bits} {r v : Nat} (h : v < word.size) :
    (graph.extend word r).getD v 0 = word.getD v 0 := by
  simp [extend, Array.getD, h, Nat.lt_add_right]

/-- The appended bits are the sums over the row's other edges, all of which meet
earlier columns. -/
theorem getD_extend_parity {word : Bits} {r i : Nat} (hr : r < graph.base.rows)
    (hi : i < graph.liftingSize) :
    (graph.extend word r).getD (word.size + i) 0 =
      checkSum graph.liftingSize (graph.otherEdges r).toArray word i := by
  have hothers : (graph.rows.getD r #[]).filter
      (·.column != graph.base.systematicColumns + r) = (graph.otherEdges r).toArray := by
    show (graph.edges r).filter _ = _
    -- the filter drops the parity edge and nothing else
    have hall : (graph.otherEdges r).filter
        (·.column != graph.base.systematicColumns + r) = graph.otherEdges r := by
      rw [List.filter_eq_self]
      intro edge hedge
      have := graph.column_lt_of_mem_otherEdges hedge
      simp
      omega
    apply Array.toList_inj.mp
    rw [Array.toList_filter, graph.toList_edges hr, List.filter_append, hall]
    simp [parityEdge]
  rw [extend, hothers]
  simp [Array.getD, hi]

/-- The checks of the rows whose parity bits are there are met. Later rows
append bits that these checks do not meet, so the induction keeps what it has.
-/
theorem checkSum_wordUpTo {message : Bits}
    (hm : message.size = graph.base.messageLength graph.liftingSize) {n : Nat}
    (hn : n ≤ graph.base.rows) {r i : Nat} (hr : r < n) (hi : i < graph.liftingSize) :
    checkSum graph.liftingSize (graph.edges r) (graph.wordUpTo message n) i = 0 := by
  have hz := graph.liftingSize_pos
  induction n with
  | zero => omega
  | succ n ih =>
    have hsize := graph.size_wordUpTo hm n
    -- rows up to `n` meet the old word only, apart from the parity column of row `n`
    have hold : ∀ edge : Edge, edge.column < graph.base.systematicColumns + n →
        (graph.wordUpTo message (n + 1)).getD (edge.target graph.liftingSize i) 0 =
          (graph.wordUpTo message n).getD (edge.target graph.liftingSize i) 0 := by
      intro edge hedge
      rw [wordUpTo_succ]
      exact graph.getD_extend (by rw [hsize]; exact Edge.target_lt hz hedge)
    rcases Nat.lt_succ_iff_lt_or_eq.mp hr with hlt | rfl
    · rw [← ih (by omega) hlt]
      refine checkSum_congr fun edge hedge => hold edge ?_
      rw [← Array.mem_toList_iff, graph.toList_edges (by omega), List.mem_append,
        List.mem_singleton] at hedge
      rcases hedge with hedge | rfl
      · have := graph.column_lt_of_mem_otherEdges hedge
        omega
      · simp only [parityEdge]
        omega
    · -- the new parity bit equals the sum over the other edges, so that both cancel
      have hrow : graph.edges r = (graph.otherEdges r ++ [graph.parityEdge r]).toArray :=
        Array.toList_inj.mp (graph.toList_edges (by omega))
      have hown : (graph.parityEdge r).target graph.liftingSize i =
          (graph.wordUpTo message r).size + i := by
        rw [hsize, Edge.target, parityEdge, Nat.add_zero, Nat.mod_eq_of_lt hi]
      have hsum : checkSum graph.liftingSize (graph.otherEdges r).toArray
          (graph.wordUpTo message (r + 1)) i =
          checkSum graph.liftingSize (graph.otherEdges r).toArray (graph.wordUpTo message r) i :=
        checkSum_congr fun edge hedge =>
          hold edge (graph.column_lt_of_mem_otherEdges (by simpa using hedge))
      rw [hrow, checkSum_append, hsum, hown, wordUpTo_succ,
        graph.getD_extend_parity (by omega) hi, UInt8.xor_self]

theorem size_codeword {message : Bits}
    (hm : message.size = graph.base.messageLength graph.liftingSize) :
    (graph.codeword message).size = graph.variableCount :=
  graph.size_wordUpTo hm graph.base.rows

/-- The word of a message meets every check. -/
theorem checkSum_codeword {message : Bits}
    (hm : message.size = graph.base.messageLength graph.liftingSize) {r i : Nat}
    (hr : r < graph.base.rows) (hi : i < graph.liftingSize) :
    checkSum graph.liftingSize (graph.edges r) (graph.codeword message) i = 0 :=
  graph.checkSum_wordUpTo hm (Nat.le_refl _) hr hi

/-- So it is accepted as a codeword. -/
theorem satisfiedBy_codeword {message : Bits}
    (hm : message.size = graph.base.messageLength graph.liftingSize) :
    graph.satisfiedBy (graph.codeword message) = true := by
  rw [satisfiedBy, ← Array.all_toList, graph.rows_eq_map, List.all_map, List.all_eq_true]
  intro r hr
  rw [Function.comp, List.all_eq_true]
  intro i hi
  rw [List.mem_range] at hr hi
  rw [beq_iff_eq]
  exact graph.checkSum_codeword hm hr hi

/-- The word starts with the message. -/
theorem getD_codeword (message : Bits) {v : Nat} (hv : v < message.size) :
    (graph.codeword message).getD v 0 = message.getD v 0 := by
  -- the word only grows, so the message stays in front
  suffices ∀ n, message.size ≤ (graph.wordUpTo message n).size ∧
      (graph.wordUpTo message n).getD v 0 = message.getD v 0 from (this graph.base.rows).2
  intro n
  induction n with
  | zero => exact ⟨Nat.le_refl _, rfl⟩
  | succ n ih =>
    rw [wordUpTo_succ, size_extend, graph.getD_extend (Nat.lt_of_lt_of_le hv ih.1)]
    exact ⟨Nat.le_add_right_of_le ih.1, ih.2⟩

/-- A sum of bits is a bit. -/
theorem checkSum_bit {z : Nat} {row : Array Edge} {word : Bits} {i : Nat}
    (h : word.HasOnly01) : checkSum z row word i = 0 ∨ checkSum z row word i = 1 := by
  rw [checkSum]
  refine Array.foldl_induction (fun _ (sum : UInt8) => sum = 0 ∨ sum = 1) (.inl rfl) ?_
  intro e sum hsum
  rcases hsum with rfl | rfl <;> rcases h.getD (row[e].target z i) with hb | hb <;>
    rw [hb] <;> decide

theorem onlyBits_codeword {message : Bits} (h : message.HasOnly01) :
    (graph.codeword message).HasOnly01 := by
  suffices ∀ n, (graph.wordUpTo message n).HasOnly01 from this graph.base.rows
  intro n
  induction n with
  | zero => exact h
  | succ n ih =>
    rw [wordUpTo_succ, extend]
    intro b hb
    rcases Array.mem_append.mp hb with hb | hb
    · exact ih b hb
    · obtain ⟨i, -, rfl⟩ := Array.mem_map.mp hb
      exact checkSum_bit ih

theorem size_sentPart {word : Bits} (h : word.size = graph.variableCount) :
    (graph.sentPart word).size = graph.base.sentLength graph.liftingSize := by
  simp only [sentPart, Array.size_extract, h, variableCount, BaseGraph.sentLength,
    Nat.sub_mul, Nat.min_self]

theorem getD_sentPart {word : Bits} {p : Nat}
    (h : puncturedColumns * graph.liftingSize + p < word.size) :
    (graph.sentPart word).getD p 0 = word.getD (puncturedColumns * graph.liftingSize + p) 0 :=
  Buffer.getD_extract word _ _ p 0 h

end LiftedGraph

/-- The encoder sends the word of the message without its punctured columns, and
keeps the graph that it has fetched. -/
theorem encode_eq {store store' : GraphStore} {base : BaseGraph} {z : Nat} {graph : LiftedGraph}
    {message : Bits} (hgraph : store.fetch base z = .ok (graph, store'))
    (hm : message.size = base.messageLength z) (hK : base.messageLength z < Size.limit)
    (hN : base.sentLength z < Size.limit) :
    encode store base z message (base.sentLength z) =
      .ok (graph.sentPart (graph.codeword message), store') := by
  have hmul : Size.mul base.systematicColumns z = .ok (base.messageLength z) :=
    Size.mul_of_lt hK
  have hof : Size.ofNat (base.sentLength z) = .ok (base.sentLength z) := by
    simp [Size.ofNat, hN]
  rw [encode, hmul, ok_bind, require_of (by simpa using hm), ok_bind, hof, ok_bind,
    require_of (beq_self_eq_true _), ok_bind, hgraph]
  rfl

end Ldpc

end Uplink
