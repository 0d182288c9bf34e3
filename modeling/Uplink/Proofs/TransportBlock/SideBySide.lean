import Uplink.Proofs.Alike
import Uplink.Proofs.TransportBlock.Session

/-!
# Receptions side by side

Two receptions of one transmission may have different decoders, and buffers that keep different
things of codeblocks which new data give up. They go on alike to the end of the codeword.

- `Decoder.decode_alike`, `ReceptionSettings.decodeBlock_alike`: decoders decide alike, whatever
  they did before.
- `StoredBlock.Interchangeable`: storage of a codeblock that makes no difference to a session.
- `Assembly.addBlock_alike`: after a codeblock nothing of such a difference is left.
- `Reception.finish_alike`: the whole end of the codeword.
-/

namespace Uplink

open Ldpc

/-! ## Decoders -/

namespace Ldpc

/-- A store without a graph builds it. -/
theorem GraphStore.build_of_fetch {store : GraphStore} {base : BaseGraph} {z : Nat} {f : Fault}
    (h : store.fetch base z = .error f) : LiftedGraph.build base z = .error f := by
  unfold fetch at h
  split at h
  · cases h
  · cases hbuild : LiftedGraph.build base z with
    | ok graph =>
      rw [hbuild] at h
      cases h
    | error f' =>
      rw [hbuild] at h
      cases h
      rfl

/-- Two stores give the same graph, or fail in the same way: a graph is
determined by its base and its lifting size. -/
theorem GraphStore.fetch_alike (store other : GraphStore) (base : BaseGraph) (z : Nat) :
    Alike (fun p p' => p.1 = p'.1) (store.fetch base z) (other.fetch base z) := by
  cases h : store.fetch base z with
  | ok p =>
    obtain ⟨rfl, rfl⟩ := fetch_eq_ok h
    obtain ⟨_, h'⟩ := other.fetch_of_graph p.1
    rw [h']
    exact .ok rfl
  | error f =>
    cases h' : other.fetch base z with
    | ok p =>
      obtain ⟨rfl, rfl⟩ := fetch_eq_ok h'
      obtain ⟨_, hfound⟩ := store.fetch_of_graph p.1
      rw [hfound] at h
      cases h
    | error f' =>
      obtain rfl : f = f' :=
        Except.error.inj ((build_of_fetch h).symm.trans (build_of_fetch h'))
      exact .fault f

/-- Two decoders decide alike, whatever they have decoded before. -/
theorem Decoder.decode_alike (decoder other : Decoder) (settings : DecoderSettings)
    (crc : Option Crc) (input : Array SoftBit) (outputLength : Nat) :
    Alike (fun p p' => p.1 = p'.1) (decoder.decode settings crc input outputLength)
      (other.decode settings crc input outputLength) := by
  unfold decode
  dsimp only
  refine .after _ fun messageLength _ => .after _ fun sentLength _ => .after _ fun _ _ =>
    .after _ fun _ _ => .after _ fun _ _ =>
    (GraphStore.fetch_alike decoder.store other.store _ _).bind ?_
  rintro ⟨graph, store⟩ ⟨graph', store'⟩ hgraph
  obtain rfl : graph = graph' := hgraph
  refine .after _ fun significant _ => ?_
  cases crc with
  | some crc => exact .ok rfl
  | none => exact .ok rfl

end Ldpc

/-- A codeblock is decided alike by two decoders. -/
theorem ReceptionSettings.decodeBlock_alike (settings : ReceptionSettings)
    (decoder other : Decoder) (crc : Crc) (c : Codeblock) (soft : Array SoftBit)
    (outputLength : Nat) :
    Alike (fun p p' => p.1 = p'.1) (settings.decodeBlock decoder crc c soft outputLength)
      (settings.decodeBlock other crc c soft outputLength) := by
  unfold decodeBlock
  dsimp only
  split
  · exact Decoder.decode_alike _ _ _ _ _ _
  · refine (Decoder.decode_alike _ _ _ _ _ _).bind ?_
    rintro ⟨decision, decoder⟩ ⟨decision', decoder'⟩ hdecision
    obtain rfl : decision = decision' := hdecision
    exact .ok rfl

/-! ## Codeblocks -/

/-- New data are combined with nothing but the length of what is stored. -/
theorem Codeblock.rateDematch_of_newData (c : Codeblock) {stored stored' received : Array SoftBit}
    (hsize : stored.size = stored'.size) :
    c.rateDematch stored received true = c.rateDematch stored' received true := by
  unfold rateDematch
  simp only [hsize, if_true]

namespace StoredBlock

/-- Storage of a codeblock that makes no difference to a session: it is the
same, or the data are new and neither has passed. -/
def Interchangeable (newData : Bool) (b b' : StoredBlock) : Prop :=
  b = b' ∨ newData = true ∧ b.passed = false ∧ b'.passed = false

namespace Interchangeable

variable {newData : Bool} {b b' : StoredBlock}

theorem fit (h : b.Interchangeable newData b') (softLength messageLength : Nat) :
    (b.fit softLength messageLength).Interchangeable newData (b'.fit softLength messageLength) := by
  rcases h with rfl | hfresh
  · exact .inl rfl
  · exact .inr hfresh

theorem passed_eq (h : b.Interchangeable newData b') : b.passed = b'.passed := by
  rcases h with rfl | ⟨-, hpassed, hpassed'⟩
  · rfl
  · rw [hpassed, hpassed']

theorem message_eq (h : b.Interchangeable newData b') (hpassed : b.passed = true) :
    b.message = b'.message := by
  rcases h with rfl | ⟨-, hnot, -⟩
  · rfl
  · rw [hnot] at hpassed
    cases hpassed

/-- Of the stored soft bits only those are combined that are the same: with new
data none, and otherwise all. -/
theorem rateDematch_eq (h : b.Interchangeable newData b') (hsize : b.soft.size = b'.soft.size)
    (c : Codeblock) (received : Array SoftBit) :
    c.rateDematch b.soft received newData = c.rateDematch b'.soft received newData := by
  rcases h with rfl | ⟨rfl, -, -⟩
  · rfl
  · exact c.rateDematch_of_newData hsize

end Interchangeable

end StoredBlock

/-- Codeblocks are borrowed alike from buffers of one size. -/
theorem HarqBuffer.borrow_alike {b b' : HarqBuffer} (hcount : b.count = b'.count)
    (i softLength messageLength : Nat) :
    Alike (fun x x' => i < b.count ∧ x = (b.block i).fit softLength messageLength ∧
      x' = (b'.block i).fit softLength messageLength)
      (b.borrow i softLength messageLength) (b'.borrow i softLength messageLength) := by
  by_cases hi : i < b.count
  · rw [borrow_eq_ok.mpr ⟨hi, rfl⟩, borrow_eq_ok.mpr ⟨hcount ▸ hi, rfl⟩]
    exact .ok ⟨hi, rfl, rfl⟩
  · have hnone : b.blocks[i]? = none := Array.getElem?_eq_none (Nat.le_of_not_lt hi)
    rw [hcount] at hi
    have hnone' : b'.blocks[i]? = none := Array.getElem?_eq_none (Nat.le_of_not_lt hi)
    rw [borrow, borrow, hnone, hnone', hcount]
    exact .fault _

namespace Assembly

variable {settings : ReceptionSettings} {crc : Crc} {c : Codeblock} {softBits : Array SoftBit}
  {limit blocks n : Nat} {a a' : Assembly}

/-- What two assemblies of `blocks` codeblocks have in common after `n` of them.
-/
structure Abreast (newData : Bool) (blocks n : Nat) (a a' : Assembly) : Prop where
  statistics_eq : a.statistics = a'.statistics
  bits_eq : a.bits = a'.bits
  count_left : a.buffer.count = blocks
  count_right : a'.buffer.count = blocks
  done : ∀ i < n, a.buffer.block i = a'.buffer.block i
  ahead : ∀ i, n ≤ i → (a.buffer.block i).Interchangeable newData (a'.buffer.block i)

/-- A codeblock that is not decoded is the same on both sides; one that is
decoded gets its message from the decoder. -/
theorem decodeStored_alike {newData : Bool} {stored stored' : StoredBlock} {soft : Array SoftBit}
    (h : a.statistics = a'.statistics) (hstored : stored.Interchangeable newData stored')
    (hsize : stored.message.size = stored'.message.size) :
    Alike (fun p p' => p.1 = p'.1 ∧ p.2.statistics = p'.2.statistics ∧ p.2.buffer = a.buffer ∧
      p'.2.buffer = a'.buffer ∧ p.2.bits = a.bits ∧ p'.2.bits = a'.bits)
      (a.decodeStored settings crc c { stored with soft })
      (a'.decodeStored settings crc c { stored' with soft }) := by
  have hpassed := hstored.passed_eq
  have hmessage := hstored.message_eq
  obtain ⟨_, message, passed⟩ := stored
  obtain ⟨_, message', passed'⟩ := stored'
  obtain rfl : passed = passed' := hpassed
  unfold decodeStored
  cases passed with
  | true =>
    obtain rfl : message = message' := hmessage rfl
    exact .ok ⟨rfl, h, rfl, rfl, rfl, rfl⟩
  | false =>
    dsimp only at hsize ⊢
    rw [hsize, h]
    refine (ReceptionSettings.decodeBlock_alike _ _ _ _ _ _ _).bind ?_
    rintro ⟨decision, decoder⟩ ⟨decision', decoder'⟩ hdecision
    obtain rfl : decision = decision' := hdecision
    exact .after _ fun statistics _ => .ok ⟨rfl, rfl, rfl, rfl, rfl, rfl⟩

/-- Codeblock `n` is taken in alike. The buffers come to agree on it, even where
they did not before. -/
theorem addBlock_alike (h : Abreast settings.newData blocks n a a') :
    Alike (Abreast settings.newData blocks (n + 1)) (addBlock settings crc softBits limit a (c, n))
      (addBlock settings crc softBits limit a' (c, n)) := by
  unfold addBlock
  dsimp only
  have hcount := h.count_left.trans h.count_right.symm
  refine (HarqBuffer.borrow_alike hcount _ _ _).bind ?_
  rintro _ _ ⟨hn, rfl, rfl⟩
  have hfit := (h.ahead n (Nat.le_refl n)).fit c.sentLength c.breakdown.1
  refine .after _ fun received _ => ?_
  rw [hfit.rateDematch_eq (by simp)]
  refine .after _ fun soft _ => ?_
  refine (decodeStored_alike h.statistics_eq hfit (by simp)).bind ?_
  rintro ⟨kept, a₁⟩ ⟨_, a₁'⟩ ⟨rfl, hstatistics, hbuffer, hbuffer', hbits, hbits'⟩
  dsimp only at hstatistics hbuffer hbuffer' hbits hbits' ⊢
  refine .ok ⟨hstatistics, ?_, ?_, ?_, fun i hi => ?_, fun i hi => ?_⟩
  · rw [hbits, hbits', h.bits_eq]
  · rw [hbuffer, HarqBuffer.count_store, h.count_left]
  · rw [hbuffer', HarqBuffer.count_store, h.count_right]
  · rw [hbuffer, hbuffer']
    rcases Nat.lt_succ_iff_lt_or_eq.mp hi with hlt | rfl
    · rw [HarqBuffer.block_store_of_ne (Nat.ne_of_gt hlt),
        HarqBuffer.block_store_of_ne (Nat.ne_of_gt hlt)]
      exact h.done i hlt
    · rw [HarqBuffer.block_store_self hn, HarqBuffer.block_store_self (hcount ▸ hn)]
  · rw [hbuffer, hbuffer', HarqBuffer.block_store_of_ne (Nat.ne_of_lt hi),
      HarqBuffer.block_store_of_ne (Nat.ne_of_lt hi)]
    exact h.ahead i (Nat.le_of_succ_le hi)

/-- All codeblocks are taken in alike, by induction on the visits. -/
theorem addBlocks_alike {codeblocks : Array Codeblock}
    (h : Abreast settings.newData blocks 0 a a') :
    Alike (Abreast settings.newData blocks codeblocks.size)
      (codeblocks.zipIdx.foldlM (addBlock settings crc softBits limit) a)
      (codeblocks.zipIdx.foldlM (addBlock settings crc softBits limit) a') := by
  rw [← Array.foldlM_toList, ← Array.foldlM_toList]
  have hlength : codeblocks.size = codeblocks.zipIdx.toList.length := by simp
  rw [hlength]
  refine Alike.foldlM (fun done b b' => Abreast settings.newData blocks done.length b b') h ?_
  rintro done ⟨c, i⟩ rest b b' hl hb
  rw [Array.toList_zipIdx] at hl
  obtain rfl := zipIdx_split hl
  rw [List.length_append, List.length_singleton]
  exact addBlock_alike hb

/-- After all codeblocks the assemblies differ in their decoders only, and these
take no part in the verification. -/
theorem Abreast.verify_eq {newData : Bool} (h : Abreast newData blocks blocks a a') :
    a.verify blocks = a'.verify blocks := by
  have hbuffer : a.buffer = a'.buffer :=
    HarqBuffer.ext_block (h.count_left.trans h.count_right.symm) fun i hi =>
      h.done i (h.count_left ▸ hi)
  rw [verify, verify, hbuffer, h.bits_eq]

end Assembly

/-! ## Receptions -/

namespace Reception

/-- What two receptions of one transmission have in common before the end of the
codeword. -/
structure Abreast (r r' : Reception) : Prop where
  settings_eq : r.settings = r'.settings
  softBits_eq : r.decoder.softBits = r'.decoder.softBits
  block_eq : r.block = r'.block
  finished_eq : r.finished = r'.finished
  count_eq : r.buffer.count = r'.buffer.count
  buffer_eq : r.settings.newData = false → r.buffer = r'.buffer

/-- The end of the codeword leaves the same result, transport block and buffer,
or the same fault. -/
theorem finish_alike {r r' : Reception} (h : r.Abreast r') :
    Alike (fun p p' => p.1 = p'.1 ∧ p.2.block = p'.2.block ∧ p.2.buffer = p'.2.buffer)
      r.finish r'.finish := by
  obtain ⟨settings, ⟨ldpc, softBits⟩, buffer, block, finished⟩ := r
  obtain ⟨settings', ⟨ldpc', softBits'⟩, buffer', block', finished'⟩ := r'
  obtain ⟨rfl, rfl, rfl, rfl, hcount, hbuffer⟩ := h
  dsimp only at hcount hbuffer
  unfold finish
  dsimp only
  rw [hcount]
  refine .after _ fun _ _ => .after _ fun _ _ => .after _ fun codeblocks _ =>
    .after _ fun _ hblocks => ?_
  have hblocks : codeblocks.size = buffer'.count := by
    simpa using require_eq_ok.mp hblocks
  -- the flags are all that differs in the way the codeblocks are found, and new data clear them
  have hstart : Assembly.Abreast settings.newData codeblocks.size 0
      ⟨ldpc, if settings.newData then buffer.clearPassed else buffer, IterationStatistics.none,
        #[]⟩
      ⟨ldpc', if settings.newData then buffer'.clearPassed else buffer', IterationStatistics.none,
        #[]⟩ := by
    cases hnew : settings.newData with
    | true =>
      refine ⟨rfl, rfl, ?_, ?_, fun i hi => absurd hi (Nat.not_lt_zero i), fun i _ => ?_⟩
      · simp [hblocks, hcount]
      · simp [hblocks]
      · exact .inr ⟨rfl, by simp, by simp⟩
    | false =>
      obtain rfl := hbuffer hnew
      exact ⟨rfl, rfl, hblocks.symm, hblocks.symm, fun i hi => absurd hi (Nat.not_lt_zero i),
        fun i _ => .inl rfl⟩
  refine (Assembly.addBlocks_alike hstart).bind fun a a' ha => .ok ?_
  rw [ha.verify_eq, ha.statistics_eq, ha.bits_eq]
  exact ⟨rfl, rfl, rfl⟩

end Reception

end Uplink
