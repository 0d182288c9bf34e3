import Uplink.Proofs.Crc
import Uplink.Proofs.Harq.Buffer
import Uplink.Proofs.Ldpc.Decoding
import Uplink.Proofs.Readable

/-!
# One codeblock of a reception

- `ReceptionSettings.decodeBlock_eq_ok`, `decodeBlock_of_erased`: decisions of either kind pass
  their check if they are accepted, and say no to erased parity bits.
- `Advance`: what a reception does with one stored codeblock.
- `gather`: the data bits of the messages, put together.
- `Visited`, `Visited.addBlock`: what the loop over the codeblocks has done so far, and that a
  visit to the next one carries on with it.
- `addBlocks_eq_ok`: what the loop over all codeblocks does.
- `Assembly.verify_eq`: when the assembled bits are the transport block.
-/

namespace Uplink

open Ldpc

/-! ## Decisions -/

namespace ReceptionSettings

variable {settings : ReceptionSettings} {decoder decoder' : Decoder} {crc : Crc} {c : Codeblock}
  {soft : Array SoftBit} {outputLength : Nat} {decision : Decision}

/-- A decision has the length that was asked for, and passes its check if it is
accepted. It is so with an early stop, when the decoder makes the check, and
without, when it is made afterwards. -/
theorem decodeBlock_eq_ok
    (h : settings.decodeBlock decoder crc c soft outputLength = .ok (decision, decoder')) :
    decision.message.size = outputLength ∧ decision.message.HasOnly01 ∧
      (decision.iterations.isSome = true →
        crc.ofBits (decision.message.extract 0 (outputLength - c.fillers)) = 0) := by
  unfold decodeBlock at h
  dsimp only at h
  split at h
  · obtain ⟨hsize, hbits⟩ := Decoder.message_of_decode h
    refine ⟨hsize, hbits, fun haccepted => ?_⟩
    obtain ⟨-, -, -, -, rfl, -⟩ := Decoder.decode_eq_ok_iff.mp h
    exact Decoder.check_of_decode h haccepted
  · -- without an early stop the decoder makes no check, and it is made on its message
    rw [bind_eq_ok] at h
    obtain ⟨⟨all, decoder''⟩, hdecode, h⟩ := h
    obtain ⟨rfl, rfl⟩ := Prod.mk.inj (Except.ok.inj h)
    obtain ⟨hsize, hbits⟩ := Decoder.message_of_decode hdecode
    refine ⟨hsize, hbits, fun haccepted => ?_⟩
    dsimp only at haccepted ⊢
    split at haccepted
    · rename_i hcheck
      rw [Bool.and_eq_true, beq_iff_eq] at hcheck
      exact hcheck.2
    · cases haccepted

/-- What the decoder did before does not matter for the decision: its working
values are set anew, and a graph that it kept is the one it would build. -/
theorem decision_unique {other other' : Decoder} {decision' : Decision}
    (h : settings.decodeBlock decoder crc c soft outputLength = .ok (decision, decoder'))
    (h' : settings.decodeBlock other crc c soft outputLength = .ok (decision', other')) :
    decision = decision' := by
  unfold decodeBlock at h h'
  dsimp only at h h'
  split at h
  · rename_i hearly
    rw [if_pos hearly] at h'
    exact Decoder.decision_unique h h'
  · rename_i hearly
    rw [if_neg hearly] at h'
    rw [bind_eq_ok] at h h'
    obtain ⟨⟨all, _⟩, hdecode, h⟩ := h
    obtain ⟨⟨all', _⟩, hdecode', h'⟩ := h'
    obtain rfl := Decoder.decision_unique hdecode hdecode'
    obtain ⟨rfl, -⟩ := Prod.mk.inj (Except.ok.inj h)
    obtain ⟨rfl, -⟩ := Prod.mk.inj (Except.ok.inj h')
    rfl

/-- A codeblock takes its whole budget if it is not accepted, and in any case
without an early stop. -/
theorem getD_iterations
    (h : settings.decodeBlock decoder crc c soft outputLength = .ok (decision, decoder'))
    (hbudget : decision.iterations = none ∨ settings.earlyStop = false) :
    decision.iterations.getD settings.iterations = settings.iterations := by
  rcases hbudget with hnone | hpatient
  · rw [hnone, Option.getD_none]
  · unfold decodeBlock at h
    dsimp only at h
    rw [if_neg (by rw [hpatient]; exact Bool.false_ne_true), bind_eq_ok] at h
    obtain ⟨⟨all, decoder''⟩, -, h⟩ := h
    obtain ⟨rfl, -⟩ := Prod.mk.inj (Except.ok.inj h)
    dsimp only
    split <;> rfl

theorem keepsSide_messageScale : Single.KeepsSide messageScale := by
  rw [messageScale]
  exact Single.keepsSide_messageFactor

/-- Soft bits that say nothing about the parity bits are not accepted, although
a message of zeros would pass the check. -/
theorem decodeBlock_of_erased
    (h : settings.decodeBlock decoder crc c soft outputLength = .ok (decision, decoder'))
    (hsignificant : 0 < c.messageLength - c.fillers)
    (herased : ∀ p, c.messageLength ≤ puncturedColumns * c.liftingSize + p →
      (soft.getD p SoftBit.erased).favour = 0) : decision.iterations = none := by
  unfold decodeBlock at h
  dsimp only at h
  split at h
  · refine Decoder.decode_of_erased ?_ h hsignificant herased
    exact keepsSide_messageScale
  · rw [bind_eq_ok] at h
    obtain ⟨⟨all, decoder''⟩, hdecode, h⟩ := h
    obtain ⟨rfl, rfl⟩ := Prod.mk.inj (Except.ok.inj h)
    have hnone : all.iterations = none := by
      refine Decoder.decode_of_erased ?_ hdecode hsignificant herased
      exact keepsSide_messageScale
    simp [hnone]

end ReceptionSettings

/-! ## One codeblock -/

/-- What a reception does with a stored codeblock: the soft bits are combined in
any case; a message that has passed is kept, and otherwise the soft bits are
decoded. -/
structure Advance (settings : ReceptionSettings) (crc : Crc) (c : Codeblock)
    (received : Array SoftBit) (old new : StoredBlock) : Prop where
  combined : c.rateDematch (old.fit c.sentLength c.breakdown.1).soft received settings.newData =
    .ok new.soft
  kept : old.passed = true →
    new.message = (old.fit c.sentLength c.breakdown.1).message ∧ new.passed = true
  decided : old.passed = false → ∃ decoder decision decoder',
    settings.decodeBlock decoder crc c new.soft c.breakdown.1 = .ok (decision, decoder') ∧
      new.message = decision.message ∧ new.passed = decision.iterations.isSome

namespace Advance

variable {settings : ReceptionSettings} {crc : Crc} {c : Codeblock} {received : Array SoftBit}
  {old new : StoredBlock}

/-- A codeblock that has passed stays passed, in this reception. -/
theorem passed_of_passed (h : Advance settings crc c received old new) (hold : old.passed = true) :
    new.passed = true :=
  (h.kept hold).2

theorem size_message (h : Advance settings crc c received old new) :
    new.message.size = c.breakdown.1 := by
  cases hold : old.passed with
  | true => rw [(h.kept hold).1, StoredBlock.size_message_fit]
  | false =>
    obtain ⟨_, _, _, hdecode, hmessage, -⟩ := h.decided hold
    rw [hmessage]
    exact (ReceptionSettings.decodeBlock_eq_ok hdecode).1

/-- A codeblock that passes in this reception passes its check, fillers apart.
-/
theorem check (h : Advance settings crc c received old new) (hold : old.passed = false)
    (hnew : new.passed = true) :
    crc.ofBits (new.message.extract 0 (c.breakdown.1 - c.fillers)) = 0 := by
  obtain ⟨_, decision, _, hdecode, hmessage, hpassed⟩ := h.decided hold
  rw [hmessage]
  exact (ReceptionSettings.decodeBlock_eq_ok hdecode).2.2 (hpassed ▸ hnew)

/-- Without knowledge of the parity bits no codeblock passes that has not passed
before. -/
theorem passed_of_erased (h : Advance settings crc c received old new)
    (hsignificant : 0 < c.messageLength - c.fillers)
    (herased : ∀ p, c.messageLength ≤ puncturedColumns * c.liftingSize + p →
      (new.soft.getD p SoftBit.erased).favour = 0) : new.passed = old.passed := by
  cases hold : old.passed with
  | true => exact h.passed_of_passed hold
  | false =>
    obtain ⟨_, decision, _, hdecode, -, hpassed⟩ := h.decided hold
    rw [hpassed, ReceptionSettings.decodeBlock_of_erased hdecode hsignificant herased]
    rfl

end Advance

namespace IterationStatistics

variable {s s' : IterationStatistics} {n k : Nat}

theorem record_eq_ok (h : s.record k = .ok s') :
    s' = ⟨s.count + 1, s.total + k, some (s.least?.elim k (min k)),
      some (s.greatest?.elim k (max k))⟩ := by
  unfold record at h
  simp only [bind_eq_ok, Size.add_eq_ok] at h
  obtain ⟨_, ⟨-, rfl⟩, _, ⟨-, rfl⟩, h⟩ := h
  exact (Except.ok.inj h).symm

theorem total_lt_of_record (h : s.record k = .ok s') : s'.total < Size.limit := by
  unfold record at h
  simp only [bind_eq_ok, Size.add_eq_ok] at h
  obtain ⟨_, -, _, ⟨htotal, rfl⟩, h⟩ := h
  obtain rfl := Except.ok.inj h
  exact htotal

/-- Statistics of `n` codeblocks that took `k` iterations each. -/
def uniform : Nat → Nat → IterationStatistics
  | 0, _ => none
  | n + 1, k => ⟨n + 1, (n + 1) * k, some k, some k⟩

@[simp] theorem total_uniform : (uniform n k).total = n * k := by
  cases n with
  | zero => exact (Nat.zero_mul k).symm
  | succ n => rfl

theorem eq_uniform_of_record (h : (uniform n k).record k = .ok s') : s' = uniform (n + 1) k := by
  rw [record_eq_ok h]
  cases n with
  | zero => simp [uniform, none]
  | succ n => simp [uniform, Nat.add_one_mul]

end IterationStatistics

namespace Assembly

variable {settings : ReceptionSettings} {crc : Crc} {softBits : Array SoftBit} {limit i : Nat}
  {c : Codeblock} {a a' : Assembly}

/-- What the visit to one codeblock does: it advances on its own span, and its
data bits go behind those of the codeblocks before it. The iterations are
counted only if it is decoded. -/
theorem addBlock_eq_ok (h : addBlock settings crc softBits limit a (c, i) = .ok a') :
    ∃ new, i < a.buffer.count ∧ c.stop ≤ softBits.size ∧
      Advance settings crc c (softBits.extract c.offset c.stop) (a.buffer.block i) new ∧
      a'.buffer = a.buffer.store i new ∧
      a'.bits = a.bits ++ new.message.extract 0 (min c.breakdown.2 (limit - a.bits.size)) ∧
      a'.statistics.count = a.statistics.count + (if (a.buffer.block i).passed then 0 else 1) ∧
      ((a.buffer.block i).passed = false → new.passed = false ∨ settings.earlyStop = false →
        a.statistics.record settings.iterations = .ok a'.statistics) := by
  unfold addBlock at h
  dsimp only at h
  simp only [bind_eq_ok, HarqBuffer.borrow_eq_ok] at h
  obtain ⟨_, ⟨hi, rfl⟩, received, hreceived, soft, hsoft, ⟨new, a₁⟩, hdecode, h⟩ := h
  -- the span is read before anything else, so it lies in the codeword
  have hspan : c.stop ≤ softBits.size ∧ received = softBits.extract c.offset c.stop := by
    unfold Buffer.span at hreceived
    split at hreceived
    · rename_i hle
      exact ⟨hle.2, (Except.ok.inj hreceived).symm⟩
    · cases hreceived
  obtain ⟨hstop, rfl⟩ := hspan
  obtain rfl := Except.ok.inj h
  unfold decodeStored at hdecode
  -- a codeblock that has passed is not decoded, and not counted
  cases hold : (a.buffer.block i).passed with
  | true =>
    simp only [StoredBlock.passed_fit, hold, if_true] at hdecode
    obtain ⟨rfl, rfl⟩ := Prod.mk.inj (Except.ok.inj hdecode)
    refine ⟨_, hi, hstop, ?_, rfl, rfl, rfl, fun hnot => Bool.noConfusion hnot⟩
    refine ⟨hsoft, fun _ => ⟨rfl, rfl⟩, fun hnot => ?_⟩
    rw [hold] at hnot
    cases hnot
  | false =>
    simp only [StoredBlock.passed_fit, hold, Bool.false_eq_true, if_false] at hdecode
    simp only [bind_eq_ok, StoredBlock.size_message_fit] at hdecode
    obtain ⟨⟨decision, decoder'⟩, hdecision, statistics, hstatistics, hdecode⟩ := hdecode
    obtain ⟨rfl, rfl⟩ := Prod.mk.inj (Except.ok.inj hdecode)
    refine ⟨_, hi, hstop, ?_, rfl, rfl, ?_, fun _ hundecided => ?_⟩
    · refine ⟨hsoft, fun hyes => ?_, fun _ => ⟨_, decision, _, hdecision, rfl, rfl⟩⟩
      rw [hold] at hyes
      cases hyes
    · rw [IterationStatistics.record_eq_ok hstatistics]
      rfl
    · rwa [ReceptionSettings.getD_iterations hdecision (hundecided.imp_left fun hfailed =>
        Option.isNone_iff_eq_none.mp (Option.isSome_eq_false_iff.mp hfailed))] at hstatistics

/-- The machine counts the iterations of all codeblocks: a visit that would go
beyond is a fault. -/
theorem total_lt_of_addBlock (h : addBlock settings crc softBits limit a (c, i) = .ok a')
    (ha : a.statistics.total < Size.limit) : a'.statistics.total < Size.limit := by
  unfold addBlock at h
  simp only [bind_eq_ok] at h
  obtain ⟨_, -, _, -, _, -, ⟨new, a₁⟩, hdecode, h⟩ := h
  obtain rfl := Except.ok.inj h
  unfold decodeStored at hdecode
  split at hdecode
  · obtain ⟨-, rfl⟩ := Prod.mk.inj (Except.ok.inj hdecode)
    exact ha
  · simp only [bind_eq_ok] at hdecode
    obtain ⟨_, -, _, hrecord, hdecode⟩ := hdecode
    obtain ⟨-, rfl⟩ := Prod.mk.inj (Except.ok.inj hdecode)
    exact IterationStatistics.total_lt_of_record hrecord

end Assembly

/-! ## All codeblocks -/

/-- The data bits of the first messages, as many as fit below the limit. -/
def gather (dataLength limit : Nat) (message : Nat → Bits) : Nat → Bits
  | 0 => #[]
  | k + 1 =>
    let bits := gather dataLength limit message k
    bits ++ (message k).extract 0 (min dataLength (limit - bits.size))

section Gather

variable {dataLength limit : Nat} {message message' : Nat → Bits} {k : Nat}

theorem gather_congr (h : ∀ i < k, message i = message' i) :
    gather dataLength limit message k = gather dataLength limit message' k := by
  induction k with
  | zero => rfl
  | succ k ih =>
    rw [gather, gather, ih fun i hi => h i (Nat.lt_succ_of_lt hi), h k (Nat.lt_succ_self k)]

theorem size_gather (h : ∀ i < k, dataLength ≤ (message i).size) :
    (gather dataLength limit message k).size = min (k * dataLength) limit := by
  induction k with
  | zero => simp [gather]
  | succ k ih =>
    have hk := h k (Nat.lt_succ_self k)
    rw [gather, Array.size_append, ih fun i hi => h i (Nat.lt_succ_of_lt hi), Array.size_extract,
      Nat.add_one_mul]
    omega

/-- What holds of all bits of the messages holds of those put together. -/
theorem forall_mem_gather {motive : UInt8 → Prop} (h : ∀ i < k, ∀ b ∈ message i, motive b) :
    ∀ b ∈ gather dataLength limit message k, motive b := by
  induction k with
  | zero => exact fun b hb => absurd hb (Array.not_mem_empty b)
  | succ k ih =>
    intro b hb
    rcases Array.mem_append.mp hb with hb | hb
    · exact ih (fun i hi => h i (Nat.lt_succ_of_lt hi)) b hb
    · obtain ⟨j, hj, rfl⟩ := Array.mem_extract_iff_getElem.mp hb
      exact h k (Nat.lt_succ_self k) _ (Array.getElem_mem _)

end Gather

/-- What a loop over codeblocks has made of the assembly `a` when it has visited
the first `n`: each of these advanced on its own span, and those still to come
are as the loop found them. -/
structure Visited (settings : ReceptionSettings) (crc : Crc) (softBits : Array SoftBit)
    (limit dataLength : Nat) (codeblock : Nat → Codeblock) (a : Assembly) (n : Nat)
    (b : Assembly) : Prop where
  count_eq : b.buffer.count = a.buffer.count
  advanced : ∀ i < n, (codeblock i).stop ≤ softBits.size ∧
    Advance settings crc (codeblock i) (softBits.extract (codeblock i).offset (codeblock i).stop)
      (a.buffer.block i) (b.buffer.block i)
  ahead : ∀ i, n ≤ i → b.buffer.block i = a.buffer.block i
  bits_eq : b.bits = gather dataLength limit (fun i => (b.buffer.block i).message) n
  decoded_eq : b.statistics.count = a.statistics.count +
    ((List.range n).countP fun i => !(a.buffer.block i).passed)
  uniform : a.statistics = .none →
    (∀ i < n, (a.buffer.block i).passed = false ∧
      ((b.buffer.block i).passed = false ∨ settings.earlyStop = false)) →
    b.statistics = .uniform n settings.iterations

section Visits

variable {settings : ReceptionSettings} {crc : Crc} {softBits : Array SoftBit}
  {limit dataLength n : Nat} {codeblock : Nat → Codeblock} {a b b' : Assembly}

/-- Before the first visit nothing has happened. -/
theorem visited_zero (hbits : a.bits = #[]) :
    Visited settings crc softBits limit dataLength codeblock a 0 a where
  count_eq := rfl
  advanced i hi := absurd hi (Nat.not_lt_zero i)
  ahead _ _ := rfl
  bits_eq := hbits
  decoded_eq := rfl
  uniform hnone _ := hnone

/-- A visit takes in the next codeblock. It leaves the storage of all others
alone, so the messages that have been put together are still those of the
buffer. -/
theorem Visited.addBlock (h : Visited settings crc softBits limit dataLength codeblock a n b)
    (hlength : (codeblock n).breakdown.2 = dataLength)
    (hstep : Assembly.addBlock settings crc softBits limit b (codeblock n, n) = .ok b') :
    Visited settings crc softBits limit dataLength codeblock a (n + 1) b' := by
  obtain ⟨new, hn, hstop, hnew, hbuffer, hbits, hcounted, hrecord⟩ := Assembly.addBlock_eq_ok hstep
  rw [h.ahead n (Nat.le_refl n)] at hnew hcounted hrecord
  have hothers : ∀ i ≠ n, b'.buffer.block i = b.buffer.block i := fun i hi => by
    rw [hbuffer, HarqBuffer.block_store_of_ne hi.symm]
  have hown : b'.buffer.block n = new := by rw [hbuffer, HarqBuffer.block_store_self hn]
  refine
    { count_eq := ?count, advanced := fun i hi => ?advanced, ahead := fun i hi => ?ahead
      bits_eq := ?bits, decoded_eq := ?decoded, uniform := fun hnone hall => ?uniform }
  case count => rw [hbuffer, HarqBuffer.count_store, h.count_eq]
  case advanced =>
    rcases Nat.lt_succ_iff_lt_or_eq.mp hi with hlt | rfl
    · rw [hothers i (Nat.ne_of_lt hlt)]
      exact h.advanced i hlt
    · rw [hown]
      exact ⟨hstop, hnew⟩
  case ahead =>
    rw [hothers i (by omega)]
    exact h.ahead i (by omega)
  case bits =>
    rw [gather, gather_congr fun i hi => by rw [hothers i (Nat.ne_of_lt hi)], ← h.bits_eq, hown,
      hbits, hlength]
  case decoded =>
    rw [hcounted, h.decoded_eq, List.range_succ, List.countP_append, Nat.add_assoc]
    congr 2
    cases hpassed : (a.buffer.block n).passed <;> simp [hpassed]
  case uniform =>
    have hbefore : b.statistics = .uniform n settings.iterations := by
      refine h.uniform hnone fun i hi => ?_
      rw [← hothers i (Nat.ne_of_lt hi)]
      exact hall i (Nat.lt_succ_of_lt hi)
    obtain ⟨hold, hleft⟩ := hall n (Nat.lt_succ_self n)
    rw [hown] at hleft
    have hstep := hrecord hold hleft
    rw [hbefore] at hstep
    exact IterationStatistics.eq_uniform_of_record hstep

/-- What the loop over all codeblocks does, by induction on the visits. -/
theorem addBlocks_eq_ok (hlength : ∀ i < n, (codeblock i).breakdown.2 = dataLength)
    (hbits : a.bits = #[])
    (h : ((List.range n).map fun i => (codeblock i, i)).foldlM
      (Assembly.addBlock settings crc softBits limit) a = .ok b) :
    Visited settings crc softBits limit dataLength codeblock a n b := by
  rw [List.foldlM_map] at h
  have hloop := foldlM_invariant
    (fun seen => Visited settings crc softBits limit dataLength codeblock a seen.length) h
    (visited_zero hbits) fun seen k rest b₁ b₂ hsplit hvisited hstep => by
      obtain ⟨rfl, hk⟩ := range_split hsplit
      rw [List.length_range] at hvisited
      rw [List.length_append, List.length_range]
      exact hvisited.addBlock (hlength k hk) hstep
  rwa [List.length_range] at hloop

end Visits

namespace Assembly

/-- How an assembly of `blocks` codeblocks is verified. The flags are taken back
only if all codeblocks passed and the check over all of them did not. -/
theorem verify_eq (a : Assembly) {blocks : Nat} (hcount : a.buffer.count = blocks) :
    ((a.verify blocks).1 = true ↔ (∀ i < blocks, (a.buffer.block i).passed = true) ∧
      (blocks = 1 ∨ Segmentation.reassemblyCrc.ofBits a.bits = 0)) ∧
      (a.verify blocks).2 =
        if (∀ i < blocks, (a.buffer.block i).passed = true) ∧ (a.verify blocks).1 = false
        then a.buffer.clearPassed else a.buffer := by
  subst hcount
  unfold Assembly.verify
  by_cases hall : ∀ i < a.buffer.count, (a.buffer.block i).passed = true
  · rw [if_pos (HarqBuffer.all_passed_iff.mpr hall)]
    by_cases htogether :
        (a.buffer.count = 1 || Segmentation.reassemblyCrc.ofBits a.bits == 0) = true
    · rw [if_pos htogether]
      refine ⟨⟨fun _ => ⟨hall, by simpa using htogether⟩, fun _ => rfl⟩, ?_⟩
      rw [if_neg fun h => Bool.noConfusion h.2]
    · rw [if_neg htogether]
      refine ⟨⟨fun h => Bool.noConfusion h, fun h => absurd ?_ htogether⟩, ?_⟩
      · simpa using h.2
      · rw [if_pos ⟨hall, rfl⟩]
  · -- one codeblock that failed is enough, and the flags of the others stay
    rw [if_neg fun h => hall (HarqBuffer.all_passed_iff.mp h)]
    refine ⟨⟨fun h => Bool.noConfusion h, fun h => absurd h.1 hall⟩, ?_⟩
    rw [if_neg fun h => hall h.1]

end Assembly

end Uplink
