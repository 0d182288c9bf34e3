import Uplink.Proofs.Harq.OneProcess
import Uplink.Proofs.Receiver.Reception
import Uplink.Proofs.Reuse.Codeblocks
import Uplink.Proofs.Simulation.Exchange
import Uplink.Simulation.Draws

/-!
# Accounting of attempts

A device sends a block until it is received or the attempts are used up. The exchanges of a run are
the attempts at one block after the other, whatever its sources decide and whatever its processors
report, and the counts of the device are those of these blocks.

- `Exchange.IsAttempt`, `Exchange.Repeats`, `Attempts`: successive attempts at a block.
- `Device.Ledger`: the finished blocks and the pending one as the state of a device shows them.
- `Ledger.record`: one slot is one more attempt, and `Ledger.recordAll`: so are several slots.
- `accounts_of_exchanges`: the counts after every slot of a new device.
-/

namespace Uplink

namespace Simulation

/-! ## Attempts at a block -/

namespace Exchange

/-- The attempt number `k` at a block: the data are new in the first one only,
the redundancy versions are 0, 2, 3 and 1 over and over, and the buffer is one
for the codeblocks of the block. -/
structure IsAttempt (x : Exchange) (k : Nat) : Prop where
  parameters : ∃ p, x.pdu.block = some p ∧ p.rv = [0, 2, 3, 1].getD (k % 4) 0 ∧
    (p.newData = true ↔ k = 0) ∧
    ∃ segmentation, Segmentation.ofSize p.base (x.data.size * 8) = .ok segmentation ∧
      x.buffer.count = segmentation.blocks
  begins : k = 0 → x.buffer = HarqBuffer.ofCount x.buffer.count

/-- The block of `x` was not received, and `y` is the next attempt at it. In the
following slot it goes on with the buffer that `x` has left. -/
structure Repeats (y x : Exchange) : Prop where
  failed : x.succeeded = false
  data_eq : y.data = x.data
  buffer_eq : x.pdu.slot.Valid → x.pdu.slot.next = .ok y.pdu.slot →
    x.received.buffer.count = x.buffer.count → y.buffer = x.received.buffer

end Exchange

/-- Successive attempts at a block. -/
structure Attempts (xs : List Exchange) : Prop where
  numbered : ∀ (k : Nat) (x : Exchange), xs[k]? = some x → x.IsAttempt k
  repeats : xs.IsChain fun x y => y.Repeats x

namespace Attempts

theorem nil : Attempts [] := ⟨fun _ _ h => (nomatch h), .nil⟩

/-- One attempt more, if it has its number and repeats the last one. -/
theorem append {xs : List Exchange} {x : Exchange} (h : Attempts xs)
    (hnumber : x.IsAttempt xs.length) (hrepeats : ∀ y ∈ xs.getLast?, x.Repeats y) :
    Attempts (xs ++ [x]) where
  numbered := by
    intro k y hy
    rcases Nat.lt_trichotomy k xs.length with hlt | rfl | hgt
    · exact h.numbered k y (by rwa [List.getElem?_append_left hlt] at hy)
    · rw [List.getElem?_append_right (Nat.le_refl _), Nat.sub_self] at hy
      obtain rfl : x = y := Option.some.inj hy
      exact hnumber
    · rw [List.getElem?_eq_none (by rw [List.length_append]; exact hgt)] at hy
      cases hy
  repeats := by
    refine List.isChain_append.mpr ⟨h.repeats, .singleton x, fun y hy z hz => ?_⟩
    obtain rfl : x = z := Option.some.inj hz
    exact hrepeats y hy

end Attempts

/-- The last attempt succeeded. -/
def delivered (xs : List Exchange) : Bool := xs.getLast?.any (·.succeeded)

/-- All attempts at a block: up to the first that succeeds, or as many as are
allowed. -/
structure Finished (maxRetransmissions : Nat) (xs : List Exchange) : Prop where
  attempts : Attempts xs
  nonempty : xs ≠ []
  length_le : xs.length ≤ maxRetransmissions + 1
  dropped : delivered xs = false → xs.length = maxRetransmissions + 1

/-! ## Buffers in consecutive slots -/

/-- Consecutive slots from a valid one on are valid. -/
theorem valid_of_consecutive {slots : List SlotPoint} (hfirst : ∀ slot ∈ slots.head?, slot.Valid)
    (h : slots.IsChain fun a b => a.next = .ok b) : ∀ slot ∈ slots, slot.Valid := by
  induction slots with
  | nil => exact fun slot hslot => nomatch hslot
  | cons a slots ih =>
    obtain ⟨hhead, htail⟩ := List.isChain_cons.mp h
    have ha : a.Valid := hfirst a rfl
    refine List.forall_mem_cons.mpr ⟨ha, ih (fun b hb => ?_) htail⟩
    obtain ⟨next, hnext, hvalid, -⟩ := SlotPoint.exists_next ha
    exact Except.ok.inj (hnext.symm.trans (hhead b hb)) ▸ hvalid

/-- Each attempt goes on with the buffer that the one before has left. -/
def Combining (xs : List Exchange) : Prop := xs.IsChain fun x y => y.buffer = x.received.buffer

theorem Attempts.combines {xs log : List Exchange} (h : Attempts xs) (hlog : xs <:+: log)
    (hvalid : ∀ x ∈ log, x.pdu.slot.Valid)
    (hcount : ∀ x ∈ log, x.received.buffer.count = x.buffer.count)
    (hslots : log.IsChain fun x y => x.pdu.slot.next = .ok y.pdu.slot) : Combining xs := by
  have hconsecutive : xs.IsChain fun x y => x.pdu.slot.next = .ok y.pdu.slot :=
    hslots.infix hlog
  have hnext := List.isChain_iff_getElem.mp hconsecutive
  have hrepeats := List.isChain_iff_getElem.mp h.repeats
  refine List.isChain_iff_getElem.mpr fun i hi => ?_
  have hmem : xs[i] ∈ log := hlog.subset (List.getElem_mem _)
  exact (hrepeats i hi).buffer_eq (hvalid _ hmem) (hnext i hi) (hcount _ hmem)

section Accounting

variable [Randomness]

/-! ## The state of a device -/

namespace Device

/-- The reservation after attempts at the pending block. -/
def kept (d : Device) (current : List Exchange) : Option Reservation :=
  current.getLast?.map fun x => ⟨d.harqId, x.received.buffer, x.pdu.slot.count + 100⟩

/-- The state of a device after all attempts at the `finished` blocks and some
at the `current` one, if there is one. -/
structure Ledger (finished : List (List Exchange)) (current : List Exchange) (d : Device) :
    Prop where
  sends : d.pdu.block.isSome = true
  ended : ∀ xs ∈ finished, Finished d.maxRetransmissions xs
  attempts : Attempts current
  length_le : current.length ≤ d.maxRetransmissions
  failed : ∀ x ∈ current.getLast?, x.succeeded = false
  pdu_eq : ∀ x ∈ current.getLast?, d.pdu = x.pdu
  pending_eq : d.pending = current.getLast?.map fun x => ⟨x.data, current.length⟩
  pool_eq : d.pool = HarqPool.single (d.kept current)
  transmissions_eq : d.statistics.transmissions = (finished.map List.length).sum + current.length
  firstTransmissions_eq : d.statistics.firstTransmissions =
    finished.length + if d.pending.isSome then 1 else 0
  delivered_eq : d.statistics.delivered = finished.countP Simulation.delivered
  dropped_eq : d.statistics.dropped = finished.countP fun xs => !Simulation.delivered xs

namespace Ledger

variable {finished : List (List Exchange)} {current : List Exchange} {d d' : Device}
  {p : BlockParameters} {slot : SlotPoint} {x : Exchange}

/-- As many attempts at the pending block have failed as there are current ones.
-/
theorem attempt_eq (h : d.Ledger finished current) : d.attempt = current.length := by
  rw [attempt, h.pending_eq]
  rcases List.eq_nil_or_concat' current with rfl | ⟨earlier, last, rfl⟩
  · rfl
  · rw [List.getLast?_concat]
    rfl

/-- A further attempt sends the same data. -/
theorem data_eq (h : d.Ledger finished current) (hx : d.Attempted p slot x d') {y : Exchange}
    (hy : y ∈ current.getLast?) : x.data = y.data :=
  hx.data_eq ⟨y.data, current.length⟩ (by rw [h.pending_eq, hy]; rfl)

theorem isSome_pending (h : d.Ledger finished current) :
    d.pending.isSome = !current.isEmpty := by
  rw [h.pending_eq, Option.isSome_map]
  cases current <;> rfl

/-- The buffer that the next attempt finds: the one the last attempt left,
unless its reservation has ended. -/
theorem buffer_eq (h : d.Ledger finished current) (hx : d.Attempted p slot x d') :
    ∃ segmentation, Segmentation.ofSize p.base (x.data.size * 8) = .ok segmentation ∧
      x.buffer = HarqPool.bufferFor
        (((d.kept current).filter fun r => !HarqPool.reached slot.count r.ends).map (·.buffer))
        segmentation.blocks (current.length == 0) ∧
      d'.pool = HarqPool.single
        (if d.outcome x = .again then some ⟨d.harqId, x.received.buffer, slot.count + 100⟩
          else none) := by
  obtain ⟨segmentation, pool, hsegmentation, hreserve, hpool⟩ := hx.granted
  have hid : ∀ r ∈ (d.kept current).filter fun r => !HarqPool.reached slot.count r.ends,
      r.id = d.harqId := by
    intro r hr
    obtain ⟨hr, -⟩ := Option.filter_eq_some_iff.mp hr
    obtain ⟨y, -, rfl⟩ := Option.map_eq_some_iff.mp hr
    rfl
  rw [h.pool_eq, HarqPool.expire_single, HarqPool.reserve_single hid, h.attempt_eq] at hreserve
  obtain ⟨hbuffer, rfl⟩ := Prod.mk.inj (Except.ok.inj hreserve)
  refine ⟨segmentation, hsegmentation, hbuffer.symm, ?_⟩
  rw [hpool, HarqPool.update_single, HarqPool.release_single]
  split <;> rfl

/-- One slot is one more attempt at the pending block, or the first one at the
next block. -/
theorem attempts_append (h : d.Ledger finished current) (hp : d.pdu.block = some p)
    (hx : d.Attempted p slot x d') : Attempts (current ++ [x]) := by
  obtain ⟨segmentation, hsegmentation, hbuffer, -⟩ := h.buffer_eq hx
  refine h.attempts.append ?_ fun y hy => ?_
  · constructor
    case parameters =>
      have hblock := congrArg Pdu.block hx.pdu_eq
      rw [h.attempt_eq] at hblock
      exact ⟨_, hblock, rfl, beq_iff_eq, segmentation, hsegmentation,
        by rw [hbuffer, HarqPool.count_bufferFor]⟩
    case begins =>
      intro hzero
      rw [hbuffer, HarqPool.count_bufferFor]
      exact HarqPool.bufferFor_of_new (.inl (beq_iff_eq.mpr hzero))
  · constructor
    case failed => exact h.failed y hy
    case data_eq => exact h.data_eq hx hy
    case buffer_eq =>
      intro hvalid hnext hcount
      rw [congrArg Pdu.slot hx.pdu_eq] at hnext
      have hkept : (d.kept current).filter (fun r => !HarqPool.reached slot.count r.ends) =
          some ⟨d.harqId, y.received.buffer, y.pdu.slot.count + 100⟩ := by
        rw [kept, hy, Option.map_some, Option.filter_some,
          HarqPool.not_reached_next hvalid hnext]
        rfl
      have hlater : (current.length == 0) = false := by
        rw [beq_eq_false_iff_ne, Ne, List.length_eq_zero_iff]
        rintro rfl
        cases hy
      rw [hbuffer, hkept, hlater]
      refine HarqPool.bufferFor_of_kept (hcount.trans ?_)
      -- both attempts cut the same block in the same way
      obtain ⟨p', hp', -, -, segmentation', hsegmentation', hblocks⟩ :=
        (h.attempts.numbered _ y (List.getLast?_eq_getElem? ▸ hy)).parameters
      rw [← h.pdu_eq y hy, hp] at hp'
      obtain rfl := Option.some.inj hp'
      rw [h.data_eq hx hy, hsegmentation'] at hsegmentation
      rw [hblocks, Except.ok.inj hsegmentation]

/-- A failed attempt is repeated until the attempts are used up: the first one
and all retransmissions. -/
theorem outcome_eq (h : d.Ledger finished current) (x : Exchange) :
    d.outcome x =
      if x.succeeded then .delivered
      else if d.maxRetransmissions ≤ current.length then .dropped else .again := by
  rw [outcome, PendingBlock.outcome, h.attempt_eq]

theorem firstTransmissions_succ (h : d.Ledger finished current) (hx : d.Attempted p slot x d') :
    d'.statistics.firstTransmissions = finished.length + 1 := by
  rw [hx.firstTransmissions, h.firstTransmissions_eq, h.isSome_pending, h.attempt_eq]
  cases current with
  | nil => rfl
  | cons => rfl

/-- The block goes on: the ledger has one current attempt more, and no block is
counted. -/
theorem again (h : d.Ledger finished current) (hp : d.pdu.block = some p)
    (hx : d.Attempted p slot x d') (hagain : d.outcome x = .again) :
    d'.Ledger finished (current ++ [x]) := by
  obtain ⟨-, -, -, hpool⟩ := h.buffer_eq hx
  -- it is repeated because it failed and attempts are left
  obtain ⟨hfailed, hroom⟩ : x.succeeded = false ∧ current.length < d.maxRetransmissions := by
    rw [h.outcome_eq x] at hagain
    by_cases hsucceeded : x.succeeded = true
    · rw [if_pos hsucceeded] at hagain
      cases hagain
    · by_cases hmost : d.maxRetransmissions ≤ current.length
      · rw [if_neg hsucceeded, if_pos hmost] at hagain
        cases hagain
      · exact ⟨Bool.eq_false_iff.mpr hsucceeded, Nat.lt_of_not_le hmost⟩
  have hpending : d'.pending = some ⟨x.data, (current ++ [x]).length⟩ := by
    rw [hx.pending_eq, hagain, PendingBlock.after, h.attempt_eq, List.length_append]
    rfl
  constructor
  case sends => rw [hx.next_pdu, hx.pdu_eq]; rfl
  case ended => rw [hx.maxRetransmissions_eq]; exact h.ended
  case attempts => exact h.attempts_append hp hx
  case length_le =>
    rw [hx.maxRetransmissions_eq, List.length_append]
    exact hroom
  case failed =>
    intro y hy
    rw [List.getLast?_concat] at hy
    exact Option.some.inj hy ▸ hfailed
  case pdu_eq =>
    intro y hy
    rw [List.getLast?_concat] at hy
    rw [hx.next_pdu, Option.some.inj hy]
  case pending_eq => rw [hpending, List.getLast?_concat]; rfl
  case pool_eq =>
    rw [hpool, if_pos hagain, kept, List.getLast?_concat, Option.map_some, harqId, harqId,
      hx.settings_eq, congrArg Pdu.slot hx.pdu_eq]
  case transmissions_eq =>
    rw [hx.transmissions, h.transmissions_eq, List.length_append, Nat.add_assoc]
    rfl
  case firstTransmissions_eq => rw [h.firstTransmissions_succ hx, hpending]; rfl
  case delivered_eq => rw [hx.delivered, h.delivered_eq, hagain]; rfl
  case dropped_eq => rw [hx.dropped, h.dropped_eq, hagain]; rfl

/-- The block is finished, with this attempt as its last one; the next slot
begins with a new block. -/
theorem finish (h : d.Ledger finished current) (hp : d.pdu.block = some p)
    (hx : d.Attempted p slot x d') (hfinish : d.outcome x ≠ .again) :
    d'.Ledger (finished ++ [current ++ [x]]) [] := by
  obtain ⟨-, -, -, hpool⟩ := h.buffer_eq hx
  -- if it is not repeated it has been delivered, or its attempts are used up
  have houtcome : d.outcome x = if x.succeeded then .delivered else .dropped := by
    rw [h.outcome_eq x] at hfinish ⊢
    by_cases hmost : d.maxRetransmissions ≤ current.length
    · rw [if_pos hmost]
    · rw [if_neg hmost] at hfinish ⊢
      cases hsucceeded : x.succeeded with
      | true => rfl
      | false => exact absurd (by rw [hsucceeded]; rfl) hfinish
  have hdelivered : Simulation.delivered (current ++ [x]) = x.succeeded := by
    rw [Simulation.delivered, List.getLast?_concat]
    rfl
  have hlength : (current ++ [x]).length = current.length + 1 := List.length_append
  have hlength_le := h.length_le
  have hpending : d'.pending = none := by
    rw [hx.pending_eq, houtcome]
    split <;> rfl
  constructor
  case sends => rw [hx.next_pdu, hx.pdu_eq]; rfl
  case ended =>
    rw [hx.maxRetransmissions_eq, List.forall_mem_append]
    refine ⟨h.ended, List.forall_mem_singleton.mpr ?_⟩
    constructor
    case attempts => exact h.attempts_append hp hx
    case nonempty => exact List.append_ne_nil_of_right_ne_nil _ (List.cons_ne_nil _ _)
    case length_le => omega
    case dropped =>
      intro hdropped
      rw [hdelivered] at hdropped
      by_contra hless
      have hmost : ¬ d.maxRetransmissions ≤ current.length := by omega
      rw [h.outcome_eq x, hdropped, if_neg hmost] at hfinish
      exact hfinish rfl
  case attempts => exact .nil
  case length_le => exact Nat.zero_le _
  case failed => exact fun y hy => nomatch hy
  case pdu_eq => exact fun y hy => nomatch hy
  case pending_eq => exact hpending
  case pool_eq => rw [hpool, if_neg hfinish]; rfl
  case transmissions_eq =>
    rw [hx.transmissions, h.transmissions_eq, List.map_append, List.sum_append, List.map_singleton,
      List.sum_singleton, hlength]
    rfl
  case firstTransmissions_eq =>
    rw [h.firstTransmissions_succ hx, hpending, List.length_append]
    rfl
  case delivered_eq =>
    rw [hx.delivered, h.delivered_eq, houtcome, List.countP_append, List.countP_singleton,
      hdelivered]
    cases x.succeeded <;> rfl
  case dropped_eq =>
    rw [hx.dropped, h.dropped_eq, houtcome, List.countP_append, List.countP_singleton, hdelivered]
    cases x.succeeded <;> rfl

/-- One slot is one more attempt, which either goes on or finishes a block. -/
theorem record (h : d.Ledger finished current) (hp : d.pdu.block = some p)
    (hx : d.Attempted p slot x d') :
    ∃ finished' current', d'.Ledger finished' current' ∧
      finished'.flatten ++ current' = finished.flatten ++ current ++ [x] := by
  by_cases hagain : d.outcome x = .again
  · exact ⟨_, _, h.again hp hx hagain, by rw [List.append_assoc]⟩
  · refine ⟨_, _, h.finish hp hx hagain, ?_⟩
    rw [List.flatten_append, List.flatten_singleton, List.append_nil, List.append_assoc]

/-- Several slots are as many attempts, by induction on the slots. -/
theorem recordAll (h : d.Ledger finished current) {calls : List Call}
    {log : List Exchange} (hlog : (d.exchanges calls).run = .ok (.ok (log, d'))) :
    ∃ finished' current', d'.Ledger finished' current' ∧
      finished'.flatten ++ current' = finished.flatten ++ current ++ log ∧
      log.map (·.pdu.slot) = calls.map (·.slot) ∧
      d'.maxRetransmissions = d.maxRetransmissions := by
  induction calls generalizing d finished current log with
  | nil =>
    cases hlog
    exact ⟨finished, current, h, (List.append_nil _).symm, rfl, rfl⟩
  | cons call calls ih =>
    obtain ⟨⟨x, next⟩, hx, hlog⟩ := run_bind_eq_ok.mp hlog
    obtain ⟨⟨xs, last⟩, hxs, hlog⟩ := run_bind_eq_ok.mp hlog
    cases hlog
    obtain ⟨p, hp⟩ := Option.isSome_iff_exists.mp h.sends
    have hattempted := exchange_eq_ok hp hx
    obtain ⟨finished₁, current₁, hnext, hflat₁⟩ := h.record hp hattempted
    obtain ⟨finished₂, current₂, hlast, hflat₂, hslots, hmax⟩ := ih hnext hxs
    refine ⟨finished₂, current₂, hlast, ?_, ?_, hmax.trans hattempted.maxRetransmissions_eq⟩
    · rw [hflat₂, hflat₁, List.append_assoc, List.singleton_append]
    · rw [List.map_cons, List.map_cons, hslots, congrArg Pdu.slot hattempted.pdu_eq]

end Ledger

/-! ## Devices from their first slot on -/

variable {d d' : Device} {calls : List Call} {log : List Exchange}

/-- A device before its first slot. -/
structure New (d : Device) : Prop where
  pending_eq : d.pending = none
  pool_eq : d.pool = HarqPool.empty HarqPoolSettings.standard
  statistics_eq : d.statistics = {}

theorem new_of_create {s : Settings} {scs : SubcarrierSpacing} {device : DeviceSettings}
    {seed : UInt64} (h : (create s scs device seed).run = .ok (.ok d)) :
    d.New ∧ d.maxRetransmissions = s.transmission.maxRetransmissions := by
  obtain ⟨receiver, -, h⟩ := run_bind_eq_ok.mp h
  obtain ⟨pdu, -, h⟩ := run_bind_eq_ok.mp h
  obtain ⟨verdict, -, h⟩ := run_bind_eq_ok.mp h
  obtain ⟨-, -, h⟩ := run_bind_eq_ok.mp h
  cases hchannel : Channel.ofSnr device.snrDb seed with
  | none =>
    rw [hchannel] at h
    cases h
  | some channel =>
    rw [hchannel] at h
    cases h
    exact ⟨⟨rfl, rfl, rfl⟩, rfl⟩

theorem New.ledger (h : d.New) (hsends : d.pdu.block.isSome = true) : d.Ledger [] [] := by
  obtain ⟨hpending, hpool, hstatistics⟩ := h
  constructor
  case sends => exact hsends
  case ended => exact fun xs hxs => nomatch hxs
  case attempts => exact .nil
  case length_le => exact Nat.zero_le _
  case failed => exact fun x hx => nomatch hx
  case pdu_eq => exact fun x hx => nomatch hx
  case pending_eq => exact hpending
  case pool_eq => exact hpool
  case transmissions_eq => rw [hstatistics]; rfl
  case firstTransmissions_eq => rw [hstatistics, hpending]; rfl
  case delivered_eq => rw [hstatistics]; rfl
  case dropped_eq => rw [hstatistics]; rfl

/-- What a device shows after `calls` slots, all attempts at the `finished`
blocks and those at the `current` one. -/
structure Accounts (maxRetransmissions calls : Nat) (finished : List (List Exchange))
    (current : List Exchange) (d : Device) : Prop where
  ended : ∀ xs ∈ finished, Finished maxRetransmissions xs
  attempts : Attempts current
  /-- The pending block, if there is one, is that of the current attempts, which have failed. -/
  pending_eq : d.pending = current.getLast?.map fun x => ⟨x.data, current.length⟩
  attempt_bounds : ∀ b ∈ d.pending, 1 ≤ b.attempt ∧ b.attempt ≤ maxRetransmissions
  transmissions_eq : d.statistics.transmissions = calls
  transmissions_sum : d.statistics.transmissions =
    (finished.map List.length).sum + d.pending.elim 0 (·.attempt)
  firstTransmissions_eq : d.statistics.firstTransmissions =
    d.statistics.delivered + d.statistics.dropped + if d.pending.isSome then 1 else 0
  delivered_eq : d.statistics.delivered = finished.countP delivered
  dropped_eq : d.statistics.dropped = finished.countP fun xs => !delivered xs
  count_pool : d.pool.count = if d.pending.isSome then 1 else 0

namespace Ledger

variable {finished : List (List Exchange)} {current : List Exchange}

/-- The counts of a device are read off its ledger. -/
theorem accounts (h : d.Ledger finished current) {n : Nat}
    (hn : (finished.flatten ++ current).length = n) :
    d.Accounts d.maxRetransmissions n finished current := by
  have hattempt : d.pending.elim 0 (·.attempt) = current.length := by
    rw [h.pending_eq]
    rcases List.eq_nil_or_concat' current with rfl | ⟨earlier, last, rfl⟩
    · rfl
    · rw [List.getLast?_concat]
      rfl
  constructor
  case ended => exact h.ended
  case attempts => exact h.attempts
  case pending_eq => exact h.pending_eq
  -- a pending block has been sent at least once, and may be sent again
  case attempt_bounds =>
    intro b hb
    rw [Option.mem_def] at hb
    have hsome := h.isSome_pending
    rw [hb] at hattempt hsome
    have hnonempty : current ≠ [] := by
      rintro rfl
      cases hsome
    rw [show b.attempt = current.length from hattempt]
    exact ⟨List.length_pos_iff.mpr hnonempty, h.length_le⟩
  case transmissions_eq =>
    rw [h.transmissions_eq, ← hn, List.length_append, List.length_flatten]
  case transmissions_sum => rw [h.transmissions_eq, hattempt]
  case firstTransmissions_eq =>
    rw [h.firstTransmissions_eq, h.delivered_eq, h.dropped_eq,
      List.length_eq_countP_add_countP Simulation.delivered]
    simp only [Bool.not_eq_true, Bool.decide_eq_false]
  case delivered_eq => exact h.delivered_eq
  case dropped_eq => exact h.dropped_eq
  case count_pool =>
    rw [h.pool_eq, HarqPool.count_single, kept, Option.isSome_map, h.pending_eq, Option.isSome_map]

end Ledger

end Device

/-! ## Accounting -/

/-- Whatever is sent, observed and reported, the slots of a device are attempts
at one block after the other, and it counts them as such. A block is given up
after the first attempt and all retransmissions, and in consecutive slots each
attempt goes on with the buffer that the one before has left, as long as the
processor leaves the number of its codeblocks. All of this is true of devices as
they are created, with their own receivers, whatever they draw. -/
theorem Device.accounts_of_exchanges {d d' : Device} (hnew : d.New)
    (hsends : d.pdu.block.isSome = true) {calls : List Call} {log : List Exchange}
    (hrun : (d.exchanges calls).run = .ok (.ok (log, d'))) :
    (∃ finished current, log = finished.flatten ++ current ∧
      log.map (·.pdu.slot) = calls.map (·.slot) ∧
      d'.Accounts d.maxRetransmissions calls.length finished current ∧
      ((∀ call ∈ calls, call.process.KeepsCount) → (∀ call ∈ calls.head?, call.slot.Valid) →
        (calls.map (·.slot)).IsChain (fun a b => a.next = .ok b) →
        ∀ xs ∈ current :: finished, Combining xs)) ∧
    (∀ s scs settings seed created, (create s scs settings seed).run = .ok (.ok created) →
      created.New ∧ created.maxRetransmissions = s.transmission.maxRetransmissions) ∧
    (∀ (e : Device) (slots : List SlotPoint), slots.foldlM runSlot e =
      Prod.snd <$> e.exchanges
        (slots.map fun slot => ⟨Source.drawn, BufferedReceiver.receive, slot⟩)) ∧
    Processor.KeepsCount BufferedReceiver.receive := by
  refine ⟨?_, fun s scs settings seed created hcreate => new_of_create hcreate, fun e slots => ?_,
    fun receiver block buffer grid pdu received receiver' hreceive =>
      BufferedReceiver.count_of_receive hreceive⟩
  case refine_2 => rw [foldlM_runSlot_eq_runFrom, runFrom_eq, List.map_map]; rfl
  obtain ⟨finished, current, hledger, hlog, hslots, hmax⟩ := (hnew.ledger hsends).recordAll hrun
  replace hlog : log = finished.flatten ++ current := hlog.symm
  refine ⟨finished, current, hlog, hslots, ?_, fun hkeep hfirst hchain xs hxs => ?_⟩
  · rw [← hmax]
    refine hledger.accounts ?_
    rw [← hlog, ← List.length_map (f := fun x : Exchange => x.pdu.slot), hslots, List.length_map]
  · -- the attempts at one block stand side by side in the log
    have hattempts : Attempts xs ∧ xs <:+: log := by
      rw [hlog]
      rcases List.mem_cons.mp hxs with rfl | hxs
      · exact ⟨hledger.attempts, (List.suffix_append _ _).isInfix⟩
      · exact ⟨(hledger.ended xs hxs).attempts,
          (List.infix_of_mem_flatten hxs).trans (List.prefix_append _ _).isInfix⟩
    rw [← hslots] at hchain
    have hhead : ∀ slot ∈ (log.map (·.pdu.slot)).head?, slot.Valid := by
      intro slot hslot
      rw [hslots, List.head?_map] at hslot
      obtain ⟨call, hcall, rfl⟩ := Option.map_eq_some_iff.mp hslot
      exact hfirst call hcall
    have hvalid := valid_of_consecutive hhead hchain
    refine hattempts.1.combines hattempts.2 (fun x hx => ?_)
      (Device.count_of_exchanges hkeep hrun) ((List.isChain_map _).mp hchain)
    exact hvalid _ (List.mem_map_of_mem hx)

end Accounting

/-- A device that sends each block up to twice, in a slot of three symbols. -/
def smallDevice : Device :=
  { settings := ⟨1, 0⟩
    pdu := { Receiver.smallPdu with symbolCount := 3 }
    blocks := 1
    blockBytes := 1
    maxRetransmissions := 1
    graphs := Ldpc.GraphStore.empty
    channel := ⟨Draws.ofSeed 1, ⟨0, 0⟩⟩
    receiver := ⟨Receiver.smallReceiver, ReceiverMemory.fresh⟩
    pool := HarqPool.empty HarqPoolSettings.standard
    generator := Draws.ofSeed 1
    pending := none
    statistics := {} }

/-- A processor that receives nothing. -/
def silentProcessor : Processor := fun receiver block buffer _ _ =>
  .ok (⟨[], block, buffer⟩, receiver)

/-- Two slots around the end of the last frame. -/
def lastFrameCalls : List Call :=
  [⟨Source.drawn, silentProcessor, .khz15, 1023, 9⟩, ⟨Source.drawn, silentProcessor, .khz15, 0, 0⟩]

/-- Nothing is received: the second attempt goes on with the buffer of the first
one, which the pool has kept across the last frame. -/
theorem Device.accounts_of_exchanges_silent : ∃ log d' finished current,
    (smallDevice.exchanges lastFrameCalls).run = .ok (.ok (log, d')) ∧
    log = finished.flatten ++ current ∧ d'.Accounts 1 2 finished current ∧
    ∀ xs ∈ current :: finished, Combining xs := by
  obtain ⟨⟨log, d'⟩, hrun⟩ := Outcome.exists_ok
    (x := smallDevice.exchanges lastFrameCalls) (by decide +kernel)
  obtain ⟨⟨finished, current, hlog, -, haccounts, hcombining⟩, -⟩ :=
    accounts_of_exchanges (d := smallDevice) ⟨rfl, rfl, rfl⟩ rfl hrun
  refine ⟨log, d', finished, current, hrun, hlog, haccounts, hcombining ?_ ?_ ?_⟩
  · intro call hcall receiver block buffer grid pdu received receiver' h
    have hsilent : call.process = silentProcessor := by
      rcases List.mem_pair.mp hcall with rfl | rfl <;> rfl
    rw [hsilent] at h
    cases h
    rfl
  · intro call hcall
    obtain rfl := Option.some.inj hcall
    decide
  · decide

end Simulation

end Uplink
