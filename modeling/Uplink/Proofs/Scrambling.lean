import Uplink.Proofs.Bits
import Uplink.Proofs.GoldSequence.Recurrence
import Uplink.Scrambling

/-!
# What is scrambled can be told again

The receiver knows neither the placeholders of a codeword nor what was sent for them. It turns soft
bits by the same sequence, block by block, and every element of the codeword that is a bit comes out
on its side, because a placeholder takes one bit of the sequence like any other element.

- `Scrambling.Sent`: what is sent, element by element; `Scrambling.sent_scramble`.
- `Scrambling.Resolves`: what the placeholders become.
- `Scrambling.Favours`: soft bits of what is sent, of any magnitude.
- `Scrambling.descramble_scramble`: both, for any codeword and any blocks.
-/

namespace Uplink

namespace Scrambling

open GoldSequence (Reads turn)

variable {codeword sent : Bits} {c : Nat → Bool} {softBits : Array SoftBit} {i : Nat}

/-! ## Sending -/

/-- The bit that is sent before element `i`, zero at the start. -/
def before (sent : Bits) (i : Nat) : UInt8 := if i = 0 then 0 else sent.getD (i - 1) 0

/-- Each element is resolved with the bit of its place and the bit that is sent
before it. -/
structure Sent (c : Nat → Bool) (codeword sent : Bits) : Prop where
  size_eq : sent.size = codeword.size
  resolved : ∀ i < codeword.size,
    sent.getD i 0 = resolve (before sent i) (c i).toUInt8 (codeword.getD i 0)

/-- The last bit that was sent is the one before the next element. -/
theorem back?_getD (bits : Bits) : bits.back?.getD 0 = before bits bits.size := by
  rw [before, Array.back?_eq_getElem?, ← Array.getD_eq_getD_getElem?]
  split
  case isTrue hempty => simp [Array.getD, hempty]
  case isFalse => rfl

/-- One more element, resolved with the bit of its place and the last bit that
was sent. -/
theorem Sent.push (h : Sent c codeword sent) (element : UInt8) :
    Sent c (codeword.push element)
      (sent.push (resolve (sent.back?.getD 0) (c codeword.size).toUInt8 element)) := by
  generalize hvalue : resolve (sent.back?.getD 0) (c codeword.size).toUInt8 element = value
  have hbefore : ∀ i ≤ sent.size, before (sent.push value) i = before sent i := by
    intro i hi
    rw [before, before]
    split
    · rfl
    · exact Buffer.getD_push_of_lt (by omega) value 0
  refine ⟨by rw [Array.size_push, Array.size_push, h.size_eq], fun i hi => ?_⟩
  rw [Array.size_push] at hi
  rcases Nat.lt_succ_iff_lt_or_eq.mp hi with hlt | rfl
  · have hlt' : i < sent.size := h.size_eq ▸ hlt
    rw [Buffer.getD_push_of_lt hlt', Buffer.getD_push_of_lt hlt, hbefore i hlt'.le]
    exact h.resolved i hlt
  · rw [hbefore _ h.size_eq.ge, Buffer.getD_push_size, ← h.size_eq, Buffer.getD_push_size, h.size_eq, ← hvalue,
      back?_getD, h.size_eq]

/-- One more element is sent. -/
def sendStep (state : Bits × GoldSequence) (element : UInt8) : Bits × GoldSequence :=
  (state.1.push (resolve (state.1.back?.getD 0) state.2.bit element), state.2.advance)

theorem scramble_eq_foldl (codeword : Bits) (rnti : Rnti) (cellId : UInt16) :
    scramble codeword rnti cellId =
      (codeword.foldl sendStep (#[], GoldSequence.ofSeed (seed rnti cellId))).1 := rfl

/-- A codeword is sent element by element, each with one bit of the sequence,
placeholders included. -/
theorem sent_scramble {rnti : Rnti} {cellId : UInt16}
    (h : (GoldSequence.ofSeed (seed rnti cellId)).Reads c) (codeword : Bits) :
    Sent c codeword (scramble codeword rnti cellId) := by
  rw [scramble_eq_foldl]
  generalize GoldSequence.ofSeed (seed rnti cellId) = g at h
  suffices ∃ sent, Sent c codeword sent ∧
      codeword.foldl sendStep (#[], g) = (sent, g.skip codeword.size) by
    obtain ⟨sent, hsent, hfold⟩ := this
    rw [hfold]
    exact hsent
  induction codeword using Buffer.push_induction with
  | empty => exact ⟨#[], ⟨rfl, fun i hi => absurd hi (Nat.not_lt_zero i)⟩, rfl⟩
  | push codeword element ih =>
    obtain ⟨sent, hsent, hfold⟩ := ih
    refine ⟨_, hsent.push element, ?_⟩
    rw [Array.foldl_push, hfold, sendStep, Array.size_push, GoldSequence.skip_succ,
      ← h codeword.size]

/-! ## Placeholders -/

/-- Zeros and ones are sent: a one for the first placeholder, and for the second
one the bit that is sent before it. -/
structure Resolves (codeword sent : Bits) : Prop where
  size_eq : sent.size = codeword.size
  bit : ∀ i < codeword.size, sent.getD i 0 = 0 ∨ sent.getD i 0 = 1
  one : ∀ i < codeword.size, codeword.getD i 0 = one → sent.getD i 0 = 1
  previous : ∀ i < codeword.size, codeword.getD i 0 = previous →
    sent.getD i 0 = before sent i

theorem toUInt8_eq (b : Bool) : b.toUInt8 = 0 ∨ b.toUInt8 = 1 := by
  cases b with
  | false => exact .inl rfl
  | true => exact .inr rfl

/-- A bit is added to the bit of its place. The bit that was sent before does
not matter. -/
theorem resolve_of_bit {last element : UInt8} (b : UInt8) (h : element = 0 ∨ element = 1) :
    resolve last b element = element ^^^ b := by
  rcases h with rfl | rfl
  · rfl
  · rfl

/-- An element resolved after a bit is a bit, so placeholders never reach the
channel. -/
theorem resolve_eq {last b element : UInt8} (hlast : last = 0 ∨ last = 1) (hb : b = 0 ∨ b = 1)
    (h : element ∈ [0, 1, one, previous]) :
    resolve last b element = 0 ∨ resolve last b element = 1 := by
  simp only [List.mem_cons, List.not_mem_nil, or_false] at h
  rcases h with rfl | rfl | rfl | rfl
  · rw [resolve_of_bit b (.inl rfl)]
    exact Bits.xor_only01 (.inl rfl) hb
  · rw [resolve_of_bit b (.inr rfl)]
    exact Bits.xor_only01 (.inr rfl) hb
  · exact .inr rfl
  · exact hlast

/-- What is sent meets the description of it, from the first element on. -/
theorem Sent.resolves (h : Sent c codeword sent)
    (helements : ∀ element ∈ codeword, element ∈ [0, 1, one, previous]) :
    Resolves codeword sent where
  size_eq := h.size_eq
  bit i hi := by
    -- the second placeholder repeats a bit that is sent before
    have hresolved : ∀ i < codeword.size, before sent i = 0 ∨ before sent i = 1 →
        sent.getD i 0 = 0 ∨ sent.getD i 0 = 1 := by
      intro i hi hbefore
      rw [h.resolved i hi, Buffer.getD_of_lt hi]
      exact resolve_eq hbefore (toUInt8_eq _) (helements _ (Array.getElem_mem hi))
    induction i with
    | zero => exact hresolved 0 hi (.inl rfl)
    | succ i ih => exact hresolved (i + 1) hi (ih (Nat.lt_of_succ_lt hi))
  one i hi helement := by
    rw [h.resolved i hi, helement]
    rfl
  previous i hi helement := by
    rw [h.resolved i hi, helement]
    rfl

/-! ## Receiving -/

/-- Each soft bit favours the bit that is sent, with any magnitude up to the
largest one. -/
structure Favours (sent : Bits) (softBits : Array SoftBit) : Prop where
  size_eq : softBits.size = sent.size
  lower : ∀ i < sent.size, -127 ≤ (softBits.getD i SoftBit.erased).value.toInt
  upper : ∀ i < sent.size, (softBits.getD i SoftBit.erased).value.toInt ≤ 127
  zero : ∀ i < sent.size, sent.getD i 0 = 0 → 0 < (softBits.getD i SoftBit.erased).value.toInt
  one : ∀ i < sent.size, sent.getD i 0 = 1 → (softBits.getD i SoftBit.erased).value.toInt < 0

theorem toInt_neg {v : Int8} (hlower : -127 ≤ v.toInt) (hupper : v.toInt ≤ 127) :
    (-v).toInt = -v.toInt := by
  rw [Int8.toInt_neg, Int.bmod_eq_of_le (by omega) (by omega)]

/-- A positive soft bit tells a zero. -/
theorem hardDecision_of_pos {a : SoftBit} (h : 0 < a.value.toInt) : a.hardDecision = 0 := by
  rw [SoftBit.hardDecision, if_neg]
  rw [Int8.lt_iff_toInt_lt]
  exact h.not_gt

theorem hardDecision_of_neg {a : SoftBit} (h : a.value.toInt < 0) : a.hardDecision = 1 := by
  rw [SoftBit.hardDecision, if_pos]
  exact Int8.lt_iff_toInt_lt.mpr h

/-- Soft bits that favour what was sent are never the lowest value. -/
theorem Favours.turnable (h : Favours sent softBits) (c : Nat → Bool) :
    GoldSequence.Turnable c softBits :=
  GoldSequence.turnable_of_le c fun i hi => h.lower i (h.size_eq ▸ hi)

/-- A soft bit that favours a bit added to another one tells the bit when the
other one has turned it. -/
theorem turn_tells {a : SoftBit} {bit : UInt8} (hbit : bit = 0 ∨ bit = 1) (b : Bool)
    (hlower : -127 ≤ a.value.toInt) (hupper : a.value.toInt ≤ 127)
    (hzero : bit ^^^ b.toUInt8 = 0 → 0 < a.value.toInt)
    (hone : bit ^^^ b.toUInt8 = 1 → a.value.toInt < 0) :
    (turn b a).value.toInt.natAbs = a.value.toInt.natAbs ∧ (turn b a).hardDecision = bit := by
  cases b with
  | false =>
    refine ⟨rfl, ?_⟩
    rcases hbit with rfl | rfl
    · exact hardDecision_of_pos (hzero rfl)
    · exact hardDecision_of_neg (hone rfl)
  | true =>
    have hneg : (turn true a).value.toInt = -a.value.toInt := toInt_neg hlower hupper
    refine ⟨by rw [hneg, Int.natAbs_neg], ?_⟩
    rcases hbit with rfl | rfl
    · exact hardDecision_of_pos (by rw [hneg]; exact Int.neg_pos_of_neg (hone rfl))
    · exact hardDecision_of_neg (by rw [hneg]; exact Int.neg_neg_of_pos (hzero rfl))

/-- Zeros and ones are sent for a codeword with placeholders; and soft bits that
favour what is sent are turned, in blocks of any sizes, into soft bits of the
same magnitudes that tell every bit of the codeword. -/
theorem descramble_scramble {codeword : Bits}
    (h : ∀ element ∈ codeword, element ∈ [0, 1, one, previous]) (rnti : Rnti) (cellId : UInt16) :
    Resolves codeword (scramble codeword rnti cellId) ∧
      ∀ softBits, Favours (scramble codeword rnti cellId) softBits →
      ∀ blocks : List (Array SoftBit), blocks.foldl (· ++ ·) #[] = softBits →
        ∃ turned g,
          (GoldSequence.ofSeed (seed rnti cellId)).descrambleBlocks blocks = .ok (turned, g) ∧
          turned.size = codeword.size ∧
          ∀ i < codeword.size, codeword.getD i 0 = 0 ∨ codeword.getD i 0 = 1 →
            (turned.getD i SoftBit.erased).value.toInt.natAbs =
              (softBits.getD i SoftBit.erased).value.toInt.natAbs ∧
            (turned.getD i SoftBit.erased).hardDecision = codeword.getD i 0 := by
  obtain ⟨c, hreads⟩ : ∃ c, (GoldSequence.ofSeed (seed rnti cellId)).Reads c :=
    ⟨_, GoldSequence.reads_ofSeed _⟩
  have hsent := sent_scramble hreads codeword
  refine ⟨hsent.resolves h, fun softBits hfavours blocks hblocks => ?_⟩
  have hsize : softBits.size = codeword.size := hfavours.size_eq.trans hsent.size_eq
  have hturned : (GoldSequence.ofSeed (seed rnti cellId)).descrambleBlocks blocks =
      .ok (softBits.mapIdx fun i a => turn (c i) a,
        (GoldSequence.ofSeed (seed rnti cellId)).skip softBits.size) := by
    rw [GoldSequence.descrambleBlocks_eq, hblocks, GoldSequence.descramble_eq hreads,
      if_pos (hfavours.turnable c)]
  -- an element that is a bit was sent as its sum with the bit of its place
  refine ⟨_, _, hturned, Array.size_mapIdx.trans hsize, fun i hi hbit => ?_⟩
  have hin : i < softBits.size := hsize ▸ hi
  have hin' : i < (scramble codeword rnti cellId).size := hsent.size_eq ▸ hi
  have hresolved := hsent.resolved i hi
  rw [resolve_of_bit _ hbit] at hresolved
  rw [Buffer.getD_of_lt (by rwa [Array.size_mapIdx]), Array.getElem_mapIdx,
    ← Buffer.getD_of_lt hin SoftBit.erased]
  exact turn_tells hbit (c i) (hfavours.lower i hin') (hfavours.upper i hin')
    (fun hzero => hfavours.zero i hin' (hresolved.trans hzero))
    (fun hone => hfavours.one i hin' (hresolved.trans hone))

/-- A bit, each placeholder and a bit again, received in blocks of two soft bits
and of three. -/
theorem descramble_scramble_placeholders :
    Resolves #[1, 3, 2, 2, 0] (scramble #[1, 3, 2, 2, 0] 0x1234 7) ∧
      ∃ turned g, (GoldSequence.ofSeed (seed 0x1234 7)).descrambleBlocks
          [#[⟨-127⟩, ⟨-1⟩], #[⟨-60⟩, ⟨-3⟩, ⟨-90⟩]] = .ok (turned, g) ∧
        (turned.getD 0 SoftBit.erased).hardDecision = 1 ∧
        (turned.getD 4 SoftBit.erased).hardDecision = 0 := by
  obtain ⟨hresolves, htells⟩ := @descramble_scramble #[1, 3, 2, 2, 0] (by simp [one, previous])
    0x1234 7
  have hsent : scramble #[1, 3, 2, 2, 0] 0x1234 7 = #[1, 1, 1, 1, 1] := by decide +kernel
  rw [hsent] at htells
  obtain ⟨turned, g, hturned, -, hbits⟩ := htells #[⟨-127⟩, ⟨-1⟩, ⟨-60⟩, ⟨-3⟩, ⟨-90⟩]
    ⟨rfl, by decide, by decide, by decide, by decide⟩ [#[⟨-127⟩, ⟨-1⟩], #[⟨-60⟩, ⟨-3⟩, ⟨-90⟩]] rfl
  exact ⟨hresolves, turned, g, hturned, (hbits 0 (by decide) (.inr rfl)).2,
    (hbits 4 (by decide) (.inl rfl)).2⟩

end Scrambling

end Uplink
