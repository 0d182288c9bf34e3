import Uplink.GoldSequence
import Uplink.Proofs.Checked

/-!
# Taking the bits of a sequence

Whatever a sequence is used for, its bits are taken one after the other: a use sees the bits from
where the use before it has stopped.

- `GoldSequence.Reads`: the bits from a position on; `Reads.skip`: those from a later position on.
- `GoldSequence.scrambleBits_eq`, `descramble_eq`, `nextQpsk_eq`: what is made of the bits, element
  by element, and where the next use begins.
- `GoldSequence.descrambleBlocks_eq`: soft bits that are cut into blocks.
- `GoldSequence.Use`, `run`: uses in any order; `run_of_reads`: what they give.
-/

namespace Uplink

namespace GoldSequence

/-! ## Positions -/

theorem skip_succ (g : GoldSequence) (n : Nat) : g.skip (n + 1) = (g.skip n).advance := rfl

/-- Bits that are skipped may be skipped in parts. -/
theorem skip_add (g : GoldSequence) (m n : Nat) : g.skip (m + n) = (g.skip m).skip n := by
  induction n with
  | zero => rfl
  | succ n ih => rw [← Nat.add_assoc, skip_succ, skip_succ, ih]

/-- The bits from the position on are `c 0`, `c 1` and so on. -/
def Reads (g : GoldSequence) (c : Nat → Bool) : Prop := ∀ n, (g.skip n).bit = (c n).toUInt8

namespace Reads

variable {g : GoldSequence} {c : Nat → Bool}

theorem bit_eq (h : g.Reads c) : g.bit = (c 0).toUInt8 := h 0

theorem skip (h : g.Reads c) (m : Nat) : (g.skip m).Reads fun n => c (m + n) := by
  intro n
  rw [← skip_add]
  exact h (m + n)

end Reads

/-! ## Bits -/

/-- Each element gets the bit of its place, and the sequence stands behind the
last of them. -/
theorem scrambleBits_eq {g : GoldSequence} {c : Nat → Bool} (h : g.Reads c) (bits : Bits) :
    g.scrambleBits bits =
      (bits.mapIdx fun i b => b ^^^ (c i).toUInt8, g.skip bits.size) := by
  induction bits using Buffer.push_induction with
  | empty => rfl
  | push bits b ih =>
    rw [scrambleBits, Array.foldl_push, ← scrambleBits, ih, Array.mapIdx_push, Array.size_push]
    dsimp only
    rw [h bits.size, skip_succ]

/-! ## Symbols -/

/-- The sign that stands for a bit. -/
def sign (bit : Bool) : Float32 := if bit then -1 else 1

theorem sign_eq (bit : Bool) : 1 - 2 * bit.toUInt8.toFloat32 = sign bit := by
  cases bit <;> decide

/-- The symbol of two bits. -/
def symbolOf (amplitude : Float32) (a b : Bool) : Complex :=
  ⟨amplitude * sign a, amplitude * sign b⟩

/-- A symbol takes two bits, the first for its real part. -/
theorem nextQpsk_eq {g : GoldSequence} {c : Nat → Bool} (h : g.Reads c) (amplitude : Float32) :
    g.nextQpsk amplitude = (symbolOf amplitude (c 0) (c 1), g.skip 2) := by
  rw [symbolOf, ← sign_eq, ← sign_eq, ← h 0, ← h 1]
  rfl

/-! ## Soft bits -/

/-- The soft bit whose sign a one turns. -/
def turn (bit : Bool) (a : SoftBit) : SoftBit := if bit then ⟨-a.value⟩ else a

/-- No one meets the lowest value, which has no opposite. -/
def Turnable (c : Nat → Bool) (softBits : Array SoftBit) : Prop :=
  ∀ i < softBits.size, c i = true → (softBits.getD i SoftBit.erased).value ≠ -128

instance (c : Nat → Bool) (softBits : Array SoftBit) : Decidable (Turnable c softBits) :=
  inferInstanceAs (Decidable (∀ i < softBits.size, _))

/-- The loop fails at the first soft bit that cannot be turned, and goes on
otherwise. -/
theorem turnable_push {c : Nat → Bool} {softBits : Array SoftBit} {a : SoftBit} :
    Turnable c (softBits.push a) ↔
      Turnable c softBits ∧ (c softBits.size = true → a.value ≠ -128) := by
  rw [Turnable, Array.size_push]
  constructor
  · intro h
    refine ⟨fun i hi => ?_, ?_⟩
    · rw [← Buffer.getD_push_of_lt hi a]
      exact h i (Nat.lt_succ_of_lt hi)
    · rw [← Buffer.getD_push_size softBits a SoftBit.erased]
      exact h softBits.size (Nat.lt_succ_self _)
  · rintro ⟨h, ha⟩ i hi
    rcases Nat.lt_succ_iff_lt_or_eq.mp hi with hlt | rfl
    · rw [Buffer.getD_push_of_lt hlt]
      exact h i hlt
    · rwa [Buffer.getD_push_size]

/-- Soft bits above the lowest value can be turned, whatever the bits are.
Demodulation produces no others. -/
theorem turnable_of_le (c : Nat → Bool) {softBits : Array SoftBit}
    (h : ∀ i < softBits.size, -127 ≤ (softBits.getD i SoftBit.erased).value.toInt) :
    Turnable c softBits := by
  intro i hi _ hvalue
  have hlower := h i hi
  rw [hvalue] at hlower
  exact absurd hlower (by decide)

/-- Each soft bit is turned by the bit of its place, if all of them can be. The
induction is on the soft bits as they are pushed, the way the loop meets them.
-/
theorem descramble_eq {g : GoldSequence} {c : Nat → Bool} (h : g.Reads c)
    (softBits : Array SoftBit) :
    g.descramble softBits =
      if Turnable c softBits then
        .ok (softBits.mapIdx fun i a => turn (c i) a, g.skip softBits.size)
      else .error .arithmetic := by
  induction softBits using Buffer.push_induction with
  | empty => rfl
  | push softBits a ih =>
    rw [descramble, Array.foldlM_push, ← descramble, ih, Array.mapIdx_push, Array.size_push]
    by_cases hturnable : Turnable c softBits
    · rw [if_pos hturnable, ok_bind]
      dsimp only
      rw [h softBits.size]
      simp only [turnable_push, hturnable, true_and]
      -- a zero leaves the soft bit alone, a one turns it if it has an opposite
      cases c softBits.size with
      | false => rfl
      | true =>
        rw [if_pos (show true.toUInt8 = 1 from rfl), SoftBit.neg]
        by_cases ha : a.value = -128
        · rw [if_pos (beq_iff_eq.mpr ha), if_neg fun h => h rfl ha]
          rfl
        · rw [if_neg fun h => ha (beq_iff_eq.mp h), if_pos fun _ => ha]
          rfl
    · rw [if_neg hturnable, if_neg fun h => hturnable (turnable_push.mp h).1]
      rfl

/-- Soft bits in blocks, each of which goes on where the one before it has
stopped. -/
def descrambleBlocks (g : GoldSequence) (blocks : List (Array SoftBit)) :
    Checked (Array SoftBit × GoldSequence) :=
  blocks.foldlM
    (fun (out, g) block => do
      let (turned, g) ← g.descramble block
      return (out ++ turned, g))
    (#[], g)

/-- One more soft bit. -/
def descrambleStep (state : Array SoftBit × GoldSequence) (a : SoftBit) :
    Checked (Array SoftBit × GoldSequence) := do
  let a ← if state.2.bit = 1 then a.neg else .ok a
  return (state.1.push a, state.2.advance)

theorem descramble_eq_foldlM (g : GoldSequence) (softBits : Array SoftBit) :
    g.descramble softBits = softBits.foldlM descrambleStep (#[], g) := rfl

/-- Soft bits that are put behind others are turned as they would be alone, by
the bits that follow. -/
theorem foldlM_descrambleStep (g : GoldSequence) (out softBits : Array SoftBit) :
    softBits.foldlM descrambleStep (out, g) = do
      let (turned, g) ← g.descramble softBits
      return (out ++ turned, g) := by
  induction softBits using Buffer.push_induction with
  | empty =>
    show Except.ok (out, g) = Except.ok (out ++ #[], g)
    rw [Array.append_empty]
  | push softBits a ih =>
    rw [descramble_eq_foldlM, Array.foldlM_push, Array.foldlM_push, ih, ← descramble_eq_foldlM]
    cases g.descramble softBits with
    | error fault => rfl
    | ok found =>
      simp only [ok_bind, pure_eq_ok, descrambleStep]
      by_cases hbit : found.2.bit = 1
      · rw [if_pos hbit, if_pos hbit]
        cases a.neg with
        | error fault => rfl
        | ok a => simp only [ok_bind, Array.append_push]
      · rw [if_neg hbit, if_neg hbit]
        simp only [ok_bind, Array.append_push]

/-- Cutting soft bits into blocks makes no difference, since each block goes on
where the one before it has stopped. -/
theorem descrambleBlocks_eq (g : GoldSequence) (blocks : List (Array SoftBit)) :
    g.descrambleBlocks blocks = g.descramble (blocks.foldl (· ++ ·) #[]) := by
  induction blocks using List.reverseRecOn with
  | nil => rfl
  | append_singleton blocks block ih =>
    rw [descrambleBlocks, List.foldlM_append, ← descrambleBlocks, ih, List.foldl_append,
      List.foldl_cons, List.foldl_nil, descramble_eq_foldlM, descramble_eq_foldlM,
      Array.foldlM_append]
    refine bind_congr fun found => ?_
    rw [foldlM_descrambleStep, List.foldlM_cons]
    exact bind_pure _

/-! ## Uses in any order -/

/-- One use of a sequence. -/
inductive Use where
  | next
  | symbol (amplitude : Float32)
  | skip (count : Nat)
  | scramble (bits : Bits)
  | descramble (softBits : Array SoftBit)

/-- What a use gives. -/
inductive Answer where
  | bit (bit : UInt8)
  | symbol (symbol : Complex)
  | nothing
  | bits (bits : Bits)
  | softBits (softBits : Array SoftBit)

namespace Use

/-- The sequence used once. -/
def apply (g : GoldSequence) : Use → Checked (Answer × GoldSequence)
  | .next => return g.next.map .bit id
  | .symbol amplitude => return (g.nextQpsk amplitude).map .symbol id
  | .skip count => return (.nothing, g.skip count)
  | .scramble bits => return (g.scrambleBits bits).map .bits id
  | .descramble softBits => return (← g.descramble softBits).map .softBits id

/-- Bits that a use takes. -/
def length : Use → Nat
  | .next => 1
  | .symbol _ => 2
  | .skip count => count
  | .scramble bits => bits.size
  | .descramble softBits => softBits.size

/-- What a use gives if the bits it takes are `c 0`, `c 1` and so on. -/
def answer (c : Nat → Bool) : Use → Checked Answer
  | .next => .ok (.bit (c 0).toUInt8)
  | .symbol amplitude => .ok (.symbol (symbolOf amplitude (c 0) (c 1)))
  | .skip _ => .ok .nothing
  | .scramble bits => .ok (.bits (bits.mapIdx fun i b => b ^^^ (c i).toUInt8))
  | .descramble softBits =>
    if Turnable c softBits then .ok (.softBits (softBits.mapIdx fun i a => turn (c i) a))
    else .error .arithmetic

/-- A use gives what its bits say, and the next use begins behind them. Every
kind of use keeps to this one equation. -/
theorem apply_eq {g : GoldSequence} {c : Nat → Bool} (h : g.Reads c) (use : Use) :
    use.apply g = do return (← use.answer c, g.skip use.length) := by
  cases use with
  | next =>
    show Except.ok (Answer.bit g.bit, g.advance) = _
    rw [h.bit_eq]
    rfl
  | symbol amplitude =>
    rw [apply, nextQpsk_eq h]
    rfl
  | skip count => rfl
  | scramble bits =>
    rw [apply, scrambleBits_eq h]
    rfl
  | descramble softBits =>
    rw [apply, answer, descramble_eq h]
    split
    · rfl
    · rfl

end Use

/-- Uses one after the other. -/
def run : List Use → GoldSequence → Checked (List Answer × GoldSequence)
  | [], g => .ok ([], g)
  | use :: rest, g => do
    let (answer, g) ← use.apply g
    let (answers, g) ← run rest g
    return (answer :: answers, g)

/-- Bits that uses take. -/
def taken : List Use → Nat
  | [] => 0
  | use :: rest => use.length + taken rest

/-- What uses give from bit `start` of the sequence `c` on. -/
def answers (c : Nat → Bool) : (start : Nat) → List Use → Checked (List Answer)
  | _, [] => .ok []
  | start, use :: rest => do
    return (← use.answer fun i => c (start + i)) :: (← answers c (start + use.length) rest)

/-- Uses in any order take the bits of the sequence in theirs, each of them
once. This is the equation of one use, along the list of uses. -/
theorem run_of_reads {c : Nat → Bool} (uses : List Use) {g : GoldSequence} {start : Nat}
    (h : g.Reads fun i => c (start + i)) :
    run uses g = do return (← answers c start uses, g.skip (taken uses)) := by
  induction uses generalizing g start with
  | nil => rfl
  | cons use rest ih =>
    have hrest : (g.skip use.length).Reads fun i => c (start + use.length + i) := by
      simpa only [Nat.add_assoc] using h.skip use.length
    rw [run, answers, use.apply_eq h, taken, skip_add]
    cases use.answer fun i => c (start + i) with
    | error fault => rfl
    | ok answer =>
      simp only [ok_bind, pure_eq_ok, ih hrest]
      cases answers c (start + use.length) rest with
      | error fault => rfl
      | ok answers => rfl

end GoldSequence

end Uplink
