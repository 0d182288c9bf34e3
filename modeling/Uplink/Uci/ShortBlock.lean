import Uplink.Scrambling
import Uplink.Modulation

/-!
# Short block code of control information

Control messages of one to eleven bits: one bit is repeated, two bits are sent with their sum, and
three or more bits are a combination of basis sequences of length 32. The codeword is then repeated
to the wanted length.

- `ShortBlock.encode`, `ShortBlock.repeatTo`: the codeword and its repetition.
- `ShortBlock.codePosition`: which code bit an element of the repeated codeword carries.
- `ShortBlock.combine`, `detect`, `decode`: fold the soft bits onto the code bits, correlate them
  with the codeword of every message, and take the first best one.
-/

namespace Uplink

/-- Whether a control message was found. -/
inductive UciStatus where
  /-- Not decoded. -/
  | unknown
  | valid
  | invalid
deriving DecidableEq, Repr

namespace ShortBlock

/-- The longest message. -/
def maxLength : Nat := 11

/-- Length of the basis sequences. -/
def basisLength : Nat := 32

/-- The basis sequences: row `i` holds the element `i` of each of them. -/
def basis : Array (Array UInt8) := #[
  #[1, 1, 0, 0, 0, 0, 0, 0, 0, 0, 1],
  #[1, 1, 1, 0, 0, 0, 0, 0, 0, 1, 1],
  #[1, 0, 0, 1, 0, 0, 1, 0, 1, 1, 1],
  #[1, 0, 1, 1, 0, 0, 0, 0, 1, 0, 1],
  #[1, 1, 1, 1, 0, 0, 0, 1, 0, 0, 1],
  #[1, 1, 0, 0, 1, 0, 1, 1, 1, 0, 1],
  #[1, 0, 1, 0, 1, 0, 1, 0, 1, 1, 1],
  #[1, 0, 0, 1, 1, 0, 0, 1, 1, 0, 1],
  #[1, 1, 0, 1, 1, 0, 0, 1, 0, 1, 1],
  #[1, 0, 1, 1, 1, 0, 1, 0, 0, 1, 1],
  #[1, 0, 1, 0, 0, 1, 1, 1, 0, 1, 1],
  #[1, 1, 1, 0, 0, 1, 1, 0, 1, 0, 1],
  #[1, 0, 0, 1, 0, 1, 0, 1, 1, 1, 1],
  #[1, 1, 0, 1, 0, 1, 0, 1, 0, 1, 1],
  #[1, 0, 0, 0, 1, 1, 0, 1, 0, 0, 1],
  #[1, 1, 0, 0, 1, 1, 1, 1, 0, 1, 1],
  #[1, 1, 1, 0, 1, 1, 1, 0, 0, 1, 0],
  #[1, 0, 0, 1, 1, 1, 0, 0, 1, 0, 0],
  #[1, 1, 0, 1, 1, 1, 1, 1, 0, 0, 0],
  #[1, 0, 0, 0, 0, 1, 1, 0, 0, 0, 0],
  #[1, 0, 1, 0, 0, 0, 1, 0, 0, 0, 1],
  #[1, 1, 0, 1, 0, 0, 0, 0, 0, 1, 1],
  #[1, 0, 0, 0, 1, 0, 0, 1, 1, 0, 1],
  #[1, 1, 1, 0, 1, 0, 0, 0, 1, 1, 1],
  #[1, 1, 1, 1, 1, 0, 1, 1, 1, 1, 0],
  #[1, 1, 0, 0, 0, 1, 1, 1, 0, 0, 1],
  #[1, 0, 1, 1, 0, 1, 0, 0, 1, 1, 0],
  #[1, 1, 1, 1, 0, 1, 0, 1, 1, 1, 0],
  #[1, 0, 1, 0, 1, 1, 1, 0, 1, 0, 0],
  #[1, 0, 1, 1, 1, 1, 1, 1, 1, 0, 0],
  #[1, 1, 1, 1, 1, 1, 1, 1, 1, 1, 1],
  #[1, 0, 0, 0, 0, 0, 0, 0, 0, 0, 0]]

/-- The text of the requirement on message lengths. -/
def lengthText (n : Nat) : String := s!"Invalid UCI short block payload of {n} bits"

/-! ## Encoding -/

/-- Element `i` of the combination of basis sequences that a message selects. -/
def combination (message : Bits) (i : Nat) : UInt8 :=
  (message.zip (basis.getD i #[])).foldl (fun sum (bit, b) => sum ^^^ (bit &&& b)) 0

/-- Code bit `n` of a message. -/
def codeBit (message : Bits) (n : Nat) : UInt8 :=
  match message.size with
  | 1 => message.getD 0 0
  | 2 => if n = 2 then message.getD 0 0 ^^^ message.getD 1 0 else message.getD n 0
  | _ => combination message n

/-- The codeword of a message. The symbols of one and two bits carry their code bits first and
placeholders on their other places. -/
def encode (message : Bits) (m : Modulation) : Checked Bits := do
  require (1 ≤ message.size && message.size ≤ maxLength) (lengthText message.size)
  match message.size with
  | 1 =>
    return Array.ofFn fun k : Fin m.order =>
      if k.val = 0 then codeBit message 0
      else if k.val = 1 then Scrambling.previous
      else Scrambling.one
  | 2 =>
    return Array.ofFn fun k : Fin (3 * m.order) =>
      let place := k.val % m.order
      if place < 2 then codeBit message ((2 * (k.val / m.order) + place) % 3) else Scrambling.one
  | _ => return (Array.range basisLength).map (combination message)

/-- A codeword repeated to `length` elements. -/
def repeatTo (codeword : Bits) (length : Nat) : Bits :=
  (Array.range length).map fun k => codeword.getD (k % codeword.size) 0

/-! ## Detection -/

/-- Number of code bits of messages of `n` bits. -/
def codeLength : Nat → Nat
  | 1 => 1
  | 2 => 3
  | _ => basisLength

/-- The code bit that element `k` of a repeated codeword carries; none for a placeholder. -/
def codePosition (n : Nat) (m : Modulation) (k : Nat) : Option Nat :=
  match n with
  | 1 => if k % m.order = 0 then some 0 else none
  | 2 => if k % m.order < 2 then some ((2 * (k / m.order) + k % m.order) % 3) else none
  | _ => some (k % basisLength)

/-- The sum of the soft bits of each code bit, in order of arrival. -/
def combine (n : Nat) (m : Modulation) (softBits : Array SoftBit) : Array Float32 :=
  (softBits.foldl
    (fun (sums, k) a =>
      (match codePosition n m k with
        | some p => sums.modify p (· + a.toSingle)
        | none => sums, k + 1))
    (Array.replicate (codeLength n) (0 : Float32), 0)).1

/-- The message of `n` bits with the given number, the first bit at the highest place. -/
def messageOf (n number : Nat) : Bits :=
  (Array.range n).map fun i => ((number >>> (n - 1 - i)) % 2).toUInt8

/-- How well the sums agree with the codeword of a message. -/
def correlation (sums : Array Float32) (message : Bits) : Float32 :=
  Single.sum (sums.mapIdx fun p v => if codeBit message p = 0 then v else -v)

/-- The first message number with the greatest correlation, and that correlation. -/
def best (n : Nat) (sums : Array Float32) : Nat × Float32 :=
  (List.range (Nat.pow 2 n)).foldl
    (fun (winner, most) number =>
      let c := correlation sums (messageOf n number)
      if most < c then (number, c) else (winner, most))
    (0, Single.negInfinity)

/-- The best message number, and its correlation as a part of the greatest possible one. -/
def detect (n : Nat) (sums : Array Float32) : Nat × Float32 :=
  let energy := Single.sum (sums.map (·.abs))
  let (winner, most) := best n sums
  (winner, if 0 < energy then most / energy else 0)

/-- Part of the greatest correlation above which a message is trusted: any for one and two bits. -/
def threshold (n : Nat) : Float32 := if n ≤ 2 then 0 else 0.6

/-- Decode a message of `n` bits. -/
def decode (n : Nat) (m : Modulation) (softBits : Array SoftBit) : Checked (Bits × UciStatus) := do
  require (1 ≤ n && n ≤ maxLength) (lengthText n)
  let (winner, part) := detect n (combine n m softBits)
  return (messageOf n winner, if threshold n < part then .valid else .invalid)

end ShortBlock

end Uplink
