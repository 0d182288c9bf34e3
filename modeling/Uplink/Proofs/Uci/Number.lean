import Uplink.Proofs.Bits
import Uplink.Uci.ShortBlock

/-!
# Messages as numbers

The candidates of the short block decoder are numbers. A message of `n` zeros and ones is the binary
number of its bits, the first one at the highest place, and each number below `2 ^ n` is the number
of one message.

- `ShortBlock.number`: the number of a message.
- `ShortBlock.number_messageOf`, `ShortBlock.messageOf_number`: the two directions.
-/

namespace Uplink

namespace ShortBlock

/-- The number of a message, the first bit at the highest place. -/
def number (message : Bits) : Nat := message.foldl (fun v b => 2 * v + b.toNat) 0

/-- A further bit doubles the number and adds, so the induction over a message
goes by its last bit. -/
theorem number_push (message : Bits) (b : UInt8) :
    number (message.push b) = 2 * number message + b.toNat := by
  rw [number, Array.foldl_push]
  rfl

@[simp] theorem size_messageOf (n v : Nat) : (messageOf n v).size = n := by
  rw [messageOf, Array.size_map, Array.size_range]

theorem messageOf_zero (v : Nat) : messageOf 0 v = #[] :=
  Array.eq_empty_of_size_eq_zero (size_messageOf 0 v)

theorem toNat_mod_two (v : Nat) : (v % 2).toUInt8.toNat = v % 2 := by
  rcases Nat.mod_two_eq_zero_or_one v with h | h <;> rw [h] <;> rfl

/-- The last bit is the lowest digit of the number, and the bits before it are
the message of the rest. -/
theorem messageOf_succ (n v : Nat) :
    messageOf (n + 1) v = (messageOf n (v / 2)).push (v % 2).toUInt8 := by
  rw [messageOf, Array.range_succ, ← Array.push_eq_append, Array.map_push]
  congr 1
  · rw [messageOf]
    refine Array.map_congr_left fun i hi => ?_
    have hlt : i < n := Array.mem_range.mp hi
    have hplace : n + 1 - 1 - i = n - 1 - i + 1 := by omega
    rw [hplace, Nat.shiftRight_succ_inside]
  · rw [Nat.add_sub_cancel, Nat.sub_self, Nat.shiftRight_zero]

theorem messageOf_only01 (n v : Nat) : (messageOf n v).HasOnly01 := by
  intro b hb
  rw [messageOf, Array.mem_map] at hb
  obtain ⟨i, -, rfl⟩ := hb
  rcases Nat.mod_two_eq_zero_or_one (v >>> (n - 1 - i)) with h | h
  · exact .inl (by rw [h]; rfl)
  · exact .inr (by rw [h]; rfl)

/-- A number is read back from its message, if the message has enough bits for
it. -/
theorem number_messageOf {n v : Nat} (h : v < 2 ^ n) : number (messageOf n v) = v := by
  induction n generalizing v with
  | zero =>
    obtain rfl : v = 0 := Nat.lt_one_iff.mp h
    rw [messageOf_zero]
    rfl
  | succ n ih =>
    have hhalf : v / 2 < 2 ^ n := by rw [Nat.pow_succ] at h; omega
    rw [messageOf_succ, number_push, ih hhalf, toNat_mod_two]
    exact Nat.div_add_mod v 2

/-- A message is read back from its number. Candidates of the decoder and
messages of one length are therefore the same thing. -/
theorem messageOf_number {message : Bits} (h : message.HasOnly01) :
    number message < 2 ^ message.size ∧ messageOf message.size (number message) = message := by
  induction message using Buffer.push_induction with
  | empty => exact ⟨Nat.one_pos, messageOf_zero _⟩
  | push message b ih =>
    obtain ⟨hlt, hmessage⟩ := ih fun x hx => h x (Array.mem_push_of_mem b hx)
    have hlast : b.toNat < 2 ∧ b.toNat.toUInt8 = b := by
      rcases h b Array.mem_push_self with rfl | rfl <;> decide
    have hhalf : (2 * number message + b.toNat) / 2 = number message := by omega
    have hdigit : (2 * number message + b.toNat) % 2 = b.toNat := by omega
    rw [Array.size_push, number_push, messageOf_succ, hhalf, hdigit, hmessage, hlast.2,
      Nat.pow_succ]
    exact ⟨by omega, rfl⟩

end ShortBlock

end Uplink
