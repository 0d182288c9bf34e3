import Uplink.Bits
import Uplink.Proofs.Checked
import Mathlib.Tactic.IntervalCases

/-!
# Packing and unpacking

- `Bits.pack_unpack`: bytes survive unpacking and packing.
- `Bits.unpack_pack`: so do bits that fill whole bytes.
- `Bits.HasOnly01`: closed under the operations on bit sequences.
-/

namespace Uplink

namespace Bits

/-! ## Sequences of bits -/

namespace HasOnly01

variable {a b : Bits}

theorem getD (h : a.HasOnly01) (i : Nat) : a.getD i 0 = 0 ∨ a.getD i 0 = 1 := by
  by_cases hi : i < a.size
  · rw [Buffer.getD_of_lt hi]
    exact h _ (Array.getElem_mem hi)
  · simp [Array.getD, hi]

theorem of_getD (h : ∀ i < a.size, a.getD i 0 = 0 ∨ a.getD i 0 = 1) : a.HasOnly01 := by
  intro x hx
  obtain ⟨i, hi, rfl⟩ := Array.getElem_of_mem hx
  rw [← Buffer.getD_of_lt hi 0]
  exact h i hi

theorem append (ha : a.HasOnly01) (hb : b.HasOnly01) : HasOnly01 (a ++ b) := by
  intro x hx
  rcases Array.mem_append.mp hx with hx | hx
  · exact ha x hx
  · exact hb x hx

theorem extract (h : a.HasOnly01) (start stop : Nat) :
    HasOnly01 (a.extract start stop) := by
  intro x hx
  obtain ⟨i, hi, rfl⟩ := Array.getElem_of_mem hx
  rw [Array.getElem_extract]
  exact h _ (Array.getElem_mem _)

theorem zeros (n : Nat) : HasOnly01 (Array.replicate n 0) := by
  intro x hx
  exact .inl (Array.mem_replicate.mp hx).2

end HasOnly01

/-- Sums of bits are bits. -/
theorem xor_only01 {a b : UInt8} (ha : a = 0 ∨ a = 1) (hb : b = 0 ∨ b = 1) :
    a ^^^ b = 0 ∨ a ^^^ b = 1 := by
  rcases ha with rfl | rfl <;> rcases hb with rfl | rfl <;> decide

/-! ## One byte -/

/-- A byte from its binary digits, the highest first. -/
def byteOf (digit : Nat → UInt8) : UInt8 :=
  (List.range 8).foldl (fun byte j => (byte <<< 1) ||| (digit j &&& 1)) 0

/-- A packed byte depends on its bits only, through `byteOf`. -/
theorem byteAt_eq (bits : Bits) (i : Nat) :
    bits.byteAt i = byteOf fun j => bits.getD (8 * i + j) 0 := rfl

/-- The digits of a byte. -/
def digit (byte : UInt8) (j : Nat) : UInt8 := (byte >>> UInt8.ofNat (7 - j)) &&& 1

theorem bitAt_eq (bytes : Bytes) (k : Nat) : bitAt bytes k = digit (bytes.getD (k / 8) 0) (k % 8) :=
  rfl

/-- The digits of a byte are bits, so unpacking never produces anything but
zeros and ones. -/
theorem digit_only01 (byte : UInt8) (j : Nat) : digit byte j = 0 ∨ digit byte j = 1 := by
  unfold digit
  generalize byte >>> UInt8.ofNat (7 - j) = x
  have hlt : (x &&& 1).toNat < 2 := by
    rw [UInt8.toNat_and]
    exact Nat.and_lt_two_pow _ (n := 1) (by decide)
  rcases Nat.lt_succ_iff_lt_or_eq.mp hlt with h | h
  · exact .inl (UInt8.toNat_inj.mp (by simpa using h))
  · exact .inr (UInt8.toNat_inj.mp (by simpa using h))

/-- A byte is made of its digits. There are few enough bytes to check them all.
-/
theorem byteOf_digit (byte : UInt8) : byteOf (digit byte) = byte := by
  have h : ∀ n : Fin 256, byteOf (digit (UInt8.ofNat n)) = UInt8.ofNat n := by decide +kernel
  have := h ⟨byte.toNat, UInt8.toNat_lt byte⟩
  simpa using this

/-- Only the first eight digits count. -/
theorem byteOf_congr {d d' : Nat → UInt8} (h : ∀ j < 8, d j = d' j) : byteOf d = byteOf d' := by
  refine List.foldl_ext _ _ _ fun byte j hj => ?_
  rw [h j (List.mem_range.mp hj)]

/-- Eight bits are the digits of the byte that they make. The converse needs no
condition, but this direction does: packing keeps the lowest digit of each
element only. -/
theorem digit_byteOf {d : Nat → UInt8} (hd : ∀ j, d j = 0 ∨ d j = 1) {j : Nat} (hj : j < 8) :
    digit (byteOf d) j = d j := by
  -- over booleans there are finitely many bytes to try
  have hall : ∀ b₀ b₁ b₂ b₃ b₄ b₅ b₆ b₇ : Bool, ∀ j : Fin 8,
      digit (byteOf fun j =>
        if [b₀, b₁, b₂, b₃, b₄, b₅, b₆, b₇].getD j false then 1 else 0) j =
        if [b₀, b₁, b₂, b₃, b₄, b₅, b₆, b₇].getD j false then 1 else 0 := by
    decide +kernel
  -- the digits are these booleans, since each is 0 or 1
  have hbit : ∀ j < 8, (if [d 0 == 1, d 1 == 1, d 2 == 1, d 3 == 1, d 4 == 1, d 5 == 1,
      d 6 == 1, d 7 == 1].getD j false then (1 : UInt8) else 0) = d j := by
    intro j hj
    have hget : [d 0 == 1, d 1 == 1, d 2 == 1, d 3 == 1, d 4 == 1, d 5 == 1, d 6 == 1,
        d 7 == 1].getD j false = (d j == 1) := by
      interval_cases j <;> rfl
    rw [hget]
    rcases hd j with h | h <;> rw [h] <;> rfl
  have := hall (d 0 == 1) (d 1 == 1) (d 2 == 1) (d 3 == 1) (d 4 == 1) (d 5 == 1) (d 6 == 1)
    (d 7 == 1) ⟨j, hj⟩
  rwa [byteOf_congr hbit, hbit j hj] at this

/-! ## Whole sequences -/

/-- Every bit of unpacked bytes is a digit of its byte, the highest digit of the
first byte first. -/
theorem getD_unpack {bytes : Bytes} {k : Nat} (hk : k < 8 * bytes.size) :
    (unpack bytes).getD k 0 = digit (bytes.getD (k / 8) 0) (k % 8) := by
  rw [Buffer.getD_of_lt (by simpa using hk), ← bitAt_eq]
  simp [unpack]

theorem unpack_only01 (bytes : Bytes) : HasOnly01 (unpack bytes) := by
  refine HasOnly01.of_getD fun k hk => ?_
  rw [getD_unpack (by simpa using hk)]
  exact digit_only01 _ _

/-- Byte `i` is made of the bits `8 i` to `8 i + 7`, which are its own digits.
-/
theorem byteAt_unpack {bytes : Bytes} {i : Nat} (h : i < bytes.size) :
    (unpack bytes).byteAt i = bytes[i] := by
  rw [byteAt_eq, ← byteOf_digit bytes[i]]
  refine byteOf_congr fun j hj => ?_
  rw [getD_unpack (by omega), show (8 * i + j) / 8 = i by omega,
    show (8 * i + j) % 8 = j by omega, Buffer.getD_of_lt h]

/-- Bytes survive unpacking and packing, whatever they are. -/
theorem pack_unpack (bytes : Bytes) : pack (unpack bytes) = bytes := by
  apply Array.ext
  · simp
    omega
  · intro i h₁ h₂
    simpa [pack] using byteAt_unpack h₂

/-- Bits that fill whole bytes survive packing and unpacking. Other bits would
come back with the last byte filled up. -/
theorem unpack_pack {bits : Bits} (h : bits.HasOnly01) (hsize : bits.size % 8 = 0) :
    unpack (pack bits) = bits := by
  have hpack : (pack bits).size = bits.size / 8 := by
    simp
    omega
  apply Array.ext
  · simp
    omega
  · intro k h₁ h₂
    have hk : k / 8 < (pack bits).size := by omega
    have hbyte : (pack bits).getD (k / 8) 0 = bits.byteAt (k / 8) := by
      rw [Buffer.getD_of_lt hk]
      simp [pack]
    have := @getD_unpack (pack bits) k (by omega)
    rw [hbyte, byteAt_eq, digit_byteOf (fun j => h.getD _) (by omega),
      show 8 * (k / 8) + k % 8 = k by omega, Buffer.getD_of_lt h₁, Buffer.getD_of_lt h₂] at this
    exact this

/-- Zero bits make zero bytes, which is how an erased transport block looks once
it is packed. -/
theorem pack_of_zeros {bits : Bits} {k : Nat} (hsize : bits.size = 8 * k) (h : ∀ b ∈ bits, b = 0) :
    pack bits = Array.replicate k 0 := by
  suffices bits = unpack (Array.replicate k 0) by rw [this, pack_unpack]
  apply Array.ext
  · rw [hsize, size_unpack, Array.size_replicate]
  · intro j h₁ h₂
    have hbyte : (Array.replicate k (0 : UInt8)).getD (j / 8) 0 = 0 := by
      rw [Array.getD_eq_getD_getElem?, Array.getElem?_replicate]
      split <;> rfl
    have hbit := getD_unpack (k := j) (by rwa [size_unpack] at h₂)
    rw [hbyte, Buffer.getD_of_lt h₂] at hbit
    rw [hbit, h _ (Array.getElem_mem h₁)]
    simp [digit]

end Bits

end Uplink
