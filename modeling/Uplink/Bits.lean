import Uplink.Fault

/-!
# Bits and bytes

A bit buffer holds one bit per element, and an element counts by its lowest binary digit where it is
packed. Packing puts the first bit into the highest place of a byte.

- `Bits.pack`, `Bits.packExactly`: bits to bytes, the last byte filled with zeros, or without any
  filling.
- `Bits.unpack`: bytes to bits.
- `Bits.invert`: one bit turned over.
- `Bits.HasOnly01`: every element is zero or one.
-/

namespace Uplink

/-- A sequence of bits, one per element. -/
abbrev Bits := Array UInt8

/-- A sequence of bytes. -/
abbrev Bytes := Array UInt8

namespace Bits

/-- The byte whose binary digits, the highest first, are the eight bits from `8 * i` on; bits past
the end are zeros. -/
def byteAt (bits : Bits) (i : Nat) : UInt8 :=
  (List.range 8).foldl (fun byte j => (byte <<< 1) ||| (bits.getD (8 * i + j) 0 &&& 1)) 0

/-- Pack bits into bytes; the last byte is filled with zeros. -/
def pack (bits : Bits) : Bytes :=
  Array.ofFn fun i : Fin ((bits.size + 7) / 8) => bits.byteAt i

/-- Pack bits into exactly `length` bytes. -/
def packExactly (length : Nat) (bits : Bits) : Checked Bytes := do
  require (length * 8 == bits.size) "Packed buffer size mismatch"
  return bits.pack

/-- Bit `k` of a byte sequence, counted from the highest place of the first byte. -/
def bitAt (bytes : Bytes) (k : Nat) : UInt8 :=
  (bytes.getD (k / 8) 0 >>> (UInt8.ofNat (7 - k % 8))) &&& 1

/-- Unpack bytes into bits, the highest place first. -/
def unpack (bytes : Bytes) : Bits :=
  Array.ofFn fun k : Fin (8 * bytes.size) => bitAt bytes k

/-- The bits with bit `i` turned over. -/
def invert (bits : Bits) (i : Nat) : Checked Bits := do
  Buffer.write bits i ((← Buffer.read bits i) ^^^ 1)

/-- Every element is zero or one. -/
def HasOnly01 (bits : Bits) : Prop := ∀ b ∈ bits, b = 0 ∨ b = 1

@[simp] theorem size_unpack (bytes : Bytes) : (unpack bytes).size = 8 * bytes.size := by
  simp [unpack]

@[simp] theorem size_pack (bits : Bits) : (pack bits).size = (bits.size + 7) / 8 := by
  simp [pack]

end Bits

end Uplink
