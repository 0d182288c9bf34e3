import Uplink.Bits

/-!
# Cyclic redundancy checks

The three checks of the shared channel, with a zero initial register.

- `Crc.step`: one message bit enters the division register.
- `Crc.table`, `Crc.byteStep`: a whole byte enters with one table look-up.
- `Crc.ofBits`: the register after a whole bit sequence, its full bytes through the table and the
  remaining bits one by one.
- `Crc.ofBytes`: the same over packed bytes.
- `Crc.parity`: the register as a bit sequence, the highest power first; a message followed by its
  parity has the check zero.
-/

namespace Uplink

/-- A generator polynomial. -/
inductive Crc where
  /-- Sixteen parity bits, for short transport blocks. -/
  | crc16
  /-- Twenty-four parity bits, for long transport blocks. -/
  | crc24A
  /-- Twenty-four parity bits, for the codeblocks of a segmented transport block. -/
  | crc24B
deriving DecidableEq, Repr

namespace Crc

/-- Number of parity bits, the degree of the polynomial. -/
def order : Crc → Nat
  | crc16 => 16
  | crc24A => 24
  | crc24B => 24

/-- The polynomial without its leading term, the coefficient of `x^i` at place `i`. -/
def generator : Crc → UInt32
  | crc16 => 0x1021
  | crc24A => 0x864CFB
  | crc24B => 0x800063

/-- The places of the register. -/
def mask : Crc → UInt32
  | crc16 => 0xFFFF
  | crc24A => 0xFFFFFF
  | crc24B => 0xFFFFFF

/-- The highest place of the register. -/
def top : Crc → UInt32
  | crc16 => 0x8000
  | crc24A => 0x800000
  | crc24B => 0x800000

/-- Shift one message bit into the register: what leaves at the top, added to the bit, decides
whether the generator is subtracted. -/
def step (crc : Crc) (register : UInt32) (bit : UInt8) : UInt32 :=
  let shifted := (register <<< 1) &&& crc.mask
  if (register &&& crc.top != 0) != (bit &&& 1 != 0) then shifted ^^^ crc.generator else shifted

/-- Shift a word once. Places above the register are kept, and nothing reads them. -/
def shiftOut (crc : Crc) (word : UInt32) : UInt32 :=
  if word &&& crc.top != 0 then (word <<< 1) ^^^ crc.generator else word <<< 1

/-- The register after eight zero bits, starting from a byte at the highest places. -/
def tableEntry (crc : Crc) (byte : Nat) : UInt32 :=
  Nat.repeat crc.shiftOut 8 (byte.toUInt32 <<< (crc.order - 8).toUInt32) &&& crc.mask

/-- The entries of all bytes. -/
def table (crc : Crc) : Array UInt32 :=
  Array.ofFn fun byte : Fin 256 => crc.tableEntry byte

/-- Shift a byte into the register: what leaves at the top, added to the byte, selects the entry. -/
def byteStep (crc : Crc) (table : Array UInt32) (register : UInt32) (byte : UInt8) : UInt32 :=
  let index := ((register >>> (crc.order - 8).toUInt32) ^^^ byte.toUInt32) &&& 0xFF
  ((register <<< 8) ^^^ table.getD index.toNat 0) &&& crc.mask

/-- The check of a bit sequence: full bytes a byte at a time, then the remaining bits. -/
def ofBits (crc : Crc) (bits : Bits) : UInt32 :=
  let table := crc.table
  let full := bits.size / 8
  let register := (List.range full).foldl
    (fun register i => crc.byteStep table register (bits.byteAt i)) 0
  (bits.extract (8 * full) bits.size).foldl crc.step register &&& crc.mask

/-- The check of a byte sequence, a byte at a time. -/
def ofBytes (crc : Crc) (bytes : Bytes) : UInt32 :=
  bytes.foldl (crc.byteStep crc.table) 0

/-- A register as bits, the highest place first. -/
def registerBits (crc : Crc) (register : UInt32) : Bits :=
  Array.ofFn fun i : Fin crc.order =>
    ((register >>> (crc.order - 1 - i).toUInt32) &&& 1).toUInt8

/-- The parity bits of a message. -/
def parity (crc : Crc) (bits : Bits) : Bits := crc.registerBits (crc.ofBits bits)

/-- The parity bits of a message, written to a buffer of `length` bits. -/
def parityOfLength (crc : Crc) (bits : Bits) (length : Nat) : Checked Bits := do
  require (length == crc.order) "Parity buffer size mismatch"
  return crc.parity bits

@[simp] theorem size_registerBits (crc : Crc) (register : UInt32) :
    (crc.registerBits register).size = crc.order := by
  simp [registerBits]

@[simp] theorem size_parity (crc : Crc) (bits : Bits) : (crc.parity bits).size = crc.order := by
  simp [parity]

end Crc

end Uplink
