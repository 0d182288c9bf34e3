import Uplink.Codeblock
import Uplink.Proofs.Crc
import Uplink.Proofs.Segmentation

/-!
# Messages of codeblocks

- `Segmentation.checked`: a transport block with its check; `Segmentation.ofBits_checked`.
- `Segmentation.ofBits_message`: the message of a codeblock passes the check that protects it;
  `Segmentation.Holds` is all that a decoder relies on.
- `Segmentation.extract_append_message`: the data bits of the messages, put together in order, give
  back the checked transport block.
-/

namespace Uplink

namespace Segmentation

open Ldpc

variable {base : BaseGraph} {tbs : Nat} {s : Segmentation} {bits : Bits} {i : Nat}

/-! ## The checked transport block -/

/-- Bits followed by the check of a transport block of `tbs` bits. -/
def checked (tbs : Nat) (bits : Bits) : Bits := bits ++ (tbCrc tbs).parity bits

@[simp] theorem size_checked : (checked tbs bits).size = bits.size + (tbCrc tbs).order := by
  simp [checked]

/-- A block followed by its parity passes its check. -/
theorem ofBits_checked : (tbCrc tbs).ofBits (checked tbs bits) = 0 :=
  (tbCrc tbs).ofBits_append_parity bits

theorem checked_only01 (h : bits.HasOnly01) : (checked tbs bits).HasOnly01 :=
  h.append ((tbCrc tbs).parity_only01 bits)

/-! ## Data bits -/

@[simp] theorem size_blockData : (s.blockData bits i).size = s.dataLength := by
  simp only [blockData, Array.size_append, Array.size_replicate, Array.size_extract,
    Nat.add_one_mul]
  omega

/-- The data bits of codeblock `i` are the next `dataLength` bits of the checked
transport block. -/
theorem getD_blockData {j : Nat} (hj : j < s.dataLength) :
    (s.blockData bits i).getD j 0 = bits.getD (i * s.dataLength + j) 0 := by
  have hlt : i * s.dataLength + j < (i + 1) * s.dataLength := by
    rw [Nat.add_one_mul]
    omega
  rw [← Buffer.getD_extract bits (i * s.dataLength) ((i + 1) * s.dataLength) j 0 hlt, blockData]
  simp only [Array.getD_eq_getD_getElem?, Array.getElem?_append]
  split
  · rfl
  · rename_i hge
    rw [Array.getElem?_eq_none (Nat.le_of_not_lt hge), Array.getElem?_replicate]
    split <;> rfl

theorem blockData_only01 (h : bits.HasOnly01) : (s.blockData bits i).HasOnly01 :=
  (h.extract _ _).append (Bits.HasOnly01.zeros _)

/-- The data bits of a codeblock with its own check, if the transport block is
cut. -/
def protectedData (s : Segmentation) (bits : Bits) (i : Nat) : Bits :=
  if 1 < s.blocks then s.blockData bits i ++ Crc.crc24B.parity (s.blockData bits i)
  else s.blockData bits i

/-- A message is its protected data, filled up with zeros. -/
theorem message_eq (s : Segmentation) (bits : Bits) (i : Nat) :
    s.message bits i = s.protectedData bits i ++
      Array.replicate (s.messageLength - (s.protectedData bits i).size) 0 := rfl

/-- Data and check together have the length that the segmentation sets aside for
them, whether or not the codeblock has a check of its own. -/
theorem size_protectedData (h : s.Sound base tbs) :
    (s.protectedData bits i).size = s.blockLength := by
  have hle := h.blockCheckLength_le
  have hcheck := h.blockCheckLength_eq
  unfold protectedData
  split
  · rename_i hcut
    rw [if_pos hcut] at hcheck
    rw [Array.size_append, size_blockData, Crc.size_parity, dataLength, hcheck]
    rw [hcheck] at hle
    exact Nat.sub_add_cancel hle
  · rename_i hcut
    rw [if_neg hcut] at hcheck
    rw [size_blockData, dataLength, hcheck, Nat.sub_zero]

theorem protectedData_only01 (h : bits.HasOnly01) : (s.protectedData bits i).HasOnly01 := by
  unfold protectedData
  split
  · exact (blockData_only01 h).append (Crc.crc24B.parity_only01 _)
  · exact blockData_only01 h

theorem size_message (h : s.Sound base tbs) : (s.message bits i).size = s.messageLength := by
  have hsize : (s.protectedData bits i).size = s.blockLength := size_protectedData h
  rw [message_eq, Array.size_append, Array.size_replicate, hsize]
  exact Nat.add_sub_cancel' h.fits

theorem message_only01 (h : bits.HasOnly01) : (s.message bits i).HasOnly01 :=
  (protectedData_only01 h).append (Bits.HasOnly01.zeros _)

/-- A message without its filler bits is the data with their check, which is
what a decoder checks. -/
theorem extract_message (h : s.Sound base tbs) :
    (s.message bits i).extract 0 s.blockLength = s.protectedData bits i := by
  have hsize : (s.protectedData bits i).size = s.blockLength := size_protectedData h
  rw [message_eq, ← hsize]
  simp

/-- The data bits of a message are those of the checked transport block, without
and with a check of the codeblock's own. -/
theorem getD_message {j : Nat} (hj : j < s.dataLength) :
    (s.message bits i).getD j 0 = bits.getD (i * s.dataLength + j) 0 := by
  have hdata : j < (s.blockData bits i).size := by rwa [size_blockData]
  -- the check comes after the data
  have hprotected : (s.protectedData bits i)[j]? = (s.blockData bits i)[j]? := by
    unfold protectedData
    split
    · rw [Array.getElem?_append_left hdata]
    · rfl
  have hj' : j < (s.protectedData bits i).size := by
    unfold protectedData
    split
    · rw [Array.size_append]
      omega
    · exact hdata
  rw [← getD_blockData hj, message_eq, Array.getD_eq_getD_getElem?, Array.getD_eq_getD_getElem?,
    Array.getElem?_append_left hj', hprotected]

/-- The filler bits of a message are zeros, as the receiver assumes of them. -/
theorem getD_message_filler (h : s.Sound base tbs) {j : Nat} (hj : s.blockLength ≤ j) :
    (s.message bits i).getD j 0 = 0 := by
  have hsize : (s.protectedData bits i).size = s.blockLength := size_protectedData h
  rw [message_eq, Array.getD_eq_getD_getElem?, Array.getElem?_append_right (by omega),
    Array.getElem?_replicate]
  split <;> rfl

/-- The message of a codeblock passes the check that protects it: its own one
when the transport block is cut, and else the check of the transport block. -/
theorem ofBits_message (h : s.Sound base tbs) (hsize : bits.size = tbs) (hi : i < s.blocks) :
    (blockCrc s.blocks tbs).ofBits
      ((s.message (checked tbs bits) i).extract 0 s.blockLength) = 0 := by
  rw [extract_message h]
  by_cases hcut : 1 < s.blocks
  · rw [blockCrc, protectedData, if_pos hcut, if_pos hcut]
    exact Crc.crc24B.ofBits_append_parity _
  · -- a single codeblock is the whole checked transport block
    have hone : s.blocks = 1 := by omega
    have hlength : s.dataLength = (checked tbs bits).size := by
      have hcheck := h.blockCheckLength_eq
      rw [if_neg hcut] at hcheck
      rw [dataLength, hcheck, h.single hone, checkedSize, h.tbCheckLength_eq, size_checked, hsize,
        Nat.sub_zero]
    have hdata : s.blockData (checked tbs bits) i = checked tbs bits := by
      obtain rfl : i = 0 := by omega
      rw [blockData, hlength]
      simp only [Nat.zero_mul, Nat.zero_add, Nat.one_mul, Array.extract_size, Nat.sub_self,
        Array.replicate_zero, Array.append_empty]
    rw [blockCrc, protectedData, if_neg hcut, if_neg hcut, hdata, ofBits_checked]

/-- What a decoder relies on: the messages are words of bits, each with its
check at the end of its data and zeros in the filler places. -/
structure Holds (s : Segmentation) (tbs : Nat) (message : Nat → Bits) : Prop where
  bits : ∀ i < s.blocks, (message i).HasOnly01
  size : ∀ i < s.blocks, (message i).size = s.messageLength
  fillers : ∀ i < s.blocks, ∀ j, s.blockLength ≤ j → (message i).getD j 0 = 0
  check : ∀ i < s.blocks,
    (blockCrc s.blocks tbs).ofBits ((message i).extract 0 s.blockLength) = 0

/-- The messages of a transport block are such, so whatever decodes them may
rely on it. -/
theorem holds_message (h : s.Sound base tbs) (hsize : bits.size = tbs) (hbits : bits.HasOnly01) :
    s.Holds tbs (s.message (checked tbs bits)) where
  bits := fun _ _ => message_only01 (checked_only01 hbits)
  size := fun _ _ => size_message h
  fillers := fun _ _ _ hj => getD_message_filler h hj
  check := fun _ hi => ofBits_message h hsize hi

/-! ## Reassembly -/

/-- Bits that continue a sequence extend its first part. A transport block is
assembled with this, one codeblock after the other. -/
theorem extract_append {whole part : Bits} {start n : Nat} (hn : n ≤ part.size)
    (hstart : start + n ≤ whole.size)
    (h : ∀ j < n, part.getD j 0 = whole.getD (start + j) 0) :
    whole.extract 0 start ++ part.extract 0 n = whole.extract 0 (start + n) := by
  apply Array.ext
  · simp
    omega
  · intro j h₁ h₂
    rw [Array.getElem_append]
    split
    · simp
    · rename_i hge
      have hj : start ≤ j ∧ j < start + n := by
        simp at hge h₂
        omega
      have hpart := h (j - start) (by omega)
      rw [Nat.add_sub_cancel' hj.1, Buffer.getD_of_lt (by omega), Buffer.getD_of_lt (by omega)]
        at hpart
      simpa [Nat.min_eq_left (show start ≤ whole.size by omega)] using hpart

/-- The data bits of the next message, as many as are wanted, extend what is
assembled. -/
theorem extract_append_message {whole : Bits} {limit : Nat} (hlimit : limit ≤ whole.size)
    (hmessage : s.dataLength ≤ (s.message whole i).size) :
    whole.extract 0 (min (i * s.dataLength) limit) ++
        (s.message whole i).extract 0
          (min s.dataLength (limit - min (i * s.dataLength) limit)) =
      whole.extract 0 (min ((i + 1) * s.dataLength) limit) := by
  rw [Nat.add_one_mul]
  -- once the limit is reached nothing more is taken
  rcases Nat.lt_or_ge (i * s.dataLength) limit with hlt | hge
  · rw [Nat.min_eq_left (Nat.le_of_lt hlt), extract_append (by omega) (by omega)
      fun j hj => getD_message (by omega)]
    congr 1
    omega
  · rw [Nat.min_eq_right hge, Nat.sub_self, Nat.min_zero, Nat.min_eq_right (by omega)]
    simp

end Segmentation

end Uplink
