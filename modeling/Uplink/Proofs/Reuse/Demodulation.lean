import Uplink.Proofs.Demodulation.SoftBits
import Uplink.Proofs.Reuse.Buffer
import Uplink.Reuse.Demodulation

/-!
# Demodulation in place gives the same soft bits

Every buffer of a demodulator is given the length that a symbol needs and is then written over from
its start to its end. What is passed on is the soft bits of this symbol, with nothing of earlier
ones.

- `Modulation.demapOver_eq`, `ErrorMeter.recordBlock_eq`: soft bits and distances from these
  buffers.
- `DemodulationRequest.equalizeInPlace_alike`: the equalized symbols fill their buffers.
- `DemodulationRequest.receiveInPlace_alike`: one symbol, with data or without.
- `DemodulationRequest.runInPlace_alike`: all symbols, whoever takes the blocks.
-/

namespace Uplink

namespace Modulation

/-- Soft bits that fill a buffer are the soft bits, with nothing of the old ones
left. -/
theorem demapOver_eq (m : Modulation) {buffer : Array SoftBit} {symbols : Array Complex}
    {noise : Array Float32} (hnoise : symbols.size = noise.size)
    (hsize : buffer.size = symbols.size * m.order) :
    m.demapOver buffer symbols noise = m.demapAll symbols noise := by
  rw [demapOver, demapAll, Buffer.overwriteEach_eq, ← Array.foldl_toList]
  · intro piece hpiece
    obtain ⟨symbol, noise, rfl⟩ := m.mem_zipWith_softBits hpiece
    exact m.size_softBits _ _ _
  · rw [Array.length_toList, Array.size_zipWith, ← hnoise, Nat.min_self, hsize]

end Modulation

/-- The distances are those to the points of the bits, whatever points were in
the buffer. -/
theorem ErrorMeter.recordBlock_eq (meter : ErrorMeter) (m : Modulation) (symbols : Array Equalized)
    (bits : Bits) {buffer : Array Complex} (hsize : buffer.size = symbols.size) :
    meter.recordBlock (symbols.map (·.symbol)) (symbols.map (·.noise)) (m.mapOver buffer bits) =
      meter.recordAll m symbols bits := by
  have hentries : ((symbols.map (·.symbol)).zip (m.mapOver buffer bits)).zip
      (symbols.map (·.noise)) =
        symbols.zipIdx.map fun x => ((x.1.symbol, m.symbolAt bits x.2), x.1.noise) := by
    refine Array.ext ?_ fun i hi _ => ?_
    · simp [Modulation.mapOver, hsize]
    · simp [Modulation.mapOver]
  rw [recordBlock, hentries, recordAll, Array.foldl_map]

namespace DemodulationRequest

variable {q : DemodulationRequest} {grid : ResourceGrid} {estimate : ChannelEstimate}
  {portNoise : Array Float32} {symbol : Nat} {mask : Array Bool} {subcarriers : Array Nat}
  {memory : DemodulatorMemory}

theorem size_of_equalizeElement {rows : Array (Array (Array Complex))}
    {received : Array (Array Complex)} {i k : Nat} {found : Array Equalized}
    (h : q.equalizeElement rows portNoise received i k = .ok found) : found.size = q.layers := by
  obtain ⟨channel, -, h⟩ := bind_eq_ok.mp h
  rw [← Except.ok.inj h]
  exact Equalizer.size_equalize _ _ _ _

/-- The equalized symbols of a symbol fill their buffers: these are set to the
number of its elements first. -/
theorem equalizeInPlace_alike (hports : memory.received.size = q.ports.length)
    (hcount : ((List.range mask.size).filter (mask.getD · false)).length = subcarriers.size) :
    Alike (fun x symbols => x.received.size = q.ports.length ∧ x.subcarriers = subcarriers ∧
        symbols.size = subcarriers.size * q.layers ∧ x.symbols = symbols.map (·.symbol) ∧
        x.noise = symbols.map (·.noise))
      (q.equalizeInPlace memory grid estimate portNoise symbol mask subcarriers)
      (q.equalizeSymbol grid estimate portNoise symbol mask subcarriers) := by
  unfold equalizeInPlace equalizeSymbol
  dsimp only
  refine (Alike.mapM_zip (hports.trans List.size_toArray.symm) ?read).bind ?_
  case read =>
    intro elements port
    dsimp only
    rw [ResourceGrid.readMasked_eq hcount (Buffer.size_resize ..) Array.size_replicate]
  rintro received _ ⟨rfl, hsize⟩
  refine .after _ fun rows _ => ?_
  have hlength : subcarriers.toList.zipIdx.length = subcarriers.size := by
    rw [List.length_zipIdx, Array.length_toList]
  rw [← Array.foldlM_toList, ← Array.foldlM_toList, Array.toList_zipIdx]
  -- as many symbols are written as have been found
  refine (Alike.foldlM (fun done (x : Array Complex × Array Float32) (symbols : Array Equalized) =>
    symbols.size = done.length * q.layers ∧
      Buffer.Begins (subcarriers.size * q.layers) (symbols.map (·.symbol)) x.1 ∧
      Buffer.Begins (subcarriers.size * q.layers) (symbols.map (·.noise)) x.2)
    ?start ?step).bind_left ?result
  case start =>
    refine ⟨(Nat.zero_mul _).symm, ?_, ?_⟩
    · rw [Array.map_empty]
      exact .empty (Buffer.size_resize ..)
    · rw [Array.map_empty]
      exact .empty (Buffer.size_resize ..)
  case step =>
    rintro done ⟨k, i⟩ rest ⟨written, noise⟩ symbols hsplit ⟨hdone, hwritten, hnoise⟩
    obtain rfl := zipIdx_split hsplit
    rw [hsplit, List.length_append, List.length_cons] at hlength
    have hend : done.length * q.layers + q.layers ≤ subcarriers.size * q.layers := by
      rw [← Nat.succ_mul]
      exact Nat.mul_le_mul_right _ (by omega)
    dsimp only at hwritten hnoise ⊢
    refine .after _ fun found hfound => .ok ?_
    have hfound := size_of_equalizeElement hfound
    have hroom : symbols.size + found.size ≤ subcarriers.size * q.layers := by
      rwa [hdone, hfound]
    rw [← hdone]
    refine ⟨?_, hwritten.append_map hroom, hnoise.append_map hroom⟩
    rw [Array.size_append, hdone, hfound, List.length_append, List.length_singleton, Nat.succ_mul]
  case result =>
    rintro x symbols ⟨hfilled, hsymbols, hnoise⟩
    rw [hlength] at hfilled
    refine ⟨_, rfl, hsize.trans List.size_toArray, rfl, hfilled, ?_, ?_⟩
    · exact hsymbols.eq_of_size (by rw [Array.size_map, hfilled])
    · exact hnoise.eq_of_size (by rw [Array.size_map, hfilled])

/-- A symbol is received as without the buffers: it holds data in both, and then
its soft bits are in the buffer, or in neither. -/
theorem receiveInPlace_alike (hports : memory.received.size = q.ports.length)
    (hlayers : 0 < q.layers) (progress : Progress) :
    Alike (fun x block => x.1.received.size = q.ports.length ∧ x.2 = block.2 ∧
        x.1.subcarriers.isEmpty = block.1.isEmpty ∧
        (block.1.isEmpty = false → x.1.softBits = block.1))
      (q.receiveInPlace memory grid estimate portNoise symbol progress)
      (q.receive grid estimate portNoise symbol progress) := by
  unfold receiveInPlace receive
  dsimp only
  generalize q.dataMask (q.dmrsMask.contains symbol) = mask
  have hcount : ((List.range mask.size).filter (mask.getD · false)).length =
      ((Array.range mask.size).filter (mask.getD · false)).size := by
    rw [← Array.toList_range, ← Array.toList_filter, Array.length_toList]
  generalize (Array.range mask.size).filter (mask.getD · false) = subcarriers at hcount ⊢
  cases hempty : subcarriers.isEmpty with
  | true => exact .ok ⟨hports, rfl, hempty, fun h => by cases h⟩
  | false =>
    simp only [Bool.false_eq_true, if_false]
    refine (equalizeInPlace_alike hports hcount).bind ?_
    rintro found symbols ⟨hreceived, hfound, hsize, hsymbols, hnoise⟩
    have hscrambled : q.modulation.demapOver
        (Buffer.resize found.softBits (subcarriers.size * q.layers * q.modulation.order)
          SoftBit.erased)
        (symbols.map (·.symbol)) (symbols.map (·.noise)) =
          q.modulation.demapAll (symbols.map (·.symbol)) (symbols.map (·.noise)) :=
      q.modulation.demapOver_eq (by rw [Array.size_map, Array.size_map])
        (by rw [Buffer.size_resize, Array.size_map, hsize])
    rw [hsymbols, hnoise, hscrambled, ErrorMeter.recordBlock_eq _ _ _ _
      (by rw [Buffer.size_resize, hsize])]
    obtain ⟨softBits, scrambling, hout, hlength⟩ := progress.scrambling.exists_descramble
      (q.modulation.inReach_demapAll (symbols.map (·.symbol)) (symbols.map (·.noise)))
    rw [hout]
    refine .ok ⟨hreceived, rfl, ?_, fun _ => rfl⟩
    -- a symbol with data elements has soft bits
    rw [q.modulation.size_demapAll (by rw [Array.size_map, Array.size_map]), Array.size_map,
      hsize] at hlength
    have hcount : 0 < subcarriers.size := Array.size_pos_iff.mpr (by simpa using hempty)
    have hpos : 0 < softBits.size := by
      rw [hlength]
      exact Nat.mul_pos (Nat.mul_pos hcount hlayers) q.modulation.order_pos
    rw [hfound, hempty]
    exact (Array.isEmpty_eq_false_iff.mpr (Array.size_pos_iff.mp hpos)).symm

/-- All symbols are received as without the buffers, by consumers that go on
alike. -/
theorem receiveAllInPlace_alike {σ σ' : Type} {T : σ → σ' → Prop}
    {consume : σ → Array SoftBit → Checked σ} {consume' : σ' → Array SoftBit → Checked σ'}
    (hconsume : ∀ s s' block, T s s' → Alike T (consume s block) (consume' s' block))
    (hlayers : 0 < q.layers) :
    ∀ {count first : Nat} {memory : DemodulatorMemory} {s : σ} {s' : σ'} (progress : Progress),
      memory.received.size = q.ports.length → T s s' →
      Alike (fun x x' => T x.2.1 x'.1 ∧ x.2.2 = x'.2)
        (q.receiveAllInPlace grid estimate portNoise consume first count memory (s, progress))
        (q.receiveAll grid estimate portNoise consume' first count (s', progress))
  | 0, _, _, _, _, _, _, hs => .ok ⟨hs, rfl⟩
  | count + 1, first, memory, s, s', progress, hports, hs => by
    rw [receiveAllInPlace, receiveAll]
    refine (receiveInPlace_alike hports hlayers progress).bind ?_
    rintro ⟨memory, progress⟩ ⟨softBits, _⟩ ⟨hports, rfl, hempty, hsoftBits⟩
    dsimp only at hports hempty hsoftBits ⊢
    rw [hempty]
    cases hdata : softBits.isEmpty with
    | true => exact receiveAllInPlace_alike hconsume hlayers _ hports hs
    | false =>
      rw [hsoftBits hdata]
      exact (hconsume _ _ softBits hs).bind fun _ _ hs =>
        receiveAllInPlace_alike hconsume hlayers _ hports hs

/-- A codeword is demodulated as without the buffers, whatever they held. The
consumers may differ, as long as they go on alike. -/
theorem runInPlace_alike {σ σ' : Type} {T : σ → σ' → Prop}
    {consume : σ → Array SoftBit → Checked σ} {consume' : σ' → Array SoftBit → Checked σ'}
    (hconsume : ∀ s s' block, T s s' → Alike T (consume s block) (consume' s' block))
    (memory : DemodulatorMemory) {s : σ} {s' : σ'} (hs : T s s') :
    Alike (fun x x' => x.1 = x'.1 ∧ T x.2.1 x'.2) (q.runInPlace memory grid estimate consume s)
      (q.run grid estimate consume' s') := by
  unfold runInPlace run
  dsimp only
  refine .after _ fun _ hrange => .after _ fun _ _ => .after _ fun portNoise _ =>
    .after _ fun _ _ => ?_
  have hlayers : 0 < q.layers := (decide_eq_true_iff.mp (require_eq_ok.mp hrange)).2.2.1
  refine (receiveAllInPlace_alike hconsume hlayers _ (Buffer.size_resize ..) hs).bind ?_
  rintro ⟨memory, s, progress⟩ ⟨s', _⟩ ⟨hs, rfl⟩
  exact .ok ⟨rfl, hs⟩

end DemodulationRequest

end Uplink
