import Uplink.Proofs.Demodulation.Nulled

/-!
# The blocks of a codeword

What a demodulation passes on does not depend on who takes it: the blocks are found from the grid
and the estimate alone, one of each symbol with data.

- `DemodulationRequest.blocks`, `receiveAll_of_blocks`: the blocks, and a demodulation as a loop
  over them.
- `DemodulationRequest.Delivers`: the blocks that everybody is passed.
- `DemodulationRequest.elements`: the elements whose soft bits are in them, in their order.
- `DemodulationRequest.run_nulled`: the blocks of a cleared estimate beside those of the estimate.
-/

namespace Uplink

namespace DemodulationRequest

variable {q : DemodulationRequest} {grid : ResourceGrid} {estimate cleared : ChannelEstimate}
  {noise : Array Float32} {σ : Type} {consume : σ → Array SoftBit → Checked σ}

/-! ## Blocks -/

/-- The blocks of `count` symbols from `first` on. -/
def blocks (q : DemodulationRequest) (grid : ResourceGrid) (estimate : ChannelEstimate)
    (noise : Array Float32) :
    (first count : Nat) → Progress → Checked (List (Array SoftBit) × Progress)
  | _, 0, progress => .ok ([], progress)
  | first, count + 1, progress => do
    let (softBits, progress) ← q.receive grid estimate noise first progress
    let (rest, progress) ← blocks q grid estimate noise (first + 1) count progress
    return (if softBits.isEmpty then rest else softBits :: rest, progress)

/-- Symbols are received as a loop over their blocks. The consumer sees the
blocks only, so what it does has no effect on what it is passed next. -/
theorem receiveAll_of_blocks {count first : Nat} {progress progress' : Progress}
    {found : List (Array SoftBit)}
    (h : q.blocks grid estimate noise first count progress = .ok (found, progress'))
    (consume : σ → Array SoftBit → Checked σ) (s : σ) :
    q.receiveAll grid estimate noise consume first count (s, progress) = do
      return (← found.foldlM consume s, progress') := by
  induction count generalizing first progress found s with
  | zero =>
    obtain ⟨rfl, rfl⟩ := Prod.mk.inj (Except.ok.inj h)
    rfl
  | succ count ih =>
    obtain ⟨⟨softBits, progress₁⟩, hreceive, h⟩ := bind_eq_ok.mp h
    obtain ⟨⟨rest, progress₂⟩, hrest, h⟩ := bind_eq_ok.mp h
    obtain ⟨rfl, rfl⟩ := Prod.mk.inj (Except.ok.inj h)
    rw [receiveAll, hreceive, ok_bind]
    dsimp only
    -- a symbol without data elements is not handed on
    cases softBits.isEmpty with
    | true => exact ih hrest s
    | false =>
      rw [if_neg Bool.false_ne_true, if_neg Bool.false_ne_true, List.foldlM_cons]
      cases consume s softBits with
      | error fault => rfl
      | ok s => exact ih hrest s

/-- Symbols that have been received have blocks, whoever took them. -/
theorem exists_blocks {count first : Nat} {progress progress' : Progress} {s s' : σ}
    (h : q.receiveAll grid estimate noise consume first count (s, progress) =
      .ok (s', progress')) :
    ∃ found, q.blocks grid estimate noise first count progress = .ok (found, progress') := by
  induction count generalizing first progress s with
  | zero =>
    obtain ⟨-, rfl⟩ := Prod.mk.inj (Except.ok.inj h)
    exact ⟨[], rfl⟩
  | succ count ih =>
    obtain ⟨⟨softBits, progress₁⟩, hreceive, h⟩ := bind_eq_ok.mp h
    obtain ⟨s₁, hrest⟩ : ∃ s₁, q.receiveAll grid estimate noise consume (first + 1) count
        (s₁, progress₁) = .ok (s', progress') := by
      dsimp only at h
      split at h
      case isTrue => exact ⟨s, h⟩
      case isFalse =>
        obtain ⟨s₁, -, h⟩ := bind_eq_ok.mp h
        exact ⟨s₁, h⟩
    obtain ⟨rest, hrest⟩ := ih hrest
    rw [blocks, hreceive, ok_bind]
    dsimp only
    rw [hrest]
    exact ⟨_, rfl⟩

/-- Whoever takes the blocks of a codeword is passed these, one after the other.
-/
def Delivers (q : DemodulationRequest) (grid : ResourceGrid) (estimate : ChannelEstimate)
    (blocks : List (Array SoftBit)) : Prop :=
  ∃ statistics, ∀ {σ : Type} (consume : σ → Array SoftBit → Checked σ) (start : σ),
    q.run grid estimate consume start = do
      return (statistics, ← blocks.foldlM consume start)

/-! ## A nulled subcarrier -/

/-- The data elements of a codeword by symbol and subcarrier, in the order of
their soft bits. -/
def elements (q : DemodulationRequest) : List (Nat × Nat) :=
  (List.range' q.firstSymbol q.symbolCount).flatMap fun symbol =>
    (q.dataPlaces symbol).map (symbol, ·)

theorem map_snd_elements (q : DemodulationRequest) : q.elements.map Prod.snd =
    (List.range' q.firstSymbol q.symbolCount).flatMap q.dataPlaces := by
  rw [elements, List.map_flatMap]
  refine List.flatMap_congr fun symbol _ => ?_
  rw [List.map_map]
  exact List.map_id _

theorem blocks_nulled {d : Nat} (h : estimate.clearSubcarrier d = .ok cleared)
    (hd : d < Size.signedLimit) (hlayers : 0 < q.layers) {count first : Nat}
    {progress progress' : Progress} (hprogress : progress.scrambling = progress'.scrambling) :
    Alike (fun x x' => Nulled d (q.layers * q.modulation.order) SoftBit.erased
        ((List.range' first count).flatMap q.dataPlaces) (x.1.flatMap Array.toList)
        (x'.1.flatMap Array.toList))
      (q.blocks grid cleared noise first count progress)
      (q.blocks grid estimate noise first count progress') := by
  induction count generalizing first progress progress' with
  | zero => exact .ok .nil
  | succ count ih =>
    have hflat : ∀ (softBits : Array SoftBit) rest,
        (if softBits.isEmpty then rest else softBits :: rest).flatMap Array.toList =
          softBits.toList ++ rest.flatMap Array.toList := by
      intro softBits rest
      split
      case isTrue hempty => rw [Array.isEmpty_iff.mp hempty]; rfl
      case isFalse => rw [List.flatMap_cons]
    refine (receive_nulled h hd hlayers hprogress).bind ?_
    rintro ⟨softBits, _⟩ ⟨softBits', _⟩ ⟨hnulled, hprogress⟩
    refine (ih hprogress).bind ?_
    rintro ⟨rest, _⟩ ⟨rest', _⟩ hrest
    refine .ok ?_
    dsimp only
    rw [List.range'_succ, List.flatMap_cons, hflat, hflat]
    exact hnulled.append hrest

/-- What is delivered with a cleared subcarrier and without it. -/
theorem run_nulled {d : Nat} (h : estimate.clearSubcarrier d = .ok cleared)
    (hd : d < Size.signedLimit) {start : σ} {found : DemodulationStatistics × σ}
    (hrun : q.run grid cleared consume start = .ok found) :
    ∃ blocks without, q.Delivers grid cleared blocks ∧ q.Delivers grid estimate without ∧
      Nulled d (q.layers * q.modulation.order) SoftBit.erased (q.elements.map Prod.snd)
        (blocks.flatMap Array.toList) (without.flatMap Array.toList) := by
  unfold run at hrun
  simp only [bind_eq_ok] at hrun
  obtain ⟨_, hsupported, _, htype, noise, hnoise, total, htotal, ⟨s, progress⟩, hall, -⟩ := hrun
  have hlayers : 0 < q.layers := (decide_eq_true_iff.mp (require_eq_ok.mp hsupported)).2.2.1
  obtain ⟨blocks, hblocks⟩ := exists_blocks hall
  obtain ⟨⟨without, progress'⟩, hwithout, hnulled⟩ :=
    (blocks_nulled h hd hlayers rfl).exists_ok hblocks
  -- the noise of the ports is that of the estimate
  have hdelivers : ∀ {e : ChannelEstimate} {found : List (Array SoftBit)} {progress : Progress},
      e.port = estimate.port →
      q.blocks grid e noise q.firstSymbol q.symbolCount
        ⟨GoldSequence.ofSeed (Scrambling.seed q.rnti q.cellId), ErrorMeter.zero⟩ =
          .ok (found, progress) → q.Delivers grid e found := by
    intro e found progress hport hfound
    refine ⟨progress.meter.statistics, fun consume start => ?_⟩
    rw [ChannelEstimate.port_of_clearSubcarrier h, ← hport] at hnoise
    unfold run
    dsimp only
    rw [hsupported, ok_bind, htype, ok_bind, hnoise, ok_bind, htotal, ok_bind,
      receiveAll_of_blocks hfound]
    cases found.foldlM consume start <;> rfl
  refine ⟨blocks, without, hdelivers (ChannelEstimate.port_of_clearSubcarrier h) hblocks,
    hdelivers rfl hwithout, ?_⟩
  rw [map_snd_elements]
  exact hnulled

end DemodulationRequest

end Uplink
