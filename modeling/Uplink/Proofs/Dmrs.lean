import Mathlib.Tactic.Ring
import Uplink.Dmrs
import Uplink.Proofs.GoldSequence

/-!
# Reference symbols depend on the absolute block

The values of a block are found at the place that the block has among all blocks, whichever of them
are allocated: what is passed over is as long as the values that are not taken.

- `Dmrs.symbolAt`, `Dmrs.valuesOf`: the symbols of a sequence, and those of one block.
- `Dmrs.givesUnless_takeBlock`, `givesUnless_takeBlocks`: one block, and blocks with gaps.
- `Dmrs.sequence_slices`: the values of a mask beside those of all blocks.
-/

namespace Uplink

namespace Dmrs

variable {g : GoldSequence} {amplitude : Float32} {n : Nat}

/-! ## Symbols of a sequence -/

/-- The symbol number `i` from a position on. -/
def symbolAt (g : GoldSequence) (amplitude : Float32) (i : Nat) : Complex :=
  ((g.skip (2 * i)).nextQpsk amplitude).1

/-- Symbols are taken in order, each from its own two bits. -/
theorem qpsk_eq (g : GoldSequence) (amplitude : Float32) (n : Nat) (taken : Array Complex) :
    g.qpsk amplitude n taken =
      (taken ++ (Array.range n).map (symbolAt g amplitude), g.skip (2 * n)) := by
  induction n with
  | zero =>
    have hnone : (Array.range 0).map (symbolAt g amplitude) = #[] := by simp
    rw [hnone, Array.append_empty]
    rfl
  | succ n ih =>
    have hnext : (Array.range (n + 1)).map (symbolAt g amplitude) =
        ((Array.range n).map (symbolAt g amplitude)).push (symbolAt g amplitude n) := by
      simp [Array.range_succ]
    have hstep : g.qpsk amplitude (n + 1) taken =
        ((g.qpsk amplitude n taken).1.push ((g.qpsk amplitude n taken).2.nextQpsk amplitude).1,
          ((g.qpsk amplitude n taken).2.nextQpsk amplitude).2) := rfl
    rw [hstep, ih, hnext, Array.append_push]
    rfl

/-- The values of a block. -/
def valuesOf (g : GoldSequence) (amplitude : Float32) (n block : Nat) : Array Complex :=
  (Array.range n).map fun i => symbolAt g amplitude (block * n + i)

/-- The values of a block are those that are read after skipping what belongs to
the blocks before it. -/
theorem map_symbolAt_skip (g : GoldSequence) (amplitude : Float32) (n block : Nat) :
    (Array.range n).map (symbolAt (g.skip (2 * n * block)) amplitude) =
      valuesOf g amplitude n block := by
  refine Array.map_congr_left fun i _ => ?_
  rw [symbolAt, symbolAt, ← GoldSequence.skip_add]
  congr 3
  ring

/-! ## Blocks -/

/-- A block's values are taken at its place, however far it is from the block
before it. What is skipped must be counted by the machine. -/
theorem givesUnless_takeBlock {beyond : Prop} {current block : Nat} (hle : current ≤ block)
    (hbeyond : Size.limit ≤ 2 * n * block → beyond) (values : Array Complex) :
    GivesUnless beyond
      (takeBlock n amplitude (values, current, g.skip (2 * n * current)) block)
      (values ++ valuesOf g amplitude n block, block + 1, g.skip (2 * n * (block + 1))) := by
  have hpassed : 2 * n * current + (block - current) * n * 2 = 2 * n * block := by
    obtain ⟨gap, rfl⟩ := Nat.exists_eq_add_of_le hle
    rw [Nat.add_sub_cancel_left]
    ring
  refine .bind (.size_ofNat fun h => hbeyond (by omega))
    (.bind (.size_ofNat fun h => hbeyond (by omega)) (.of_ok ?_))
  dsimp only
  rw [← GoldSequence.skip_add, hpassed, qpsk_eq, map_symbolAt_skip, ← GoldSequence.skip_add,
    Nat.mul_succ]
  rfl

/-- Blocks up to the last one of a list that goes on from block `current`. -/
def stop (current : Nat) (blocks : List Nat) : Nat := (blocks.getLast?.map (· + 1)).getD current

theorem stop_cons (current block : Nat) (blocks : List Nat) :
    stop current (block :: blocks) = stop (block + 1) blocks := by
  rw [stop, stop, List.getLast?_cons]
  cases blocks.getLast? with
  | none => rfl
  | some last => rfl

/-- Blocks in increasing order are taken one after the other. The sequence only
moves forwards, which is why their order matters. -/
theorem givesUnless_takeBlocks {beyond : Prop} {blocks : List Nat}
    (hsorted : blocks.Pairwise (· < ·))
    (hbeyond : ∀ block ∈ blocks, Size.limit ≤ 2 * n * block → beyond) {current : Nat}
    (hcurrent : ∀ block ∈ blocks, current ≤ block) (values : Array Complex) :
    GivesUnless beyond
      (blocks.foldlM (takeBlock n amplitude) (values, current, g.skip (2 * n * current)))
      (blocks.foldl (fun values block => values ++ valuesOf g amplitude n block) values,
        stop current blocks, g.skip (2 * n * stop current blocks)) := by
  induction blocks generalizing current values with
  | nil => exact .of_ok rfl
  | cons block blocks ih =>
    obtain ⟨hless, hsorted⟩ := List.pairwise_cons.mp hsorted
    obtain ⟨hle, -⟩ := List.forall_mem_cons.mp hcurrent
    obtain ⟨hblock, hbeyond⟩ := List.forall_mem_cons.mp hbeyond
    rw [List.foldlM_cons, List.foldl_cons, stop_cons]
    exact .bind (givesUnless_takeBlock hle hblock values) (ih hsorted hbeyond hless _)

/-! ## Masks -/

theorem lt_of_mem_allocated {mask : Array Bool} {block : Nat} (h : block ∈ allocated mask) :
    block < mask.size := List.mem_range.mp (List.mem_filter.mp h).1

theorem nodup_allocated (mask : Array Bool) : (allocated mask).Nodup :=
  List.nodup_range.filter _

theorem length_allocated_le (mask : Array Bool) : (allocated mask).length ≤ mask.size := by
  refine Nat.le_trans (List.length_filter_le _ _) ?_
  exact Nat.le_of_eq List.length_range

/-- The values of the blocks of a mask, unless those of all its blocks are too
many. The table is as large as if every block were allocated. -/
theorem givesUnless_sequence (g : GoldSequence) (mask : Array Bool) (n : Nat)
    (amplitude : Float32) :
    GivesUnless (Size.signedLimit ≤ 8 * (mask.size * n)) (sequence g mask n amplitude)
      ((allocated mask).foldl (fun values block => values ++ valuesOf g amplitude n block) #[],
        g.skip (2 * n * stop 0 (allocated mask))) := by
  have hcount : (allocated mask).length * n ≤ mask.size * n :=
    Nat.mul_le_mul_right n (length_allocated_le mask)
  have hbeyond : ∀ block ∈ allocated mask, Size.limit ≤ 2 * n * block →
      Size.signedLimit ≤ 8 * (mask.size * n) := by
    intro block hblock hlimit
    have hlt : block < mask.size := lt_of_mem_allocated hblock
    have hle : n * block ≤ n * mask.size := Nat.mul_le_mul_left n hlt.le
    have htwice : Size.limit = 2 * Size.signedLimit := by decide
    rw [Nat.mul_assoc] at hlimit
    rw [Nat.mul_comm mask.size]
    omega
  have hblocks := @givesUnless_takeBlocks g amplitude n _ _
    (List.pairwise_lt_range.filter (mask.getD · false)) hbeyond 0
    (fun block _ => Nat.zero_le block) #[]
  exact .bind (.size_cells (by decide) (by omega) (by decide)) (.bind hblocks (.of_ok rfl))

/-- The values of all blocks. -/
def allValues (g : GoldSequence) (amplitude : Float32) (n count : Nat) : Array Complex :=
  (Array.range (count * n)).map (symbolAt g amplitude)

@[simp] theorem size_allValues (count : Nat) : (allValues g amplitude n count).size = count * n := by
  simp [allValues]

/-- The values of a block stand in the full sequence at the place of the block.
-/
theorem extract_allValues {block count : Nat} (h : block < count) :
    (allValues g amplitude n count).extract (block * n) ((block + 1) * n) =
      valuesOf g amplitude n block := by
  have hle : (block + 1) * n ≤ count * n := Nat.mul_le_mul_right n h
  have hnext : (block + 1) * n = block * n + n := Nat.succ_mul block n
  refine Array.ext ?_ fun i hi hi' => ?_
  · rw [Array.size_extract, size_allValues, valuesOf, Array.size_map, Array.size_range]
    omega
  · simp [allValues, valuesOf]

/-- A full sequence is the values of its blocks, one behind the other. -/
theorem foldl_valuesOf (g : GoldSequence) (amplitude : Float32) (n count : Nat) :
    (List.range count).foldl (fun values block => values ++ valuesOf g amplitude n block) #[] =
      allValues g amplitude n count := by
  induction count with
  | zero => simp [allValues]
  | succ count ih =>
    rw [List.range_succ, List.foldl_append, ih, List.foldl_cons, List.foldl_nil]
    refine Array.toList_inj.mp ?_
    simp [allValues, valuesOf, Nat.succ_mul, List.range_add]

theorem allocated_replicate (count : Nat) :
    allocated (Array.replicate count true) = List.range count := by
  rw [allocated, Array.size_replicate]
  refine List.filter_eq_self.mpr fun block hblock => ?_
  simp [Array.getD, List.mem_range.mp hblock]

theorem stop_range (count : Nat) : stop 0 (List.range count) = count := by
  cases count with
  | zero => rfl
  | succ count =>
    rw [stop, List.getLast?_range]
    rfl

/-- The parts of a sequence at blocks of `n` values. -/
def slices (full : Array Complex) (n : Nat) (blocks : List Nat) : Array Complex :=
  blocks.foldl (fun values block => values ++ full.extract (block * n) ((block + 1) * n)) #[]

/-- All blocks give one sequence, which the machine can hold or not. The blocks
of a mask give its parts at these blocks, and the position behind the last of
them. -/
theorem sequence_slices (g : GoldSequence) (mask : Array Bool) (n : Nat) (amplitude : Float32) :
    ∃ full : Array Complex, full.size = mask.size * n ∧
      sequence g (Array.replicate mask.size true) n amplitude =
        (if 8 * (mask.size * n) < Size.signedLimit then
          .ok (full, g.skip (2 * n * mask.size))
        else .error .arithmetic) ∧
      GivesUnless (Size.signedLimit ≤ 8 * (mask.size * n)) (sequence g mask n amplitude)
        (slices full n (allocated mask), g.skip (2 * n * stop 0 (allocated mask))) := by
  refine ⟨allValues g amplitude n mask.size, size_allValues _, ?_, ?_⟩
  · have hall := givesUnless_sequence g (Array.replicate mask.size true) n amplitude
    rw [allocated_replicate, foldl_valuesOf, stop_range, Array.size_replicate] at hall
    split
    case isTrue hfits => exact hall.eq_ok (Nat.not_le.mpr hfits)
    case isFalse hbig =>
      rw [sequence, allocated_replicate, List.length_range,
        Size.cells_of_le (Nat.le_of_not_lt hbig)]
      rfl
  · have hslices : slices (allValues g amplitude n mask.size) n (allocated mask) =
        (allocated mask).foldl (fun values block => values ++ valuesOf g amplitude n block) #[] :=
      List.foldl_ext _ _ _ fun values block hblock => by
        rw [extract_allValues (List.mem_range.mp (List.mem_filter.mp hblock).1)]
    rw [hslices]
    exact givesUnless_sequence g mask n amplitude

end Dmrs

end Uplink
