import Uplink.Proofs.Mapping.Writing
import Uplink.Simulation.Device

/-!
# Sources

What chance decides in a slot can come from anywhere: the contents of the fields, and what the
channel makes of the sent grid. Slots complete with every source whose contents have the right
extent, and the generators of a device are such a source with any library of random numbers.

- `Source.Fits`: everything that a source decides has the right extent.
- `Source.fits_drawn`: so has everything that is drawn.
-/

namespace Uplink

namespace Simulation

variable [Randomness]

/-- Contents have the length that is asked for, and every port observes a whole
slot. Nothing is said of the contents or of the observed elements, which a
source may choose at will. -/
structure Source.Fits (source : Source) : Prop where
  size_bytes : ∀ g n, (source.bytes g n).1.size = n
  size_bits : ∀ g n, (source.bits g n).1.size = n
  ports_eq : ∀ channel sent n, (source.propagate channel sent n).1.ports = n
  symbols_eq : ∀ channel sent n, (source.propagate channel sent n).1.symbols = sent.symbols
  blocks_eq : ∀ channel sent n, (source.propagate channel sent n).1.blocks = sent.blocks

omit [Randomness] in
/-- A loop that draws an element in each step makes as many as it has steps,
whatever is drawn. -/
theorem size_foldl_push {α β γ δ : Type} (draw : γ → δ × γ) (value : δ → α) (l : List β)
    (out : Array α) (g : γ) :
    (l.foldl (fun (out, g) _ => let (x, g) := draw g; (out.push (value x), g)) (out, g)).1.size =
      out.size + l.length := by
  induction l generalizing out g with
  | nil => rfl
  | cons b l ih =>
    rw [List.foldl_cons]
    dsimp only
    rw [ih, Array.size_push, List.length_cons, Nat.add_assoc, Nat.add_comm 1]

theorem Randomness.size_bytes (g : Generator) (n : Nat) : (bytes g n).1.size = n := by
  have hsize := size_foldl_push byte id (List.range n) (Array.mkEmpty n) g
  rw [List.length_range] at hsize
  exact hsize.trans (Nat.zero_add n)

theorem Randomness.size_bits (g : Generator) (n : Nat) : (bits g n).1.size = n := by
  have hsize := size_foldl_push (fun g : Generator => between g 0 2) Nat.toUInt8 (List.range n)
    (Array.mkEmpty n) g
  rw [List.length_range] at hsize
  exact hsize.trans (Nat.zero_add n)

omit [Randomness] in
/-- Noise changes the elements of a grid, not its extent: the rows of a port are
written one after the other, and writing a row keeps the extent. -/
theorem Channel.observe_sameExtent {σ : Type} (grid : ResourceGrid)
    (element : Nat → Nat → Nat → Complex) (noise : σ → Complex × σ) (g : σ) :
    (observe grid element noise g).1.SameExtent grid := by
  unfold observe
  refine List.foldlRecOn (motive := fun (state : ResourceGrid × σ) => state.1.SameExtent grid)
    _ _ ⟨rfl, rfl, rfl⟩ fun state hstate port _ => ?_
  refine List.foldlRecOn (motive := fun (state : ResourceGrid × σ) => state.1.SameExtent grid)
    _ _ hstate fun state hstate symbol _ => ?_
  exact ⟨hstate.ports_eq, hstate.symbols_eq, hstate.blocks_eq⟩

theorem Channel.propagate_sameExtent (channel : Channel) (sent : ResourceGrid) (ports : Nat) :
    (channel.propagate sent ports).1.SameExtent
      (ResourceGrid.zeros ports sent.symbols sent.blocks) := by
  unfold propagate
  exact observe_sameExtent _ _ _ _

/-- What is drawn from the generators of a device and its channel has the right
extent, however the generators work. -/
theorem Source.fits_drawn : drawn.Fits where
  size_bytes := Randomness.size_bytes
  size_bits := Randomness.size_bits
  ports_eq channel sent n := (channel.propagate_sameExtent sent n).ports_eq
  symbols_eq channel sent n := (channel.propagate_sameExtent sent n).symbols_eq
  blocks_eq channel sent n := (channel.propagate_sameExtent sent n).blocks_eq

end Simulation

end Uplink
