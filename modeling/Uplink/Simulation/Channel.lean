import Uplink.ResourceGrid
import Uplink.Simulation.Randomness

/-!
# Noisy channels

What the ports of a receiver observe of the elements that are sent, with noise drawn for each
element in order of port, symbol and subcarrier.

- `Channel.observe`: any noiseless observation with any noise.
- `Channel.ofSnr`, `Channel.propagate`: white noise of a given strength, on ports that each observe
  one layer.
-/

namespace Uplink

namespace Simulation

namespace Channel

section Observation

-- the state from which the noise is drawn
variable {σ : Type}

/-- The noisy elements of a port and symbol. -/
def observeRow (subcarriers : Nat) (element : Nat → Complex) (noise : σ → Complex × σ) (d : σ) :
    Array Complex × σ :=
  (List.range subcarriers).foldl
    (fun (row, d) k =>
      let (x, d) := noise d
      (row.push (element k + x), d))
    (Array.mkEmpty subcarriers, d)

/-- The grid with every element replaced by what is observed, with noise. -/
def observe (grid : ResourceGrid) (element : (port symbol subcarrier : Nat) → Complex)
    (noise : σ → Complex × σ) (d : σ) : ResourceGrid × σ :=
  (List.range grid.ports).foldl
    (fun state port => (List.range grid.symbols).foldl
      (fun (grid, d) symbol =>
        let (row, d) := observeRow grid.subcarriers (element port symbol) noise d
        (grid.overwrite port symbol 0 row, d))
      state)
    (grid, d)

end Observation

end Channel

variable [Randomness]

/-- A channel with white noise. -/
structure Channel where
  generator : Randomness.Generator
  /-- The distribution of each part of the noise. -/
  noise : Randomness.Normal

namespace Channel

/-- The channel with a signal to noise ratio in decibels, for symbols of power one; none if the
noise has no finite strength. -/
def ofSnr (snrDb : Float32) (seed : UInt64) : Option Channel :=
  let variance := Float32.pow 10 (-snrDb / 10)
  (Randomness.normal? 0 (variance / 2).sqrt).map fun noise => ⟨Randomness.ofSeed seed, noise⟩

/-- Draw the noise of an element. -/
def drawNoise (noise : Randomness.Normal) (g : Randomness.Generator) :
    Complex × Randomness.Generator :=
  let (re, g) := Randomness.sample noise g
  let (im, g) := Randomness.sample noise g
  (⟨re, im⟩, g)

/-- What `ports` ports observe of a sent grid: each port one of its ports in turn. -/
def propagate (channel : Channel) (sent : ResourceGrid) (ports : Nat) : ResourceGrid × Channel :=
  let (grid, generator) := observe (ResourceGrid.zeros ports sent.symbols sent.blocks)
    (fun port symbol k => sent.elementD (port % sent.ports) symbol k)
    (drawNoise channel.noise) channel.generator
  (grid, { channel with generator })

end Channel

end Simulation

end Uplink
