import Uplink.Fault

/-!
# Symbol masks

A set of symbols of a slot, together with the number of symbols it ranges over.

- `SymbolMask.empty`, `SymbolMask.ofSymbols`: construction, for at most sixteen symbols.
- `SymbolMask.contains`: membership; `ones`, `lowest?`, `highest?`, `count`: the listed views.
-/

namespace Uplink

/-- A set of symbols among the first `size` symbols of a slot. -/
structure SymbolMask where
  /-- Whether each symbol belongs to the set. -/
  flags : Array Bool
  size_le : flags.size ≤ 16
deriving DecidableEq

namespace SymbolMask

/-- The set over no symbol at all. -/
def none : SymbolMask := ⟨#[], by decide⟩

instance : Inhabited SymbolMask := ⟨none⟩

/-- Number of symbols the set ranges over. -/
def size (mask : SymbolMask) : Nat := mask.flags.size

/-- The empty set over `size` symbols. -/
def empty (size : Nat) : Checked SymbolMask :=
  if h : size ≤ 16 then .ok ⟨Array.replicate size false, by simpa using h⟩
  else .error (.requirement s!"Symbol mask size {size} is too large")

/-- The set with one more symbol. -/
def insert (mask : SymbolMask) (symbol : Nat) : Checked SymbolMask := do
  require (symbol < mask.size) s!"Symbol {symbol} out of mask size {mask.size}"
  return ⟨mask.flags.setIfInBounds symbol true, by simpa using mask.size_le⟩

/-- The set of the listed symbols among `size` symbols. -/
def ofSymbols (size : Nat) (symbols : List Nat) : Checked SymbolMask := do
  symbols.foldlM insert (← empty size)

/-- Whether a symbol belongs to the set. -/
def contains (mask : SymbolMask) (symbol : Nat) : Bool := mask.flags.getD symbol false

/-- The symbols of the set in increasing order. -/
def ones (mask : SymbolMask) : List Nat := (List.range mask.size).filter mask.contains

/-- No symbol belongs to the set. -/
def isEmpty (mask : SymbolMask) : Bool := mask.ones.isEmpty

/-- Number of symbols in the set. -/
def count (mask : SymbolMask) : Nat := mask.ones.length

/-- The first symbol of the set. -/
def lowest? (mask : SymbolMask) : Option Nat := mask.ones.head?

/-- The last symbol of the set. -/
def highest? (mask : SymbolMask) : Option Nat := mask.ones.getLast?

theorem mem_ones {mask : SymbolMask} {symbol : Nat} :
    symbol ∈ mask.ones ↔ mask.contains symbol = true := by
  simp only [ones, List.mem_filter, List.mem_range, and_iff_right_iff_imp]
  intro h
  by_cases hs : symbol < mask.size
  · exact hs
  · simp [contains, Array.getD, show ¬ symbol < mask.flags.size from hs] at h

end SymbolMask

end Uplink
