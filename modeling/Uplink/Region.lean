import Uplink.Dmrs
import Uplink.Numerology
import Uplink.SymbolMask

/-!
# Regions

The resource elements of one transmission: its symbols, and in each of them the subcarriers that can
hold data. On a symbol with reference signals whole groups of subcarriers are kept free of data.
-/

namespace Uplink

/-- The resource elements of a transmission, relative to its allocation. -/
structure Region where
  /-- Number of allocated blocks. -/
  blocks : Nat
  firstSymbol : Nat
  symbolCount : Nat
  dmrsType : DmrsType
  /-- The symbols with reference signals. -/
  dmrsMask : SymbolMask
  /-- Groups of subcarriers without data on these symbols. -/
  freeGroups : Nat
deriving DecidableEq

namespace Region

/-- The symbols in increasing order. -/
def symbols (r : Region) : List Nat := List.range' r.firstSymbol r.symbolCount

/-- The symbols end within the machine sizes. -/
def checkSymbols (r : Region) : Checked Unit := do
  let _ ← Size.add r.firstSymbol r.symbolCount

/-- What `f` gives for `count` symbols from `first` on. -/
def collect {α : Type} (f : Nat → Checked α) : (first count : Nat) → Checked (List α)
  | _, 0 => .ok []
  | first, count + 1 => do
    let x ← f first
    return x :: (← collect f (first + 1) count)

/-- What `f` gives for every symbol, up to the first fault. -/
def mapSymbols {α : Type} (r : Region) (f : Nat → Checked α) : Checked (List α) := do
  r.checkSymbols
  collect f r.firstSymbol r.symbolCount

/-- The sum of `f` over `count` symbols from `first` on, added to `total`. -/
def accumulate (f : Nat → Checked Nat) : (first count total : Nat) → Checked Nat
  | _, 0, total => .ok total
  | first, count + 1, total => do
    accumulate f (first + 1) count (← Size.add total (← f first))

/-- The sum of `f` over the symbols, up to the first fault. -/
def sumSymbols (r : Region) (f : Nat → Checked Nat) : Checked Nat := do
  r.checkSymbols
  accumulate f r.firstSymbol r.symbolCount 0

/-- The symbol has no reference signals, so that it may hold control information. -/
def isPlain (r : Region) (symbol : Nat) : Bool := !r.dmrsMask.contains symbol

/-- The symbols with reference signals, in increasing order. -/
def dmrsSymbols (r : Region) : List Nat :=
  r.dmrsMask.ones.filter fun l =>
    decide (r.firstSymbol ≤ l ∧ l < r.firstSymbol + r.symbolCount)

/-- The first symbol with reference signals; the start without any. -/
def firstDmrs (r : Region) : Nat := r.dmrsMask.lowest?.getD r.firstSymbol

/-- Acknowledgements may start on this symbol: a plain one after the first reference signals. -/
def startsAck (r : Region) (symbol : Nat) : Bool :=
  decide (r.firstDmrs < symbol) && r.isPlain symbol

theorem collect_eq_mapM {α : Type} (f : Nat → Checked α) (first count : Nat) :
    collect f first count = (List.range' first count).mapM f := by
  induction count generalizing first with
  | zero => rfl
  | succ count ih => simp [collect, List.range'_succ, ih]

theorem accumulate_eq_foldlM (f : Nat → Checked Nat) (first count total : Nat) :
    accumulate f first count total
      = (List.range' first count).foldlM (fun total l => do Size.add total (← f l)) total := by
  induction count generalizing first total with
  | zero => rfl
  | succ count ih => simp [accumulate, List.range'_succ, ih]

theorem mapSymbols_eq {α : Type} (r : Region) (f : Nat → Checked α) :
    r.mapSymbols f = (do r.checkSymbols; r.symbols.mapM f) := by
  simp [mapSymbols, symbols, collect_eq_mapM]

theorem sumSymbols_eq (r : Region) (f : Nat → Checked Nat) :
    r.sumSymbols f
      = (do r.checkSymbols; r.symbols.foldlM (fun total l => do Size.add total (← f l)) 0) := by
  simp [sumSymbols, symbols, accumulate_eq_foldlM]

end Region

end Uplink
