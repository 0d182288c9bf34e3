import Uplink.Single

/-!
# Iteration statistics

Count, extremes and mean of the iterations that the codeblocks of a transport block took.
-/

namespace Uplink

/-- Statistics of iteration counts. -/
structure IterationStatistics where
  count : Nat
  total : Nat
  least? : Option Nat
  greatest? : Option Nat
deriving DecidableEq, Repr

namespace IterationStatistics

/-- No codeblock was decoded. -/
def none : IterationStatistics := ⟨0, 0, Option.none, Option.none⟩

/-- Take in the iterations of one more codeblock. -/
def record (s : IterationStatistics) (iterations : Nat) : Checked IterationStatistics := do
  return { count := ← Size.add s.count 1
           total := ← Size.add s.total iterations
           least? := some (s.least?.elim iterations (min iterations))
           greatest? := some (s.greatest?.elim iterations (max iterations)) }

/-- The mean number of iterations. -/
def mean? (s : IterationStatistics) : Option Float32 :=
  if s.count = 0 then Option.none else some (Single.ofNat s.total / Single.ofNat s.count)

end IterationStatistics

end Uplink
