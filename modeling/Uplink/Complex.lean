import Uplink.Single

/-!
# Complex samples

Resource elements carry complex numbers with single precision parts. Products, quotients and the
squared magnitude are the textbook formulas, evaluated in the order written here.
-/

namespace Uplink

/-- A complex number with single precision parts. -/
structure Complex where
  re : Float32
  im : Float32
deriving DecidableEq, Inhabited

namespace Complex

/-- Both parts zero. -/
def zero : Complex := ⟨0, 0⟩

/-- The real unit. -/
def one : Complex := ⟨1, 0⟩

def add (a b : Complex) : Complex := ⟨a.re + b.re, a.im + b.im⟩

def sub (a b : Complex) : Complex := ⟨a.re - b.re, a.im - b.im⟩

def mul (a b : Complex) : Complex :=
  ⟨a.re * b.re - a.im * b.im, a.re * b.im + a.im * b.re⟩

/-- Multiply both parts by a real number. -/
def scale (a : Complex) (r : Float32) : Complex := ⟨a.re * r, a.im * r⟩

/-- Divide both parts by a real number. -/
def divReal (a : Complex) (r : Float32) : Complex := ⟨a.re / r, a.im / r⟩

/-- The complex conjugate. -/
def conj (a : Complex) : Complex := ⟨a.re, -a.im⟩

/-- The squared magnitude. -/
def normSqr (a : Complex) : Float32 := a.re * a.re + a.im * a.im

/-- The reciprocal: the conjugate over the squared magnitude. -/
def inv (a : Complex) : Complex := ⟨a.re / a.normSqr, -a.im / a.normSqr⟩

instance : Add Complex := ⟨add⟩
instance : Sub Complex := ⟨sub⟩
instance : Mul Complex := ⟨mul⟩

/-- The sum of the terms from left to right, starting from zero. -/
def sum (terms : Array Complex) : Complex := terms.foldl (· + ·) zero

end Complex

end Uplink
