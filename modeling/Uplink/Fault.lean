/-!
# Faults

An operation of this library either answers or names the fault that stopped it.

- `Fault`: the three ways in which an operation has no answer. A *requirement* of the operation was
  not met, a machine size left its range, or an element outside a buffer was asked for.
- `Checked`: a computation that may end in a fault; the first fault is the outcome of the whole.
- `require`: state a requirement together with its wording.
- `Size`: the arithmetic of 64-bit machine sizes on `Nat`, each operation checked; `Size.cells` says
  which tables a buffer can hold.
- `Buffer`: element and span access to arrays, each access checked; `Buffer.position` reads an index
  that may count back from the end.
-/

namespace Uplink

/-- Why an operation has no answer. -/
inductive Fault where
  /-- A requirement of the operation does not hold; the text says which. -/
  | requirement (text : String)
  /-- A machine integer left its range, or a divisor was zero. -/
  | arithmetic
  /-- An index or a span lies outside its buffer. -/
  | bounds
deriving DecidableEq, Repr

/-- A computation that may end in a fault. -/
abbrev Checked := Except Fault

/-- Go on only if the requirement holds. -/
def require (holds : Bool) (text : String) : Checked Unit :=
  if holds then .ok () else .error (.requirement text)

@[simp] theorem require_true (text : String) : require true text = .ok () := rfl

@[simp] theorem require_false (text : String) :
    require false text = .error (.requirement text) := rfl

/-! ## Machine sizes -/

namespace Size

/-- Sizes and counts are below this bound. -/
def limit : Nat := UInt64.size

/-- Signed sizes are below this bound. -/
def signedLimit : Nat := 9223372036854775808

/-- The value itself, if it is a machine size. -/
def ofNat (n : Nat) : Checked Nat :=
  if n < limit then .ok n else .error .arithmetic

/-- The sum, if it is a machine size. -/
def add (a b : Nat) : Checked Nat := ofNat (a + b)

/-- The product, if it is a machine size. -/
def mul (a b : Nat) : Checked Nat := ofNat (a * b)

/-- The difference, if it is not negative. -/
def sub (a b : Nat) : Checked Nat :=
  if b ≤ a then .ok (a - b) else .error .arithmetic

/-- The quotient, if the divisor is not zero. -/
def div (a b : Nat) : Checked Nat :=
  if b = 0 then .error .arithmetic else .ok (a / b)

/-- The remainder, if the divisor is not zero. -/
def mod (a b : Nat) : Checked Nat :=
  if b = 0 then .error .arithmetic else .ok (a % b)

/-- The number of cells of a table with the given axes, if a buffer can hold them at `bytes` bytes a
cell. The axes that are not empty must multiply to a signed size even when there is no cell. -/
def cells (bytes : Nat) (axes : List Nat) : Checked Nat :=
  let extent := axes.foldl (fun n axis => n * max axis 1) 1
  let count := axes.foldl (fun n axis => n * axis) 1
  if extent < signedLimit ∧ bytes * count < signedLimit then .ok count else .error .arithmetic

theorem add_of_lt {a b : Nat} (h : a + b < limit) : add a b = .ok (a + b) := by
  simp [add, ofNat, h]

theorem mul_of_lt {a b : Nat} (h : a * b < limit) : mul a b = .ok (a * b) := by
  simp [mul, ofNat, h]

theorem sub_of_le {a b : Nat} (h : b ≤ a) : sub a b = .ok (a - b) := by
  simp [sub, h]

theorem div_of_pos {a b : Nat} (h : 0 < b) : div a b = .ok (a / b) := by
  simp [div, Nat.ne_of_gt h]

theorem mod_of_pos {a b : Nat} (h : 0 < b) : mod a b = .ok (a % b) := by
  simp [mod, Nat.ne_of_gt h]

end Size

/-! ## Buffers -/

namespace Buffer

universe u

variable {α : Type u}

/-- The element at `i`. -/
def read (buffer : Array α) (i : Nat) : Checked α :=
  match buffer[i]? with
  | some x => .ok x
  | none => .error .bounds

/-- The buffer with the element at `i` replaced. -/
def write (buffer : Array α) (i : Nat) (x : α) : Checked (Array α) :=
  if i < buffer.size then .ok (buffer.setIfInBounds i x) else .error .bounds

/-- The place among `size` elements that a signed index names. A machine size from half the range on
stands for a negative index, and negative ones count back from the end. -/
def position (size i : Nat) : Checked Nat :=
  if i < Size.signedLimit then (if i < size then .ok i else .error .bounds)
  else do Size.sub size (Size.limit - i)

/-- The elements from `start` up to, not including, `stop`. -/
def span (buffer : Array α) (start stop : Nat) : Checked (Array α) :=
  if start ≤ stop ∧ stop ≤ buffer.size then .ok (buffer.extract start stop) else .error .bounds

/-- The buffer with the elements from `start` on replaced by `values`, as many as there are. -/
def overwrite (buffer : Array α) (start : Nat) (values : Array α) : Array α :=
  (List.range values.size).foldl
    (fun b i => match values[i]? with
      | some x => b.setIfInBounds (start + i) x
      | none => b)
    buffer

theorem read_of_lt {buffer : Array α} {i : Nat} (h : i < buffer.size) :
    read buffer i = .ok buffer[i] := by
  simp [read, h]

theorem write_of_lt {buffer : Array α} {i : Nat} {x : α} (h : i < buffer.size) :
    write buffer i x = .ok (buffer.setIfInBounds i x) := by
  simp [write, h]

theorem position_of_lt {size i : Nat} (h : i < size) (h' : i < Size.signedLimit) :
    position size i = .ok i := by
  simp [position, h, h']

theorem span_of_le {buffer : Array α} {start stop : Nat} (h : start ≤ stop)
    (h' : stop ≤ buffer.size) : span buffer start stop = .ok (buffer.extract start stop) := by
  simp [span, h, h']

@[simp] theorem size_overwrite (buffer : Array α) (start : Nat) (values : Array α) :
    (overwrite buffer start values).size = buffer.size := by
  unfold overwrite
  generalize List.range values.size = is
  induction is generalizing buffer with
  | nil => rfl
  | cons i is ih =>
    simp only [List.foldl_cons, ih]
    split <;> simp

end Buffer

end Uplink
