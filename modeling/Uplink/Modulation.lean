/-!
# Modulation schemes

The four schemes of the shared channel; a scheme carries `order` bits in each symbol.
-/

namespace Uplink

/-- A modulation scheme. -/
inductive Modulation where
  | qpsk
  | qam16
  | qam64
  | qam256
deriving DecidableEq, Repr

namespace Modulation

/-- All schemes, the lowest order first. -/
def all : List Modulation := [qpsk, qam16, qam64, qam256]

/-- Bits in each symbol. -/
def order : Modulation → Nat
  | qpsk => 2
  | qam16 => 4
  | qam64 => 6
  | qam256 => 8

/-- The scheme of an order. -/
def ofOrder? (n : Nat) : Option Modulation := all.find? (·.order == n)

/-- The bits of a symbol that select one of its two coordinates. -/
def bitsPerAxis (m : Modulation) : Nat := m.order / 2

theorem order_pos (m : Modulation) : 0 < m.order := by cases m <;> decide

@[simp] theorem ofOrder?_order (m : Modulation) : ofOrder? m.order = some m := by
  cases m <;> rfl

end Modulation

end Uplink
