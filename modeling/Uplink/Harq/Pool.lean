import Uplink.Harq.Buffer
import Uplink.Numerology
import Uplink.Text.Hexadecimal

/-!
# Pools of combining buffers

A bounded number of combining buffers, each reserved for one process of one device. A reservation
that is not renewed ends after a number of slots.

- `HarqPool.request`, `HarqPool.reserve`: the buffer of a process, kept, renewed or new; refused when
  the pool is full.
- `HarqPool.update`, `HarqPool.release`: write a buffer back, and give it up.
- `HarqPool.expire`: give up all reservations that have ended by a slot.
-/

namespace Uplink

/-- A process of a device. -/
structure HarqId where
  rnti : Rnti
  process : UInt8
deriving DecidableEq, Repr

/-- Limits of a pool. -/
structure HarqPoolSettings where
  /-- Largest number of reservations. -/
  capacity : Nat
  /-- Slots that a reservation lasts. -/
  lifetime : UInt32
deriving DecidableEq, Repr

namespace HarqPoolSettings

/-- The usual limits. -/
def standard : HarqPoolSettings := ⟨64, 100⟩

end HarqPoolSettings

/-- A reserved buffer. -/
structure Reservation where
  id : HarqId
  buffer : HarqBuffer
  /-- The slot count at which the reservation ends. -/
  ends : UInt32

/-- A pool of combining buffers. -/
structure HarqPool where
  settings : HarqPoolSettings
  reservations : List Reservation

/-- No buffer is free. -/
structure PoolExhausted where
  id : HarqId
deriving DecidableEq, Repr

namespace PoolExhausted

/-- The text of the refusal. -/
def message (e : PoolExhausted) : String :=
  "Resource unavailable: no softbuffer available for "
    ++ s!"RNTI 0x{Text.hexadecimal 4 e.id.rnti.toNat} HARQ {e.id.process.toNat}"

end PoolExhausted

namespace HarqPool

/-- A pool without reservations. -/
def empty (settings : HarqPoolSettings) : HarqPool := ⟨settings, []⟩

/-- Number of reservations. -/
def count (pool : HarqPool) : Nat := pool.reservations.length

/-- The reservation of a process. -/
def find? (pool : HarqPool) (id : HarqId) : Option Reservation :=
  pool.reservations.find? (·.id = id)

/-- The pool without the reservation of a process. -/
def release (pool : HarqPool) (id : HarqId) : HarqPool :=
  { pool with reservations := pool.reservations.filter (·.id ≠ id) }

/-- The pool with a reservation in the place of an earlier one of the same process. -/
def put (pool : HarqPool) (r : Reservation) : HarqPool :=
  { pool with reservations := r :: (pool.release r.id).reservations }

/-- The pool with the buffer of a process replaced. -/
def update (pool : HarqPool) (id : HarqId) (buffer : HarqBuffer) : HarqPool :=
  { pool with
    reservations := pool.reservations.map fun r => if r.id = id then { r with buffer } else r }

/-- The buffer that a reservation for `n` codeblocks hands out: a kept one only for a
retransmission of as many codeblocks. -/
def bufferFor (kept : Option HarqBuffer) (n : Nat) (newData : Bool) : HarqBuffer :=
  match kept with
  | some buffer => if newData || buffer.count != n then HarqBuffer.ofCount n else buffer
  | none => HarqBuffer.ofCount n

/-- Ask for the buffer of a process from `slot` on: the answer, and the pool that is left. -/
def request (pool : HarqPool) (slot : SlotPoint) (id : HarqId) (n : Nat) (newData : Bool) :
    Except PoolExhausted HarqBuffer × HarqPool :=
  let kept := pool.find? id
  if kept.isNone ∧ pool.settings.capacity ≤ pool.count then (.error ⟨id⟩, pool)
  else
    let buffer := bufferFor (kept.map (·.buffer)) n newData
    (.ok buffer, pool.put ⟨id, buffer, slot.count + pool.settings.lifetime⟩)

/-- Reserve the buffer of a process from `slot` on: the buffer and the pool that is left, if the
request is granted. -/
def reserve (pool : HarqPool) (slot : SlotPoint) (id : HarqId) (n : Nat) (newData : Bool) :
    Except PoolExhausted (HarqBuffer × HarqPool) :=
  let (answer, left) := pool.request slot id n newData
  answer.map (·, left)

/-- Slot counts wrap; a count is reached when the way back to it is the shorter one. -/
def reached (now target : UInt32) : Bool := (now - target).toInt32 ≥ 0

/-- Give up all reservations that have ended by `slot`. -/
def expire (pool : HarqPool) (slot : SlotPoint) : HarqPool :=
  { pool with reservations := pool.reservations.filter fun r => !reached slot.count r.ends }

end HarqPool

end Uplink
