import Uplink.Placement
import Uplink.Bits
import Uplink.SoftBit

/-!
# Multiplexing

The codeword of a transmission holds the coded bits of its fields, element by element as they are
placed. The receiver takes it apart in blocks of whole elements.

- `multiplex`: the codeword of the coded fields.
- `Demultiplexer.route`: the pieces of a block and the streams they belong to; data that was
  replaced by an acknowledgement is delivered as erased.
- `Demultiplexer.finish`: the end of the codeword.
-/

namespace Uplink

/-! ## Sending side -/

/-- The coded bits of the fields of a transmission. -/
structure FieldBits where
  sch : Bits
  harqAck : Bits
  csiPart1 : Bits

/-- The positions up to which each field is sent. -/
structure FieldPositions where
  sch : Nat
  harqAck : Nat
  csiPart1 : Nat

namespace FieldBits

/-- The bits of the element that starts at position `p` of a field, if the field is longer. -/
def elementAt (bits : Bits) (group p : Nat) : Option Bits :=
  if p < bits.size then some (bits.extract p (p + group)) else none

/-- The bits of an element with the given use, and the positions after it. Without any data bits,
data elements carry zeros. -/
def elementFor (fields : FieldBits) (group : Nat) (use : ElementUse) (at_ : FieldPositions) :
    Option Bits × FieldPositions :=
  match use with
  | .sch =>
    if fields.sch.isEmpty then (some (Array.replicate group 0), at_)
    else (elementAt fields.sch group at_.sch, { at_ with sch := at_.sch + group })
  | .harqAck =>
    (elementAt fields.harqAck group at_.harqAck, { at_ with harqAck := at_.harqAck + group })
  | .csiPart1 =>
    (elementAt fields.csiPart1 group at_.csiPart1, { at_ with csiPart1 := at_.csiPart1 + group })
  | .punctured =>
    (elementAt fields.harqAck group at_.harqAck,
      { at_ with sch := at_.sch + group, harqAck := at_.harqAck + group })

end FieldBits

/-- The codeword of a transmission. -/
def multiplex (fields : FieldBits) (q : PlacementRequest) : Checked Bits := do
  let placement ← Placement.ofRequest q
  let group ← q.bitsPerElement
  let _ ← Size.cells 1 [placement.size * group]
  require (group != 0) "chunk size must be non-zero"
  let _ ← Size.cells 1 [group]
  let (codeword, _) ← placement.foldlM
    (fun (codeword, at_) use => do
      match fields.elementFor group use at_ with
      | (some bits, at_) => return (codeword ++ bits, at_)
      | (none, _) => throw (.requirement s!"Not enough {use.name} bits to fill the codeword"))
    ((#[] : Bits), (⟨0, 0, 0⟩ : FieldPositions))
  return codeword

/-! ## Receiving side -/

/-- A stream of soft bits taken out of a codeword. -/
inductive FieldStream where
  | sch
  | harqAck
  | csiPart1
deriving DecidableEq, Repr

/-- A piece of a stream. -/
structure Delivery where
  stream : FieldStream
  softBits : Array SoftBit
deriving DecidableEq

/-- The state of taking a codeword apart. -/
structure Demultiplexer where
  placement : Array ElementUse
  /-- Soft bits of an element on all layers. -/
  group : Nat
  /-- Elements that have been taken apart. -/
  done : Nat

namespace Demultiplexer

/-- Begin a codeword. -/
def start (q : PlacementRequest) : Checked Demultiplexer := do
  let placement ← Placement.ofRequest q
  let group ← q.bitsPerElement
  let _ ← Size.cells 1 [group]
  return ⟨placement, group, 0⟩

/-- Runs of equal elements: each value with the number of its adjacent occurrences. -/
def runs : List ElementUse → List (ElementUse × Nat)
  | [] => []
  | use :: rest =>
    match runs rest with
    | (use', n) :: more =>
      if use = use' then (use, n + 1) :: more else (use, 1) :: (use', n) :: more
    | [] => [(use, 1)]

/-- The deliveries of a run of `n` elements with the same use. -/
def deliver (group : Nat) (use : ElementUse) (n : Nat) (softBits : Array SoftBit) : List Delivery :=
  match use with
  | .sch => [⟨.sch, softBits⟩]
  | .harqAck => [⟨.harqAck, softBits⟩]
  | .csiPart1 => [⟨.csiPart1, softBits⟩]
  | .punctured =>
    ⟨.harqAck, softBits⟩ :: List.replicate n ⟨.sch, Array.replicate group SoftBit.erased⟩

/-- The deliveries of consecutive runs, whose soft bits start at `offset` of the block. -/
def deliverRuns (group : Nat) (block : Array SoftBit) :
    (offset : Nat) → List (ElementUse × Nat) → List Delivery
  | _, [] => []
  | offset, (use, n) :: rest =>
    deliver group use n (block.extract offset (offset + n * group))
      ++ deliverRuns group block (offset + n * group) rest

/-- Take a block of whole elements apart. -/
def route (d : Demultiplexer) (block : Array SoftBit) :
    Checked (List Delivery × Demultiplexer) := do
  require ((← Size.mod block.size d.group) == 0)
    s!"Block of {block.size} soft bits is not made of whole resource elements"
  let elements := block.size / d.group
  require (d.done + elements ≤ d.placement.size)
    s!"Codeword exceeds the {d.placement.size} data resource elements"
  let uses := (d.placement.extract d.done (d.done + elements)).toList
  return (deliverRuns d.group block 0 (runs uses), { d with done := d.done + elements })

/-- End the codeword: all its elements must have been taken apart. -/
def finish (d : Demultiplexer) : Checked Unit :=
  require (d.done == d.placement.size)
    s!"Codeword ended after {d.done} of {d.placement.size} resource elements"

end Demultiplexer

end Uplink
