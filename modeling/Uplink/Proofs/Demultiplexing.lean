import Uplink.Proofs.Multiplexing
import Uplink.Proofs.TransportBlock.Session

/-!
# Collecting the fields of a codeword

Blocks of whole elements are taken apart one after the other, and the fields collect what their
streams get.

- `FieldSinks.Gathered`: the fields of a transmission while their soft bits arrive.
- `FieldSinks.Consumed.exists_consume`: one block; the fields stay as they are but for their soft
  bits.
-/

namespace Uplink

namespace Demultiplexer

/-- Soft bits that are delivered to a stream. -/
def delivered (stream : FieldStream) (deliveries : List Delivery) : Nat :=
  (deliveries.map fun d => if d.stream = stream then d.softBits.size else 0).sum

theorem delivered_append (stream : FieldStream) (first second : List Delivery) :
    delivered stream (first ++ second) = delivered stream first + delivered stream second := by
  rw [delivered, List.map_append, List.sum_append, delivered, delivered]

theorem delivered_eq (stream : FieldStream) (deliveries : List Delivery) :
    delivered stream deliveries = (received stream deliveries).length := by
  rw [received, List.length_flatMap, delivered]
  congr 1
  refine List.map_congr_left fun d _ => ?_
  split
  · exact Array.length_toList.symm
  · rfl

end Demultiplexer

/-! ## Fields -/

/-- The reception with other soft bits. -/
def Reception.holding (r : Reception) (softBits : Array SoftBit) : Reception :=
  { r with decoder := { r.decoder with softBits } }

namespace FieldSinks

open Demultiplexer

variable {start sinks : FieldSinks} {n : Nat}

/-- The fields that a transmission started with, once the transport block holds
`n` soft bits. -/
structure Gathered (start sinks : FieldSinks) (n : Nat) : Prop where
  sch : ∃ softBits : Array SoftBit, softBits.size = n ∧
    sinks.sch = start.sch.map (·.holding softBits)
  harqAck : ∃ softBits, sinks.harqAck = start.harqAck.map fun c => { c with softBits }
  csiPart1 : ∃ softBits, sinks.csiPart1 = start.csiPart1.map fun c => { c with softBits }

/-- The start: no reception holds soft bits yet, and all that follows only adds
some. -/
theorem gathered_start (h : ∀ r ∈ start.sch, r.decoder.softBits = #[])
    (hack : ∀ c ∈ start.harqAck, c.softBits = #[])
    (hcsi1 : ∀ c ∈ start.csiPart1, c.softBits = #[]) : Gathered start start 0 where
  sch := by
    refine ⟨#[], rfl, ?_⟩
    cases hsch : start.sch with
    | none => rfl
    | some r => rw [Option.map_some, Reception.holding, ← h r hsch]
  harqAck := by
    refine ⟨#[], ?_⟩
    cases hfield : start.harqAck with
    | none => rfl
    | some c => rw [Option.map_some, ← hack c hfield]
  csiPart1 := by
    refine ⟨#[], ?_⟩
    cases hfield : start.csiPart1 with
    | none => rfl
    | some c => rw [Option.map_some, ← hcsi1 c hfield]

/-- One delivery; the reception takes it as long as the codeword is not too
long. Control fields take any number of soft bits. -/
theorem Gathered.exists_deliver (h : Gathered start sinks n) (d : Delivery)
    (hopen : ∀ r ∈ start.sch, r.finished = false)
    (hlength : n + delivered .sch [d] ≤ maxCodewordLength) :
    ∃ sinks', sinks.deliver d = .ok sinks' ∧ Gathered start sinks' (n + delivered .sch [d]) := by
  obtain ⟨⟨softBits, rfl, hsch⟩, ⟨ack, hack⟩, ⟨csi1, hcsi1⟩⟩ := h
  obtain ⟨stream, piece⟩ := d
  cases stream with
  | harqAck =>
    refine ⟨_, rfl, ⟨softBits, rfl, hsch⟩, ⟨ack ++ piece, ?_⟩, ⟨csi1, hcsi1⟩⟩
    rw [hack, Option.map_map]
    rfl
  | csiPart1 =>
    refine ⟨_, rfl, ⟨softBits, rfl, hsch⟩, ⟨ack, hack⟩, ⟨csi1 ++ piece, ?_⟩⟩
    rw [hcsi1, Option.map_map]
    rfl
  -- only the reception of a transport block can refuse, when it is full or finished
  | sch =>
    have hsize : (softBits ++ piece).size = softBits.size + delivered .sch [⟨.sch, piece⟩] :=
      Array.size_append
    rw [deliver]
    dsimp only
    rw [hsch]
    cases hstart : start.sch with
    | none =>
      refine ⟨_, rfl, ⟨softBits ++ piece, hsize, ?_⟩, ⟨ack, hack⟩, ⟨csi1, hcsi1⟩⟩
      rw [hstart]
      rfl
    | some r =>
      have hpush : (r.holding softBits).push piece = .ok (r.holding (softBits ++ piece)) :=
        Session.push_eq_ok.mpr ⟨hopen r hstart, hlength, rfl⟩
      rw [Option.map_some, Option.mapM_some, hpush]
      refine ⟨_, rfl, ⟨softBits ++ piece, hsize, ?_⟩, ⟨ack, hack⟩, ⟨csi1, hcsi1⟩⟩
      rw [hstart]
      rfl

/-- All deliveries of a block, one after the other, up to the length that a
reception takes. -/
theorem Gathered.exists_deliverAll (hopen : ∀ r ∈ start.sch, r.finished = false) :
    ∀ {deliveries : List Delivery} {sinks : FieldSinks} {n : Nat}, Gathered start sinks n →
      n + delivered .sch deliveries ≤ maxCodewordLength →
      ∃ sinks', deliveries.foldlM deliver sinks = .ok sinks' ∧
        Gathered start sinks' (n + delivered .sch deliveries)
  | [], sinks, n, h, _ => ⟨sinks, rfl, h⟩
  | d :: deliveries, sinks, n, h, hlength => by
    have hsplit : delivered .sch (d :: deliveries) =
        delivered .sch [d] + delivered .sch deliveries := delivered_append .sch [d] deliveries
    rw [hsplit, ← Nat.add_assoc] at hlength ⊢
    obtain ⟨sinks₁, hdeliver, h₁⟩ := h.exists_deliver d hopen (by omega)
    obtain ⟨sinks', hrest, h'⟩ := exists_deliverAll hopen h₁ hlength
    exact ⟨sinks', by rw [List.foldlM_cons, hdeliver, ok_bind, hrest], h'⟩

/-- A codeword that is taken apart, after `n` elements. -/
structure Consumed (d : Demultiplexer) (start : FieldSinks) (n : Nat)
    (state : Demultiplexer × FieldSinks) : Prop where
  demultiplexer : state.1 = { d with done := n }
  sinks : Gathered start state.2 ((d.placement.toList.take n).countP (·.feeds .sch) * d.group)

/-- A block within the codeword is taken apart and collected. The soft bits of
the transport block are counted by the elements that feed it. -/
theorem Consumed.exists_consume {d : Demultiplexer} {state : Demultiplexer × FieldSinks}
    {block : Array SoftBit} {elements : Nat} (h : Consumed d start n state)
    (hopen : ∀ r ∈ start.sch, r.finished = false) (hgroup : 0 < d.group)
    (hblock : block.size = elements * d.group) (hdone : n + elements ≤ d.placement.size)
    (hlength : d.placement.size * d.group ≤ maxCodewordLength) :
    ∃ state', consume state block = .ok state' ∧ Consumed d start (n + elements) state' := by
  obtain ⟨_, sinks⟩ := state
  obtain ⟨rfl, hsinks⟩ := h
  obtain ⟨deliveries, hroute, hreceived⟩ :=
    exists_route (d := { d with done := n }) hgroup hblock hdone
  have hdelivered : delivered .sch deliveries =
      ((d.placement.toList.drop n).take elements).countP (·.feeds .sch) * d.group := by
    rw [delivered_eq, hreceived, List.length_map, length_sources]
  have hsum : (d.placement.toList.take n).countP (·.feeds .sch) * d.group +
      delivered .sch deliveries =
        (d.placement.toList.take (n + elements)).countP (·.feeds .sch) * d.group := by
    rw [hdelivered, ← Nat.add_mul, ← List.countP_append, ← List.take_add]
  -- no field has more elements than the codeword
  have hle : (d.placement.toList.take (n + elements)).countP (·.feeds .sch) ≤ d.placement.size :=
    calc (d.placement.toList.take (n + elements)).countP (·.feeds .sch)
        ≤ (d.placement.toList.take (n + elements)).length := List.countP_le_length
      _ ≤ d.placement.toList.length := by
        rw [List.length_take]
        exact Nat.min_le_right _ _
      _ = d.placement.size := Array.length_toList
  obtain ⟨sinks', hall, hsinks'⟩ := Gathered.exists_deliverAll hopen hsinks
    (by rw [hsum]; exact Nat.le_trans (Nat.mul_le_mul_right _ hle) hlength)
  rw [hsum] at hsinks'
  refine ⟨({ d with done := n + elements }, sinks'), ?_, rfl, hsinks'⟩
  rw [consume]
  dsimp only
  rw [hroute, ok_bind]
  dsimp only
  rw [hall]
  rfl

end FieldSinks

end Uplink
