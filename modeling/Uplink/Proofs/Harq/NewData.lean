import Uplink.Proofs.Harq.History
import Uplink.Proofs.TransportBlock.SideBySide

/-!
# New data

A session with new data does not depend on the past: not on what the combining buffer kept, and not
on what the decoder received before. It does not depend on the pieces of its codeword either.

- `Session.effect`: what a session leaves to its users.
- `Session.effect_eq`: it depends on the pieces through all soft bits only.
- `Session.effect_of_newData`: it is the same from any two pasts.
-/

namespace Uplink

namespace Session

/-- What a session leaves to its users if it completes: its result, the
transport block and the combining buffer. -/
def effect (s : Session) (buffer : HarqBuffer) : Option (SchResult × Bytes × HarqBuffer) :=
  (s.run buffer).toOption.map fun (result, r) => (result, r.block, r.buffer)

variable {s s' : Session} {buffer buffer' : HarqBuffer}

/-- A session completes if its requirements hold and its end does; the buffer
plays a part only in the latter. -/
theorem effect_eq (s : Session) (buffer : HarqBuffer) : s.effect buffer =
    if s.block.size ≠ 0 ∧ s.softBits.size ≤ maxCodewordLength then
      (s.collected buffer).finish.toOption.map fun (result, r) => (result, r.block, r.buffer)
    else none := by
  rw [effect]
  split
  · rename_i h
    congr 1
    cases hrun : s.run buffer with
    | ok outcome => rw [(s.run_eq.mp hrun).2.2]
    | error fault =>
      cases hfinish : (s.collected buffer).finish with
      | ok outcome =>
        rw [s.run_eq.mpr ⟨h.1, h.2, hfinish⟩] at hrun
        cases hrun
      | error fault' => rfl
  · rename_i h
    cases hrun : s.run buffer with
    | ok outcome => exact absurd ⟨(s.run_eq.mp hrun).1, (s.run_eq.mp hrun).2.1⟩ h
    | error fault => rfl

/-- New data give the same result, the same transport block and the same
combining buffer from any two pasts of the decoder and of the buffer, in
whatever pieces the same soft bits come. -/
theorem effect_of_newData (hnew : s.settings.newData = true) (hsettings : s.settings = s'.settings)
    (hblock : s.block = s'.block) (hsoft : s.softBits = s'.softBits)
    (hcount : buffer.count = buffer'.count) : s.effect buffer = s'.effect buffer' := by
  have habreast : (s.collected buffer).Abreast (s'.collected buffer') :=
    { settings_eq := hsettings
      softBits_eq := hsoft
      block_eq := hblock
      finished_eq := rfl
      count_eq := hcount
      buffer_eq := fun hold => by
        rw [collected, hnew] at hold
        cases hold }
  rw [effect_eq, effect_eq, hblock, hsoft]
  congr 1
  refine (Reception.finish_alike habreast).map_toOption ?_
  rintro ⟨result, r⟩ ⟨result', r'⟩ ⟨rfl, hblock, hbuffer⟩
  exact congrArg (Prod.mk result) (Prod.ext hblock hbuffer)

/-- A byte that comes in one piece to a new decoder and a new buffer, and in two
pieces to a decoder that has abandoned a session and a buffer that holds another
message as passed. -/
theorem effect_of_newData_byte :
    let s := byteSession true (Array.replicate 24 SoftBit.erased)
    let s' : Session := ⟨⟨Ldpc.Decoder.fresh, #[SoftBit.certainZero]⟩, s.settings, s.block,
      [Array.replicate 7 SoftBit.erased, Array.replicate 17 SoftBit.erased]⟩
    let used : HarqBuffer := ⟨#[⟨#[SoftBit.certainZero], #[1], true⟩]⟩
    s.settings.newData = true ∧ s.softBits = s'.softBits ∧ used.count = 1 ∧
      (s.effect (HarqBuffer.ofCount 1)).isSome ∧
      s.effect (HarqBuffer.ofCount 1) = s'.effect used := by
  intro s s' used
  have hsoft : s.softBits = s'.softBits := by decide
  refine ⟨rfl, hsoft, rfl, ?_, effect_of_newData rfl rfl rfl hsoft rfl⟩
  obtain ⟨result, r, hrun⟩ := exists_run_byte true
    (Array.size_replicate (n := 24) (v := SoftBit.erased)) (HarqBuffer.count_ofCount 1)
  rw [effect, hrun]
  rfl

end Session

end Uplink
