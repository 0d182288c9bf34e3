import Uplink.Proofs.TransportBlock.RoundTrip

/-!
# Histories of a combining buffer

A transport block may take several sessions on one combining buffer. A history is a run of completed
sessions from a new buffer on, the last session first.

- `Finished`: a completed session with what it found and what it left.
- `History`: all runs of completed sessions on a new buffer of `n` codeblocks.
- `Finished.Kept`, `Finished.Accepts`: a session leaves a codeblock undecoded, or its decoder
  accepts a message; `Session.Outcome.kept` and `accepts_iff`: what it stores then.
- `SameBlock`: all sessions are about one size of transport block.
-/

namespace Uplink

open Ldpc

/-- A session that came to its end. -/
structure Finished where
  session : Session
  /-- The buffer as the session found it. -/
  before : HarqBuffer
  result : SchResult
  /-- The reception after the last step. -/
  reception : Reception

/-- All runs of completed sessions on a new buffer of `n` codeblocks, the last
session first, with the buffer that they leave. -/
inductive History (n : Nat) : List Finished → HarqBuffer → Prop
  | start : History n [] (HarqBuffer.ofCount n)
  | finish {past : List Finished} {buffer : HarqBuffer} {session : Session} {result : SchResult}
      {reception : Reception} (h : History n past buffer)
      (hrun : session.run buffer = .ok (result, reception)) :
      History n (⟨session, buffer, result, reception⟩ :: past) reception.buffer

/-- All sessions ask for the same base graph and the same size of transport
block. -/
def SameBlock (base : BaseGraph) (tbs : Nat) (past : List Finished) : Prop :=
  ∀ f ∈ past, f.session.settings.base = base ∧ f.session.tbs = tbs

namespace History

variable {n i : Nat} {past : List Finished} {f : Finished} {buffer : HarqBuffer}

/-- Before the first session the buffer is new. -/
theorem start_eq (h : History n [] buffer) : buffer = HarqBuffer.ofCount n := by
  cases h
  rfl

/-- The last session of a history: it found what the earlier ones left, and
leaves the buffer of the history. -/
theorem last (h : History n (f :: past) buffer) :
    History n past f.before ∧ f.session.run f.before = .ok (f.result, f.reception) ∧
      buffer = f.reception.buffer := by
  cases h with
  | finish h hrun => exact ⟨h, hrun, rfl⟩

/-- The sessions up to an earlier one are a history, with the buffer which that
one left. Facts about the last session so hold of each. -/
theorem earlier {since : List Finished} (h : History n (since ++ f :: past) buffer) :
    History n (f :: past) f.reception.buffer := by
  induction since generalizing buffer with
  | nil =>
    obtain rfl := h.last.2.2
    exact h
  | cons g since ih => exact ih h.last.1

/-- No session changes the number of codeblocks. -/
theorem count (h : History n past buffer) : buffer.count = n := by
  induction h with
  | start => exact HarqBuffer.count_ofCount n
  | finish _ hrun ih =>
    obtain ⟨seg, ring, combined, houtcome⟩ := Session.run_eq_ok _ hrun
    rw [houtcome.count_buffer, ← houtcome.count_before, ih]

/-- What the last session of a history did; the segmentation has one codeblock
for each of the buffer. -/
theorem outcome (h : History n (f :: past) buffer) :
    ∃ seg ring combined,
      f.session.Outcome f.before seg ring combined f.result f.reception ∧ seg.blocks = n := by
  obtain ⟨hpast, hrun, -⟩ := h.last
  obtain ⟨seg, ring, combined, houtcome⟩ := f.session.run_eq_ok hrun
  exact ⟨seg, ring, combined, houtcome, houtcome.count_before.symm.trans hpast.count⟩

/-- All flags are set exactly if the last session was verified, whatever the
sessions before it found. -/
theorem all_passed_iff (h : History n (f :: past) buffer) :
    (∀ i < n, (buffer.block i).passed = true) ↔ f.result.verified = true := by
  obtain ⟨seg, ring, combined, houtcome, rfl⟩ := h.outcome
  obtain ⟨-, -, rfl⟩ := h.last
  exact houtcome.all_passed_iff

/-- In a history of one size of transport block every session cuts it in the
same way. -/
theorem outcome_of_same {base : BaseGraph} {tbs : Nat} {seg : Segmentation}
    (h : History n (f :: past) buffer) (hsame : SameBlock base tbs (f :: past))
    (hfound : Segmentation.ofSize base tbs = .ok seg) :
    seg.blocks = n ∧ ∃ ring combined,
      f.session.Outcome f.before seg ring combined f.result f.reception := by
  obtain ⟨seg', ring, combined, houtcome, hblocks⟩ := h.outcome
  obtain ⟨hbase, htbs⟩ := hsame f List.mem_cons_self
  have hfound' := houtcome.found
  rw [hbase, htbs, hfound] at hfound'
  obtain rfl := Except.ok.inj hfound'
  exact ⟨hblocks, ring, combined, houtcome⟩

end History

/-! ## One session of a history -/

namespace Session

/-- How the transport block of a session is cut, if it can be. -/
def cut (s : Session) : Option Segmentation :=
  (Segmentation.ofSize s.settings.base s.tbs).toOption

/-- Message bits that a session keeps of a codeblock. -/
def messageLength (s : Session) : Nat := (s.cut.map (·.messageLength)).getD 0

/-- Codeblock `i` of a session. -/
def codeblock (s : Session) (seg : Segmentation) (i : Nat) : Codeblock :=
  s.format.codeblockAt seg (s.format.ringLength seg) i

/-- The soft bits of codeblock `i`. -/
def span (s : Session) (seg : Segmentation) (i : Nat) : Array SoftBit :=
  s.softBits.extract (s.codeblock seg i).offset (s.codeblock seg i).stop

namespace Outcome

variable {s : Session} {before combined : HarqBuffer} {seg : Segmentation} {ring i : Nat}
  {result : SchResult} {r : Reception}

theorem cut_eq (h : s.Outcome before seg ring combined result r) : s.cut = some seg := by
  rw [cut, h.found]
  rfl

theorem messageLength_eq (h : s.Outcome before seg ring combined result r) :
    s.messageLength = seg.messageLength := by
  rw [Session.messageLength, h.cut_eq]
  rfl

theorem codeblock_eq (h : s.Outcome before seg ring combined result r) (i : Nat) :
    s.codeblock seg i = s.format.codeblockAt seg ring i := by
  rw [codeblock, CodewordFormat.bufferLength_eq_ok h.buffered]

/-- The receiver reads the message length off a codeblock, as the segmentation
has it. -/
theorem breakdown_eq (h : s.Outcome before seg ring combined result r) (i : Nat) :
    (s.codeblock seg i).breakdown.1 = seg.messageLength := by
  rw [h.codeblock_eq, CodewordFormat.breakdown_codeblockAt h.sound]

/-- How a codeblock advances, in terms of the session alone: the segmentation
and the ring do not depend on the buffer. -/
theorem advanceAt (h : s.Outcome before seg ring combined result r) (hi : i < seg.blocks) :
    Advance s.settings (Segmentation.blockCrc seg.blocks s.tbs) (s.codeblock seg i) (s.span seg i)
      ((s.opened before).block i) (combined.block i) := by
  rw [span, h.codeblock_eq]
  exact h.advance i hi

/-- A codeblock that is not decoded stays accepted, with the message that is
stored at the lengths of the session. -/
theorem kept (h : s.Outcome before seg ring combined result r) (hi : i < seg.blocks)
    (hkept : ((s.opened before).block i).passed = true) :
    (combined.block i).passed = true ∧ (combined.block i).message =
      if (before.block i).message.size = seg.messageLength then (before.block i).message
      else Array.replicate seg.messageLength 0 := by
  obtain ⟨hmessage, hpassed⟩ := (h.advanceAt hi).kept hkept
  rw [hmessage, s.opened_of_old (s.passed_opened.mp hkept).1, StoredBlock.fit, h.breakdown_eq]
  exact ⟨hpassed, rfl⟩

end Outcome

end Session

namespace Finished

variable {f : Finished} {i : Nat} {message : Bits}

/-- The session finds codeblock `i` accepted already, and does not decode it. -/
def Kept (f : Finished) (i : Nat) : Prop :=
  ((f.session.opened f.before).block i).passed = true

/-- The decoder of the session accepts `message` for codeblock `i`, with its
check, from the soft bits that the session has combined. -/
def Accepts (f : Finished) (i : Nat) (message : Bits) : Prop :=
  ¬ f.Kept i ∧ ∃ seg decoder decoder' iterations, f.session.cut = some seg ∧
    f.session.settings.decodeBlock decoder (Segmentation.blockCrc seg.blocks f.session.tbs)
      (f.session.codeblock seg i) (f.reception.buffer.block i).soft seg.messageLength =
        .ok (⟨some iterations, message⟩, decoder')

theorem kept_iff : f.Kept i ↔
    f.session.settings.newData = false ∧ (f.before.block i).passed = true :=
  f.session.passed_opened

instance : Decidable (f.Kept i) := by
  unfold Kept
  infer_instance

end Finished

/-- What the decoder accepts is what the session keeps, in a session that
decodes the codeblock. -/
theorem Session.Outcome.accepts_iff {f : Finished} {i ring : Nat} {message : Bits}
    {seg : Segmentation} {combined : HarqBuffer}
    (h : f.session.Outcome f.before seg ring combined f.result f.reception) (hi : i < seg.blocks)
    (hkept : ¬ f.Kept i) :
    f.Accepts i message ↔
      (combined.block i).passed = true ∧ (combined.block i).message = message := by
  obtain ⟨decoder, decision, decoder', hdecode, hmessage, hpassed⟩ :=
    (h.advanceAt hi).decided (Bool.eq_false_iff.mpr hkept)
  rw [h.breakdown_eq] at hdecode
  constructor
  · rintro ⟨-, seg', other, other', k, hcut, haccepted⟩
    obtain rfl : seg = seg' := Option.some.inj (h.cut_eq.symm.trans hcut)
    rw [(h.block_buffer i).1] at haccepted
    -- two decoders decide alike, so the decision accepted is the decision made
    obtain rfl := ReceptionSettings.decision_unique hdecode haccepted
    exact ⟨hpassed, hmessage⟩
  · rintro ⟨haccepted, rfl⟩
    obtain ⟨k, hk⟩ := Option.isSome_iff_exists.mp (hpassed.symm.trans haccepted)
    refine ⟨hkept, seg, decoder, decoder', k, h.cut_eq, ?_⟩
    rw [(h.block_buffer i).1, hdecode, hmessage, ← hk]

/-! ## Histories of one byte -/

/-- A session of one byte. -/
def byteSession (newData : Bool) (softBits : Array SoftBit) : Session :=
  ⟨BlockDecoder.fresh, { byteSettings with newData }, #[0], [softBits]⟩

/-- A session of one byte that receives nothing. -/
theorem erased_byteSession (newData : Bool) :
    ∀ a ∈ (byteSession newData (Array.replicate 24 SoftBit.erased)).softBits,
      a = SoftBit.erased := by
  intro a ha
  rw [byteSession, Session.softBits_singleton] at ha
  exact (Array.mem_replicate.mp ha).2

/-- Sessions of one byte complete, whatever the soft bits and whatever the
buffer holds. -/
theorem exists_run_byte (newData : Bool) {softBits : Array SoftBit} (hsize : softBits.size = 24)
    {buffer : HarqBuffer} (hcount : buffer.count = 1) :
    ∃ result r, (byteSession newData softBits).run buffer = .ok (result, r) := by
  have hsoft : (byteSession newData softBits).softBits.size = 24 := by
    rw [byteSession, Session.softBits_singleton, hsize]
  refine @Session.exists_run _ #[byteCodeblock] _ Nat.one_ne_zero ?_ ?_ hcount ?_ (by decide)
    Nat.one_pos (by decide : 1 * 1 < Size.limit)
  · rw [hsoft]
    decide
  · rw [Session.format, hsoft]
    exact receive_byte
  · exact (by decide : 0 < 4)

/-- A history of one byte goes on with any soft bits. -/
theorem exists_finish_byte (newData : Bool) {softBits : Array SoftBit} (hsize : softBits.size = 24)
    {past : List Finished} {buffer : HarqBuffer} (h : History 1 past buffer)
    (hsame : SameBlock .two 8 past) :
    ∃ f, f.session = byteSession newData softBits ∧ History 1 (f :: past) f.reception.buffer ∧
      SameBlock .two 8 (f :: past) := by
  obtain ⟨result, r, hrun⟩ := exists_run_byte newData hsize h.count
  exact ⟨⟨_, _, _, _⟩, rfl, h.finish hrun, List.forall_mem_cons.mpr ⟨⟨rfl, rfl⟩, hsame⟩⟩

/-- A byte that is verified in its first session, to which further sessions can
be added. -/
theorem exists_history_byte :
    ∃ f softBits, softBits.size = 24 ∧ (∀ a ∈ softBits, a.InReach) ∧
      f.session = byteSession true softBits ∧ History 1 [f] f.reception.buffer ∧
      SameBlock .two 8 [f] ∧ f.result.verified = true ∧ f.reception.block = #[0xA5] := by
  obtain ⟨softBits, hsize, hreach, hrun⟩ := exists_softBits_byte
  obtain ⟨r, hfirst, hblock⟩ := hrun BlockDecoder.fresh _ (HarqBuffer.count_ofCount 1)
  exact ⟨⟨_, _, _, _⟩, softBits, hsize, hreach, rfl, History.start.finish hfirst,
    List.forall_mem_singleton.mpr ⟨rfl, rfl⟩, rfl, hblock⟩

/-- A retransmission of sixteen bytes that receives nothing. -/
def longerSession : Session :=
  ⟨BlockDecoder.fresh, { byteSettings with newData := false }, Array.replicate 16 0,
    [Array.replicate 24 SoftBit.erased]⟩

theorem softBits_longerSession : longerSession.softBits = Array.replicate 24 SoftBit.erased :=
  Session.softBits_singleton

theorem exists_run_longerSession {buffer : HarqBuffer} (hcount : buffer.count = 1) :
    ∃ result r, longerSession.run buffer = .ok (result, r) := by
  refine @Session.exists_run longerSession #[{ byteCodeblock with
    liftingSize := 24, bufferLength := 1200, sentLength := 1200, fillers := 96 }] _
    (by decide) ?_ ?_ hcount ?_ (by decide) Nat.one_pos (by decide : 1 * 1 < Size.limit)
  · rw [softBits_longerSession]
    decide
  · rw [Session.format, softBits_longerSession]
    decide
  · exact (by decide : 0 < 4)

theorem erased_longerSession : ∀ a ∈ longerSession.softBits, a = SoftBit.erased := by
  rw [softBits_longerSession]
  exact fun a ha => (Array.mem_replicate.mp ha).2

end Uplink
