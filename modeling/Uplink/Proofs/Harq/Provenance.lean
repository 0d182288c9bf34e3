import Uplink.Proofs.Harq.Verified

/-!
# Where a success comes from

A flag says that a codeblock was accepted, in this session or before. It does not say for which
size of transport block, and it stays when the message that it vouches for is replaced by zeros
because a session asks for another length.

- `DecidedIn`: the last session that decoded a codeblock.
- `History.exists_decided`: a codeblock whose flag is set was accepted there.
- `History.message_kept`: the message that is stored is the accepted one if no session since has
  asked for another length, and zeros otherwise.
- `Backed`: the accepted message is still there, for the transport block that is received.
- `History.success_backed`: when a success is backed, and what a session that receives nothing
  reports after a change of lengths.
-/

namespace Uplink

open Ldpc

/-! ## The last decision -/

/-- Session `t` was the last one to decode codeblock `i`; those since have found
it accepted. -/
structure DecidedIn (i : Nat) (sessions since : List Finished) (t : Finished)
    (earlier : List Finished) : Prop where
  split : sessions = since ++ t :: earlier
  decoded : ¬ t.Kept i
  kept : ∀ g ∈ since, g.Kept i

namespace DecidedIn

variable {i : Nat} {sessions past since since' earlier earlier' : List Finished}
  {f t t' : Finished}

/-- There is only one last session that decoded the codeblock. The induction is
along both lists of sessions at once. -/
theorem unique (h : DecidedIn i sessions since t earlier)
    (h' : DecidedIn i sessions since' t' earlier') : since = since' ∧ t = t' := by
  obtain ⟨rfl, hdecoded, hkept⟩ := h
  obtain ⟨hsplit, hdecoded', hkept'⟩ := h'
  induction since generalizing since' with
  | nil =>
    cases since' with
    | nil => exact ⟨rfl, (List.cons.inj hsplit).1⟩
    | cons g since' =>
      obtain ⟨rfl, -⟩ := List.cons.inj hsplit
      exact absurd (hkept' t List.mem_cons_self) hdecoded
  | cons g since ih =>
    cases since' with
    | nil =>
      obtain ⟨rfl, -⟩ := List.cons.inj hsplit
      exact absurd (hkept g List.mem_cons_self) hdecoded'
    | cons g' since' =>
      obtain ⟨rfl, htail⟩ := List.cons.inj hsplit
      obtain ⟨hsince, ht⟩ := ih (fun k hk => hkept k (List.mem_cons_of_mem g hk)) htail
        fun k hk => hkept' k (List.mem_cons_of_mem g hk)
      exact ⟨congrArg (List.cons g) hsince, ht⟩

/-- A session that keeps the codeblock leaves the decision where it was. -/
theorem cons (h : DecidedIn i sessions since t earlier) (hkept : f.Kept i) :
    DecidedIn i (f :: sessions) (f :: since) t earlier :=
  ⟨by rw [h.split, List.cons_append], h.decoded, List.forall_mem_cons.mpr ⟨hkept, h.kept⟩⟩

theorem head (h : DecidedIn i (f :: past) since t earlier) : f = t ∨ f ∈ since := by
  cases since with
  | nil => exact .inl (List.cons.inj h.split).1
  | cons g since =>
    obtain ⟨rfl, -⟩ := List.cons.inj h.split
    exact .inr List.mem_cons_self

theorem tail (h : DecidedIn i (f :: past) since t earlier) (hkept : f.Kept i) :
    ∃ since', since = f :: since' ∧ DecidedIn i past since' t earlier := by
  cases since with
  | nil =>
    obtain ⟨rfl, -⟩ := List.cons.inj h.split
    exact absurd hkept h.decoded
  | cons g since =>
    obtain ⟨rfl, hsplit⟩ := List.cons.inj h.split
    exact ⟨since, rfl, hsplit, h.decoded, fun k hk => h.kept k (List.mem_cons_of_mem f hk)⟩

/-- If all sessions since the decision asked for the length that was decided,
then so did the last one. -/
theorem messageLength_eq (h : DecidedIn i (f :: past) since t earlier)
    (hlength : ∀ g ∈ since, g.session.messageLength = t.session.messageLength) :
    f.session.messageLength = t.session.messageLength :=
  h.head.elim (fun ht => by rw [ht]) (hlength f)

end DecidedIn

namespace History

variable {n i : Nat} {past since earlier : List Finished} {f g t : Finished} {buffer : HarqBuffer}
  {message : Bits}

/-- A codeblock whose flag is set was accepted when it was decoded last. -/
theorem exists_decided (h : History n past buffer) (hi : i < n)
    (hpassed : (buffer.block i).passed = true) :
    ∃ since t earlier message, DecidedIn i past since t earlier ∧ t.Accepts i message := by
  induction past generalizing buffer with
  | nil =>
    rw [h.start_eq, HarqBuffer.block_ofCount] at hpassed
    cases hpassed
  | cons f past ih =>
    obtain ⟨seg, ring, combined, houtcome, rfl⟩ := h.outcome
    obtain ⟨hpast, -, rfl⟩ := h.last
    by_cases hkept : f.Kept i
    · obtain ⟨since, t, earlier, message, hdecided, haccepts⟩ :=
        ih hpast (Finished.kept_iff.mp hkept).2
      exact ⟨f :: since, t, earlier, message, hdecided.cons hkept, haccepts⟩
    · -- this session decoded it, and accepted it since the flag is set
      exact ⟨[], f, past, (combined.block i).message,
        ⟨rfl, hkept, fun g hg => absurd hg List.not_mem_nil⟩,
        (houtcome.accepts_iff hi hkept).mpr ⟨(houtcome.block_buffer i).2.2 hpassed, rfl⟩⟩

/-- After every session the stored messages have the length that it asked for,
those of kept codeblocks included. -/
theorem size_message (h : History n (f :: past) buffer) (hi : i < n) :
    (buffer.block i).message.size = f.session.messageLength := by
  obtain ⟨seg, ring, combined, houtcome, rfl⟩ := h.outcome
  obtain ⟨-, -, rfl⟩ := h.last
  rw [houtcome.size_message hi, houtcome.messageLength_eq]

/-- What a session that decoded a codeblock stores of it is the message it
accepted. -/
theorem message_accepted (h : History n (t :: past) buffer) (hi : i < n)
    (haccepts : t.Accepts i message) : (buffer.block i).message = message := by
  obtain ⟨seg, ring, combined, houtcome, rfl⟩ := h.outcome
  obtain ⟨-, -, rfl⟩ := h.last
  rw [(houtcome.block_buffer i).2.1]
  exact ((houtcome.accepts_iff hi haccepts.1).mp haccepts).2

/-- An accepted message stays as long as the sessions that keep it ask for its
length; once one of them has asked for another length, there are zeros. -/
theorem message_kept (h : History n (f :: past) buffer) (hi : i < n)
    (hdecided : DecidedIn i (f :: past) since t earlier) (haccepts : t.Accepts i message) :
    (buffer.block i).message =
      if ∀ g ∈ since, g.session.messageLength = t.session.messageLength then message
      else Array.replicate f.session.messageLength 0 := by
  induction since generalizing f past buffer with
  | nil =>
    obtain ⟨rfl, -⟩ := List.cons.inj hdecided.split
    rw [if_pos fun g hg => absurd hg List.not_mem_nil]
    exact h.message_accepted hi haccepts
  | cons k since ih =>
    obtain ⟨rfl, hsplit⟩ := List.cons.inj hdecided.split
    have hkept : f.Kept i := hdecided.kept f List.mem_cons_self
    obtain ⟨seg, ring, combined, houtcome, rfl⟩ := h.outcome
    obtain ⟨hpast, -, rfl⟩ := h.last
    obtain ⟨since', hsince, hdecided⟩ := hdecided.tail hkept
    obtain ⟨-, rfl⟩ := List.cons.inj hsince
    obtain ⟨g, past, rfl⟩ : ∃ g rest, past = g :: rest := by
      cases past with
      | nil => cases (List.append_eq_nil_iff.mp hdecided.split.symm).2
      | cons g past => exact ⟨g, past, rfl⟩
    have hbefore := ih hpast hdecided
    have hsize := hpast.size_message hi
    obtain ⟨-, hmessage⟩ := houtcome.kept hi hkept
    have hlast := hdecided.messageLength_eq
    rw [(houtcome.block_buffer i).2.1, hmessage, hsize, hbefore, ← houtcome.messageLength_eq]
    simp only [List.forall_mem_cons]
    -- a session that asks for the length stored hands the message on; another one clears it
    by_cases hlength : g.session.messageLength = f.session.messageLength
    · rw [if_pos hlength, hlength]
      rw [hlength] at hlast
      by_cases hall : ∀ k ∈ since, k.session.messageLength = t.session.messageLength
      · rw [if_pos hall, if_pos ⟨hlast hall, hall⟩]
      · have hchanged : ¬ (f.session.messageLength = t.session.messageLength ∧
            ∀ k ∈ since, k.session.messageLength = t.session.messageLength) := fun h => hall h.2
        rw [if_neg hall, if_neg hchanged]
    · have hchanged : ¬ (f.session.messageLength = t.session.messageLength ∧
          ∀ k ∈ since, k.session.messageLength = t.session.messageLength) := fun h =>
        hlength ((hlast h.2).trans h.1.symm)
      rw [if_neg hlength, if_neg hchanged]

end History

/-! ## Backed successes -/

/-- Codeblock `i` of session `f` was accepted for the base graph and the
transport block size that `f` asks for, and the accepted message has been stored
ever since. -/
def Backed (i : Nat) (f : Finished) (past : List Finished) : Prop :=
  ∃ since t earlier message, DecidedIn i (f :: past) since t earlier ∧ t.Accepts i message ∧
    t.session.settings.base = f.session.settings.base ∧ t.session.tbs = f.session.tbs ∧
    ∀ g ∈ since, (g.reception.buffer.block i).message = message

/-- Retransmissions ask for the base graph and the transport block size of the
session before. -/
def Steady : List Finished → Prop
  | f :: g :: past =>
    (f.session.settings.newData = false →
      f.session.settings.base = g.session.settings.base ∧ f.session.tbs = g.session.tbs) ∧
      Steady (g :: past)
  | _ => True

theorem Session.messageLength_congr {s s' : Session} (hbase : s.settings.base = s'.settings.base)
    (htbs : s.tbs = s'.tbs) : s.messageLength = s'.messageLength := by
  rw [messageLength, cut, messageLength, cut, hbase, htbs]

/-- In a steady history the sessions that keep a codeblock ask for what the one
that decoded it did. -/
theorem Steady.same {i : Nat} {since earlier : List Finished} {t : Finished}
    (h : Steady (since ++ t :: earlier)) (hkept : ∀ g ∈ since, g.Kept i) :
    ∀ g ∈ since, g.session.settings.base = t.session.settings.base ∧
      g.session.tbs = t.session.tbs := by
  induction since with
  | nil => exact fun g hg => absurd hg List.not_mem_nil
  | cons f since ih =>
    have hold : f.session.settings.newData = false :=
      (Finished.kept_iff.mp (hkept f List.mem_cons_self)).1
    have hlater : ∀ g ∈ since, g.Kept i := fun g hg => hkept g (List.mem_cons_of_mem f hg)
    cases since with
    | nil => exact List.forall_mem_singleton.mpr (h.1 hold)
    | cons g since =>
      have hrest := ih h.2 hlater
      obtain ⟨hbase, htbs⟩ := h.1 hold
      obtain ⟨hbase', htbs'⟩ := hrest g List.mem_cons_self
      exact List.forall_mem_cons.mpr ⟨⟨hbase.trans hbase', htbs.trans htbs'⟩, hrest⟩

namespace History

variable {n i : Nat} {past since earlier : List Finished} {f g t : Finished} {buffer : HarqBuffer}
  {message : Bits}

/-- A codeblock is backed exactly if the session that accepted it asked for the
same transport block, and none since for another length of its message. -/
theorem backed_iff (h : History n (f :: past) buffer) (hi : i < n)
    (hdecided : DecidedIn i (f :: past) since t earlier) (haccepts : t.Accepts i message) :
    Backed i f past ↔ t.session.settings.base = f.session.settings.base ∧
      t.session.tbs = f.session.tbs ∧
      ∀ g ∈ since, g.session.messageLength = t.session.messageLength := by
  have hhistory := h
  rw [hdecided.split] at hhistory
  have hfirst := hhistory.earlier
  constructor
  · rintro ⟨since', t', earlier', message', hdecided', haccepts', hbase, htbs, hstored⟩
    -- there is only one session that the evidence can be about
    obtain ⟨rfl, rfl⟩ := hdecided.unique hdecided'
    refine ⟨hbase, htbs, fun g hg => ?_⟩
    obtain ⟨later, before, rfl⟩ := List.append_of_mem hg
    rw [List.append_assoc, List.cons_append] at hhistory
    rw [← hhistory.earlier.size_message hi, hstored g hg, ← hfirst.message_accepted hi haccepts',
      hfirst.size_message hi]
  · rintro ⟨hbase, htbs, hlength⟩
    refine ⟨since, t, earlier, message, hdecided, haccepts, hbase, htbs, fun g hg => ?_⟩
    obtain ⟨later, before, rfl⟩ := List.append_of_mem hg
    rw [List.append_assoc, List.cons_append] at hhistory
    have hdecidedHere : DecidedIn i (g :: (before ++ t :: earlier)) (g :: before) t earlier :=
      ⟨rfl, hdecided.decoded, fun k hk => hdecided.kept k (List.mem_append_right later hk)⟩
    rw [hhistory.earlier.message_kept hi hdecidedHere haccepts,
      if_pos fun k hk => hlength k (List.mem_append_right later hk)]

/-- In a steady history every success is backed: a change of the transport block
comes with new data, which are decoded again. -/
theorem backed_of_steady (h : History n (f :: past) buffer) (hsteady : Steady (f :: past))
    (hi : i < n) (hpassed : (buffer.block i).passed = true) : Backed i f past := by
  obtain ⟨since, t, earlier, message, hdecided, haccepts⟩ := h.exists_decided hi hpassed
  have hall := hsteady
  rw [hdecided.split] at hall
  have hsame := hall.same hdecided.kept
  refine (h.backed_iff hi hdecided haccepts).mpr ?_
  have hlength : ∀ g ∈ since, g.session.messageLength = t.session.messageLength := fun g hg =>
    Session.messageLength_congr (hsame g hg).1 (hsame g hg).2
  cases since with
  | nil =>
    obtain ⟨rfl, -⟩ := List.cons.inj hdecided.split
    exact ⟨rfl, rfl, hlength⟩
  | cons g since =>
    obtain ⟨rfl, -⟩ := List.cons.inj hdecided.split
    obtain ⟨hbase, htbs⟩ := hsame f List.mem_cons_self
    exact ⟨hbase.symm, htbs.symm, hlength⟩

/-- After a change of the message length a session finds nothing stored, and
zeros in place of the messages that the flags vouch for. -/
theorem of_change {seg : Segmentation} {ring : Nat} {combined : HarqBuffer}
    (h : History n (f :: g :: past) buffer)
    (houtcome : f.session.Outcome f.before seg ring combined f.result f.reception) (hi : i < n)
    (hchange : g.session.messageLength ≠ f.session.messageLength) :
    (f.before.block i).soft.size ≠ seg.base.sentLength seg.liftingSize ∧
      (f.Kept i → (combined.block i).message = Array.replicate seg.messageLength 0) := by
  obtain ⟨hpast, -, -⟩ := h.last
  obtain ⟨seg', ring', combined', houtcome', hblocks⟩ := hpast.outcome
  obtain ⟨-, -, hbefore⟩ := hpast.last
  have hblocks' : seg.blocks = n := houtcome.count_before.symm.trans hpast.count
  rw [houtcome.messageLength_eq] at hchange
  constructor
  · -- equal lengths of the stored soft bits would mean equal message lengths
    intro hsize
    rw [hbefore, (houtcome'.soft_eq (by omega)).1] at hsize
    refine hchange ?_
    rw [houtcome'.messageLength_eq, houtcome'.sound.messageLength_eq,
      houtcome.sound.messageLength_eq, ← houtcome'.sound.base_eq, ← houtcome.sound.base_eq]
    exact Segmentation.messageLength_eq_of_sentLength_eq houtcome'.sound.liftingSize_mem
      houtcome.sound.liftingSize_mem hsize
  · intro hkept
    rw [(houtcome.kept (by omega) hkept).2, if_neg (by rwa [hpast.size_message hi])]

/-- A session that receives nothing, after a change of the message length,
reports a success exactly if it is a retransmission and all flags were set
before. What it writes then is zeros. -/
theorem verified_of_change (h : History n (f :: g :: past) buffer)
    (hchange : g.session.messageLength ≠ f.session.messageLength)
    (herased : ∀ a ∈ f.session.softBits, a = SoftBit.erased) :
    (f.result.verified = true ↔ f.session.settings.newData = false ∧
      ∀ i < n, (g.reception.buffer.block i).passed = true) ∧
    (f.result.verified = true → f.reception.block = Array.replicate f.session.block.size 0) := by
  obtain ⟨seg, ring, combined, houtcome, rfl⟩ := h.outcome
  obtain ⟨-, -, hbefore⟩ := h.last.1.last
  have hpos := houtcome.sound.blocks_pos
  have hkept : f.result.verified = true → ∀ i < seg.blocks, f.Kept i := fun hverified i hi =>
    houtcome.passed_of_verified_erased herased
      (fun j hj => .inr (.inl (h.of_change houtcome hj hchange).1)) hverified hi
  have hzeros : (∀ i < seg.blocks, f.Kept i) →
      ∀ i < seg.blocks, ∀ b ∈ (combined.block i).message, b = 0 := by
    intro hall i hi b hb
    rw [(h.of_change houtcome hi hchange).2 (hall i hi)] at hb
    exact (Array.mem_replicate.mp hb).2
  refine ⟨⟨fun hverified => ?_, fun ⟨hold, hflags⟩ => ?_⟩, fun hverified => ?_⟩
  · have hall := hkept hverified
    refine ⟨(Finished.kept_iff.mp (hall 0 hpos)).1, fun i hi => ?_⟩
    rw [← hbefore]
    exact (Finished.kept_iff.mp (hall i hi)).2
  · have hall : ∀ i < seg.blocks, f.Kept i := fun i hi =>
      Finished.kept_iff.mpr ⟨hold, by rw [hbefore]; exact hflags i hi⟩
    -- zeros pass the check over all codeblocks
    exact houtcome.verified.mpr ⟨fun i hi => (houtcome.kept hi (hall i hi)).1,
      .inr (Crc.ofBits_of_zeros _ (forall_mem_gather (hzeros hall)))⟩
  · have hrestored : ∀ b ∈ seg.restored f.session.tbs f.reception.buffer, b = 0 :=
      forall_mem_gather fun i hi b hb => hzeros (hkept hverified) i hi b
        (by rwa [(houtcome.block_buffer i).2.1] at hb)
    rw [houtcome.block_of_verified hverified]
    refine Bits.pack_of_zeros ?_ fun b hb => ?_
    · have hsize := houtcome.sound.size_restored fun i hi => houtcome.size_message hi
      rw [Array.size_extract, hsize, Segmentation.checkedSize, Session.tbs]
      omega
    · obtain ⟨j, hj, rfl⟩ := Array.mem_extract_iff_getElem.mp hb
      exact hrestored _ (Array.getElem_mem _)

/-- Where a success comes from. Every codeblock of a verified session was
accepted when it was decoded last, and its message is stored unless a session
since has asked for another length: it is backed exactly if the session that
accepted it asked for the same transport block, and none since for another
length. Retransmissions that ask for what the session before asked for keep
successes backed. A retransmission that receives nothing after a change of the
message length is a success if all flags were set before; it writes zeros, and
no codeblock of it is backed. -/
theorem success_backed (h : History n (f :: past) buffer) :
    (f.result.verified = true → ∀ i < n, ∃ since t earlier message,
      DecidedIn i (f :: past) since t earlier ∧ t.Accepts i message ∧
      (buffer.block i).message =
        (if ∀ g ∈ since, g.session.messageLength = t.session.messageLength then message
        else Array.replicate f.session.messageLength 0) ∧
      (Backed i f past ↔ t.session.settings.base = f.session.settings.base ∧
        t.session.tbs = f.session.tbs ∧
        ∀ g ∈ since, g.session.messageLength = t.session.messageLength)) ∧
    (f.result.verified = true → Steady (f :: past) → ∀ i < n, Backed i f past) ∧
    ∀ g earlier, past = g :: earlier → g.session.messageLength ≠ f.session.messageLength →
      (∀ a ∈ f.session.softBits, a = SoftBit.erased) →
      (f.result.verified = true ↔ f.session.settings.newData = false ∧
        ∀ i < n, (g.reception.buffer.block i).passed = true) ∧
      (f.result.verified = true → f.reception.block = Array.replicate f.session.block.size 0 ∧
        ∀ i < n, ¬ Backed i f past) := by
  have hflags := h.all_passed_iff.mpr
  refine ⟨fun hverified i hi => ?_, fun hverified hsteady i hi => ?_, ?_⟩
  · obtain ⟨since, t, earlier, message, hdecided, haccepts⟩ :=
      h.exists_decided hi (hflags hverified i hi)
    exact ⟨since, t, earlier, message, hdecided, haccepts, h.message_kept hi hdecided haccepts,
      h.backed_iff hi hdecided haccepts⟩
  · exact h.backed_of_steady hsteady hi (hflags hverified i hi)
  · rintro g earlier rfl hchange herased
    obtain ⟨hiff, hzeros⟩ := h.verified_of_change hchange herased
    refine ⟨hiff, fun hverified => ⟨hzeros hverified, fun i hi hbacked => ?_⟩⟩
    obtain ⟨hold, hbefore⟩ := hiff.mp hverified
    obtain ⟨since, t, earlier, message, hdecided, haccepts⟩ :=
      h.exists_decided hi (hflags hverified i hi)
    obtain ⟨-, -, hlength⟩ := (h.backed_iff hi hdecided haccepts).mp hbacked
    have hkept : f.Kept i :=
      Finished.kept_iff.mpr ⟨hold, by rw [h.last.1.last.2.2]; exact hbefore i hi⟩
    obtain ⟨since, rfl, hdecided'⟩ := hdecided.tail hkept
    have hlast := hdecided'.messageLength_eq fun k hk => hlength k (List.mem_cons_of_mem f hk)
    exact hchange (hlast.trans (hlength f List.mem_cons_self).symm)

/-- A verified byte is backed. Sixteen bytes on its buffer are a success that
writes zeros and that no decoder backs. -/
theorem success_backed_byte :
    ∃ (f g : Finished) (buffer : HarqBuffer), History 1 [f, g] buffer ∧ g.result.verified = true ∧
      Backed 0 g [] ∧ (∀ a ∈ f.session.softBits, a = SoftBit.erased) ∧ f.result.verified = true ∧
      f.reception.block = Array.replicate 16 0 ∧ ¬ Backed 0 f [g] := by
  obtain ⟨g, softBits, -, -, hg, hone, -, hverified, -⟩ := exists_history_byte
  obtain ⟨result, r, hrun⟩ := exists_run_longerSession hone.count
  have htwo := hone.finish hrun
  have hchange : g.session.messageLength ≠ longerSession.messageLength := by
    rw [hg]
    exact (by decide : (byteSession true #[]).messageLength ≠ longerSession.messageLength)
  obtain ⟨-, hsteady, -⟩ := hone.success_backed
  obtain ⟨-, -, hchanged⟩ := htwo.success_backed
  obtain ⟨hiff, hzeros⟩ := hchanged g [] rfl hchange erased_longerSession
  have hagain : result.verified = true := hiff.mpr ⟨rfl, hone.all_passed_iff.mpr hverified⟩
  obtain ⟨hblock, hnot⟩ := hzeros hagain
  exact ⟨_, g, _, htwo, hverified, hsteady hverified trivial 0 Nat.one_pos, erased_longerSession,
    hagain, hblock, hnot 0 Nat.one_pos⟩

end History

end Uplink
