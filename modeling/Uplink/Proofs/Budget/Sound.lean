import Uplink.Proofs.Budget.Shares
import Uplink.Proofs.Region
import Uplink.Proofs.Segmentation

/-!
# Budgets within the machine sizes

- `BudgetRequest.InReach`: the sizes of a request leave no machine range on the way.
- `Budget.Sound`: what a budget promises: the fields fit the elements that they are taken from.
- `Budget.exists_ofRequest`: every request in reach has a sound budget.
-/

namespace Uplink

namespace BudgetRequest

/-- Coded bits of an element on all layers. -/
def group (q : BudgetRequest) : Nat := q.layers * q.modulation.order

/-- The sizes of the request and their sums and products are machine sizes, and
its elements are so few that double precision counts each of them. -/
structure InReach (q : BudgetRequest) : Prop where
  symbols : q.region.firstSymbol + q.region.symbolCount < Size.limit
  elements : q.region.elements < Size.limit
  references : q.region.dmrsType.perBlock * q.region.freeGroups < Size.limit
  table : 8 * max q.region.symbolCount 1 < Size.signedLimit
  total : q.region.symbolCount * q.region.elements ≤ 2 ^ 53
  group : q.group < Size.limit
  bits : q.region.symbolCount * q.region.elements * q.group < Size.limit
  ack : q.ackBits + 11 < Size.limit
  csi1 : q.csi1Bits + 11 < Size.limit
  block : 2 * q.tbs < Size.limit
  message : ∀ s, Segmentation.ofSize q.base q.tbs = .ok s →
    s.blocks * s.messageLength < Size.limit

end BudgetRequest

namespace Budget

/-- Elements of all plain symbols. -/
def plainTotal (r : Region) : Nat := r.plainSymbols.length * r.elements

/-- Elements of the plain symbols that may hold acknowledgements. -/
def ackTotal (r : Region) : Nat := r.ackSymbols.length * r.elements

/-- Data elements of a symbol with reference signals. -/
def dataOnDmrs (r : Region) : Nat :=
  r.blocks * (subcarriersPerBlock - r.dmrsType.perBlock * r.freeGroups)

/-- What a budget promises. -/
structure Sound (q : BudgetRequest) (b : Budget) : Prop where
  dataElements_eq : b.dataElements =
    plainTotal q.region + q.region.dmrsSymbols.length * dataOnDmrs q.region
  ackBits_eq : b.ackBits = b.ackElements * q.group
  reservedBits_eq : b.reservedBits = b.reservedElements * q.group
  csi1Bits_eq : b.csi1Bits = b.csi1Elements * q.group
  schBits_eq : b.schBits = if 0 < q.tbs then
      b.dataElements * q.group - (if 2 < q.ackBits then b.ackBits else 0) - b.csi1Bits
    else 0
  ackElements_le : b.ackElements ≤ ackTotal q.region
  reservedElements_le : b.reservedElements ≤ ackTotal q.region
  /-- A short acknowledgement fits the elements that are reserved for it. -/
  ack_le_reserved : q.ackBits ≤ 2 → b.ackElements ≤ b.reservedElements
  ack_none : q.ackBits = 0 → b.ackElements = 0
  csi1_none : q.csi1Bits = 0 → b.csi1Elements = 0
  /-- The channel state report fits the elements that the acknowledgement leaves. -/
  csi1_le : b.csi1Elements + (if 2 < q.ackBits then b.ackElements else b.reservedElements) ≤
    plainTotal q.region

variable {q : BudgetRequest} {supply : Supply}

/-- Acknowledgements stand on plain symbols only. -/
theorem ackTotal_le (r : Region) : ackTotal r ≤ plainTotal r :=
  Nat.mul_le_mul_right _ r.length_ackSymbols_le

theorem plainTotal_le (r : Region) : plainTotal r ≤ r.symbolCount * r.elements := by
  refine Nat.mul_le_mul_right _ ?_
  rw [← r.length_plainSymbols_add]
  exact Nat.le_add_right _ _

theorem dataOnDmrs_le (r : Region) : dataOnDmrs r ≤ r.elements :=
  Nat.mul_le_mul_left _ (Nat.sub_le _ _)

/-- The data elements are elements of the allocation. -/
theorem dataTotal_le (r : Region) :
    plainTotal r + r.dmrsSymbols.length * dataOnDmrs r ≤ r.symbolCount * r.elements := by
  calc plainTotal r + r.dmrsSymbols.length * dataOnDmrs r
      ≤ r.plainSymbols.length * r.elements + r.dmrsSymbols.length * r.elements :=
        Nat.add_le_add_left (Nat.mul_le_mul_left _ (dataOnDmrs_le r)) _
    _ = r.symbolCount * r.elements := by rw [← Nat.add_mul, r.length_plainSymbols_add]

theorem uciCheckLength_le (bits : Nat) : uciCheckLength bits ≤ 11 := by
  rw [uciCheckLength]
  split
  · exact Nat.zero_le _
  · split <;> omega

/-- The elements that a field asks for are found, however many they are; only
its bits with their check must be counted. -/
theorem exists_required (q : BudgetRequest) (supply : Supply) (beta : Float32) {bits : Nat}
    (h : bits + 11 < Size.limit) :
    ∃ n, required q supply bits beta = .ok n := by
  have hadd : Size.add bits (uciCheckLength bits) = .ok (bits + uciCheckLength bits) :=
    Size.add_of_lt (Nat.lt_of_le_of_lt (Nat.add_le_add_left (uciCheckLength_le bits) _) h)
  rw [required, hadd, ok_bind]
  split
  · exact ⟨_, rfl⟩
  · exact ⟨_, rfl⟩

/-- The elements of an acknowledgement are at most those that may hold it: its
share of them is a part. -/
theorem exists_ackElementsOf {bits : Nat} (halpha : IsPart q.alpha)
    (hplain : supply.plainForAck ≤ 2 ^ 53) (h : bits + 11 < Size.limit) :
    ∃ n, ackElementsOf q supply bits = .ok n ∧ n ≤ supply.plainForAck := by
  obtain ⟨needed, hneeded⟩ := exists_required q supply q.betaAck h
  refine ⟨_, by rw [ackElementsOf, hneeded]; rfl, ?_⟩
  exact (min_le_right _ _).trans (halpha _ hplain)

/-- One bit gets at most the elements of two. What is reserved for a short
acknowledgement is therefore enough for it. -/
theorem ackElementsOf_mono {bits m n : Nat} (hpos : 0 < bits) (hle : bits ≤ 2)
    (hplain : supply.plain < 2 ^ 64) (hmessage : supply.messageBits < 2 ^ 64)
    (hm : ackElementsOf q supply bits = .ok m) (hn : ackElementsOf q supply 2 = .ok n) :
    m ≤ n := by
  obtain rfl | rfl : bits = 1 ∨ bits = 2 := by omega
  · rw [ackElementsOf, bind_eq_ok] at hm hn
    obtain ⟨one, hone, hm⟩ := hm
    obtain ⟨two, htwo, hn⟩ := hn
    rw [← Except.ok.inj hm, ← Except.ok.inj hn]
    exact min_le_min_right _ (required_mono hplain hmessage hone htwo)
  · exact (Except.ok.inj (hm.symm.trans hn)).le

/-- A channel state report gets at most the elements that are left. -/
theorem exists_csi1ElementsOf {used : Nat} (halpha : IsPart q.alpha) (hplain : supply.plain ≤ 2 ^ 53)
    (h : q.csi1Bits + 11 < Size.limit) :
    ∃ n, csi1ElementsOf q supply used = .ok n ∧ n ≤ supply.plain - used := by
  obtain ⟨needed, hneeded⟩ := exists_required q supply q.betaCsi1 h
  rw [csi1ElementsOf, hneeded, ok_bind]
  split
  · refine ⟨_, rfl, (min_le_right _ _).trans ?_⟩
    exact Nat.sub_le_sub_right (halpha _ hplain) used
  · exact ⟨_, rfl, Nat.le_refl _⟩

/-- The message bits of the data stay within the machine sizes. -/
theorem exists_messageBits (h : q.InReach) :
    ∃ n < 2 ^ 64, ∀ k : Nat → Checked Budget, (if 0 < q.tbs then do
        let s ← Segmentation.ofSize q.base q.tbs
        let n ← Size.mul s.blocks s.messageLength
        k n
      else k 0) = k n := by
  by_cases hdata : 0 < q.tbs
  · obtain ⟨s, hs⟩ := Segmentation.exists_ofSize q.base hdata h.block
    refine ⟨_, h.message s hs, fun k => ?_⟩
    rw [if_pos hdata, hs, ok_bind, Size.mul_of_lt (h.message s hs), ok_bind]
  · exact ⟨0, by norm_num, fun k => if_neg hdata⟩

/-- An optional step whose result is known. -/
theorem ite_bind_eq {c : Prop} [Decidable c] {α β : Type} {x : Checked α} {a b : α}
    {k : α → Checked β} (h : (if c then x else .ok b) = .ok a) :
    (if c then x >>= k else k b) = k a := by
  split at h <;> rename_i hc
  · rw [if_pos hc, h, ok_bind]
  · rw [if_neg hc, Except.ok.inj h]

/-- The elements of the fields, found from `supply`. -/
structure Shares (q : BudgetRequest) (supply : Supply) (ack reserved csi1 : Nat) : Prop where
  ack_eq : (if 0 < q.ackBits then ackElementsOf q supply q.ackBits else .ok 0) = .ok ack
  reserved_eq : (if 0 < q.ackBits ∧ q.ackBits ≤ 2 then ackElementsOf q supply 2 else .ok 0) =
    .ok reserved
  csi1_eq : (if 0 < q.csi1Bits then
      csi1ElementsOf q supply (if 2 < q.ackBits then ack else reserved)
    else .ok 0) = .ok csi1
  ack_le : ack ≤ supply.plainForAck
  reserved_le : reserved ≤ supply.plainForAck
  ack_le_reserved : q.ackBits ≤ 2 → ack ≤ reserved
  ack_none : q.ackBits = 0 → ack = 0
  csi1_none : q.csi1Bits = 0 → csi1 = 0
  csi1_le : csi1 + (if 2 < q.ackBits then ack else reserved) ≤ supply.plain

/-- Every request in reach has its shares, field by field in the order in which
they are taken. -/
theorem exists_shares (halpha : IsPart q.alpha) (h : q.InReach)
    (hack : supply.plainForAck ≤ supply.plain) (hplain : supply.plain ≤ 2 ^ 53)
    (hmessage : supply.messageBits < 2 ^ 64) :
    ∃ ack reserved csi1, Shares q supply ack reserved csi1 := by
  obtain ⟨ack, hackOk, hackLe, hackNone⟩ : ∃ n,
      (if 0 < q.ackBits then ackElementsOf q supply q.ackBits else .ok 0) = .ok n ∧
        n ≤ supply.plainForAck ∧ (q.ackBits = 0 → n = 0) := by
    by_cases hpos : 0 < q.ackBits
    · obtain ⟨n, hn, hle⟩ := exists_ackElementsOf halpha (hack.trans hplain) h.ack
      exact ⟨n, by rw [if_pos hpos, hn], hle, fun hzero => by omega⟩
    · exact ⟨0, if_neg hpos, Nat.zero_le _, fun _ => rfl⟩
  obtain ⟨reserved, hreservedOk, hreservedLe, hmono⟩ : ∃ n,
      (if 0 < q.ackBits ∧ q.ackBits ≤ 2 then ackElementsOf q supply 2 else .ok 0) = .ok n ∧
        n ≤ supply.plainForAck ∧ (q.ackBits ≤ 2 → ack ≤ n) := by
    by_cases hshort : 0 < q.ackBits ∧ q.ackBits ≤ 2
    · obtain ⟨n, hn, hle⟩ :=
        exists_ackElementsOf halpha (hack.trans hplain) (by decide : 2 + 11 < Size.limit)
      rw [if_pos hshort.1] at hackOk
      refine ⟨n, by rw [if_pos hshort, hn], hle, fun _ => ?_⟩
      exact ackElementsOf_mono hshort.1 hshort.2 (by omega) hmessage hackOk hn
    · refine ⟨0, if_neg hshort, Nat.zero_le _, fun hle => ?_⟩
      exact (hackNone (by omega)).le
  -- the report gets what acknowledgements leave, whether placed or reserved
  have hused : (if 2 < q.ackBits then ack else reserved) ≤ supply.plain := by split <;> omega
  obtain ⟨csi1, hcsi1Ok, hcsi1Le, hcsi1None⟩ : ∃ n, (if 0 < q.csi1Bits then
        csi1ElementsOf q supply (if 2 < q.ackBits then ack else reserved)
      else .ok 0) = .ok n ∧ n ≤ supply.plain - (if 2 < q.ackBits then ack else reserved) ∧
        (q.csi1Bits = 0 → n = 0) := by
    by_cases hpos : 0 < q.csi1Bits
    · obtain ⟨n, hn, hle⟩ := exists_csi1ElementsOf halpha hplain h.csi1
      exact ⟨n, by rw [if_pos hpos, hn], hle, fun hzero => by omega⟩
    · exact ⟨0, if_neg hpos, Nat.zero_le _, fun _ => rfl⟩
  exact ⟨ack, reserved, csi1, hackOk, hreservedOk, hcsi1Ok, hackLe, hreservedLe, hmono, hackNone,
    hcsi1None, by omega⟩

/-- The budget with these elements for its fields. -/
def ofShares (q : BudgetRequest) (ack reserved csi1 : Nat) : Budget :=
  let data := plainTotal q.region + q.region.dmrsSymbols.length * dataOnDmrs q.region
  { schBits := if 0 < q.tbs then
        data * q.group - (if 2 < q.ackBits then ack * q.group else 0) - csi1 * q.group
      else 0
    ackBits := ack * q.group
    reservedBits := reserved * q.group
    csi1Bits := csi1 * q.group
    ackElements := ack
    reservedElements := reserved
    csi1Elements := csi1
    dataElements := data
    dmrsElements := q.region.dmrsSymbols.length * q.region.elements -
      q.region.dmrsSymbols.length * dataOnDmrs q.region }

/-- Such a budget keeps its promises. -/
theorem Shares.sound {ack reserved csi1 messageBits : Nat}
    (h : Shares q ⟨plainTotal q.region, ackTotal q.region, messageBits⟩ ack reserved csi1) :
    (ofShares q ack reserved csi1).Sound q where
  dataElements_eq := rfl
  ackBits_eq := rfl
  reservedBits_eq := rfl
  csi1Bits_eq := rfl
  schBits_eq := rfl
  ackElements_le := h.ack_le
  reservedElements_le := h.reserved_le
  ack_le_reserved := h.ack_le_reserved
  ack_none := h.ack_none
  csi1_none := h.csi1_none
  csi1_le := h.csi1_le

/-! ## Elements of all symbols -/

theorem total_lt (h : q.InReach) : q.region.symbolCount * q.region.elements < Size.limit :=
  Nat.lt_of_le_of_lt h.total (by decide)

theorem sumSymbols_plain (h : q.InReach) :
    q.region.sumSymbols (plainElements q.region) = .ok (plainTotal q.region) :=
  Region.sumSymbols_eq_ok h.symbols (fun _ => rfl) h.elements (total_lt h)

theorem sumSymbols_ack (h : q.InReach) :
    (q.region.sumSymbols fun l =>
      if q.region.startsAck l then plainElements q.region l else .ok 0) =
        .ok (ackTotal q.region) := by
  refine Region.sumSymbols_eq_ok h.symbols (fun l => ?_) h.elements (total_lt h)
  cases hl : q.region.startsAck l with
  | false => rfl
  | true => rw [if_pos rfl, if_pos rfl, plainElements, if_pos (Region.isPlain_of_startsAck hl)]

theorem dmrsTotal_le (r : Region) :
    r.dmrsSymbols.length * r.elements ≤ r.symbolCount * r.elements := by
  refine Nat.mul_le_mul_right _ ?_
  rw [← r.length_plainSymbols_add]
  exact Nat.le_add_left _ _

/-- The data elements of the symbols with reference signals are found without
leaving the machine sizes. -/
theorem dataOnDmrs_eq_ok (h : q.InReach) :
    dataPerBlockOnDmrs q.region =
        .ok (subcarriersPerBlock - q.region.dmrsType.perBlock * q.region.freeGroups) ∧
    Size.mul q.region.blocks
        (subcarriersPerBlock - q.region.dmrsType.perBlock * q.region.freeGroups) =
      .ok (dataOnDmrs q.region) ∧
    Size.mul q.region.dmrsSymbols.length (dataOnDmrs q.region) =
      .ok (q.region.dmrsSymbols.length * dataOnDmrs q.region) := by
  have hall := total_lt h
  have hdmrs := dmrsTotal_le q.region
  have hdata := Nat.mul_le_mul_left q.region.dmrsSymbols.length (dataOnDmrs_le q.region)
  refine ⟨?_, Size.mul_of_lt (Nat.lt_of_le_of_lt (dataOnDmrs_le q.region) h.elements),
    Size.mul_of_lt (by omega)⟩
  rw [dataPerBlockOnDmrs, Size.mul_of_lt h.references]
  rfl

/-- All elements of the symbols with reference signals. -/
theorem dmrsTotal_eq_ok (h : q.InReach) :
    Size.mul q.region.dmrsSymbols.length q.region.blocks =
        .ok (q.region.dmrsSymbols.length * q.region.blocks) ∧
    Size.mul (q.region.dmrsSymbols.length * q.region.blocks) subcarriersPerBlock =
      .ok (q.region.dmrsSymbols.length * q.region.elements) := by
  have hall := total_lt h
  have hdmrs := dmrsTotal_le q.region
  have hblocks : q.region.dmrsSymbols.length * q.region.blocks ≤
      q.region.dmrsSymbols.length * q.region.elements :=
    Nat.mul_le_mul_left _ (Nat.le_mul_of_pos_right _ (by decide))
  have hassoc : q.region.dmrsSymbols.length * q.region.blocks * subcarriersPerBlock =
      q.region.dmrsSymbols.length * q.region.elements := Nat.mul_assoc _ _ _
  exact ⟨Size.mul_of_lt (by omega), by rw [Size.mul_of_lt (by omega), hassoc]⟩

/-- Some of all elements hold as many bits, which the machine counts because it
counts those of all. -/
theorem mul_group (h : q.InReach) {n : Nat} (hn : n ≤ q.region.symbolCount * q.region.elements) :
    Size.mul n q.group = .ok (n * q.group) :=
  Size.mul_of_lt (Nat.lt_of_le_of_lt (Nat.mul_le_mul_right _ hn) h.bits)

/-! ## Every request has a budget -/

/-- Every request in reach has a budget, and it keeps its promises: each step of
the computation is given its result. -/
theorem exists_ofRequest_of_isPart (hlayers : 0 < q.layers) (hcsi2 : q.csi2Bits = 0)
    (halpha : IsPart q.alpha) (h : q.InReach) : ∃ b, ofRequest q = .ok b ∧ b.Sound q := by
  have hplain := plainTotal_le q.region
  have hack := (ackTotal_le q.region).trans hplain
  have hdata := dataTotal_le q.region
  have hall := total_lt h
  have hgroup : Size.mul q.layers q.modulation.order = .ok q.group := Size.mul_of_lt h.group
  obtain ⟨messageBits, hmessageLt, hmessage⟩ := exists_messageBits h
  obtain ⟨ack, reserved, csi1, hshares⟩ : ∃ ack reserved csi1,
      Shares q ⟨plainTotal q.region, ackTotal q.region, messageBits⟩ ack reserved csi1 :=
    exists_shares halpha h (ackTotal_le q.region) (hplain.trans h.total) hmessageLt
  have hcsi1 : csi1 ≤ plainTotal q.region := le_trans (Nat.le_add_right _ _) hshares.csi1_le
  have hdmrsData : q.region.dmrsSymbols.length * dataOnDmrs q.region ≤
      q.region.dmrsSymbols.length * q.region.elements :=
    Nat.mul_le_mul_left _ (dataOnDmrs_le q.region)
  obtain ⟨hperBlock, honDmrs, hallOnDmrs⟩ := dataOnDmrs_eq_ok h
  obtain ⟨hblocks, hdmrs⟩ := dmrsTotal_eq_ok h
  refine ⟨ofShares q ack reserved csi1, ?_, hshares.sound⟩
  rw [ofRequest, require_of (decide_eq_true hlayers), ok_bind, require_of (beq_iff_eq.mpr hcsi2),
    ok_bind]
  simp only [sumSymbols_plain h, sumSymbols_ack h, hperBlock, honDmrs, hallOnDmrs, hblocks, hdmrs,
    ok_bind]
  rw [Size.add_of_lt (by omega), ok_bind, Size.sub_of_le hdmrsData, ok_bind, hmessage,
    ite_bind_eq hshares.ack_eq, ite_bind_eq hshares.reserved_eq, ite_bind_eq hshares.csi1_eq, hgroup,
    ok_bind, mul_group h (hshares.ack_le.trans hack), ok_bind,
    mul_group h (hshares.reserved_le.trans hack), ok_bind, mul_group h (hcsi1.trans hplain), ok_bind,
    mul_group h hdata]
  by_cases hdata : 0 < q.tbs
  · rw [if_pos hdata, ok_bind, ofShares, if_pos hdata]
    rfl
  · rw [if_neg hdata, ofShares, if_neg hdata]
    rfl

theorem exists_ofRequest (hlayers : 0 < q.layers) (hcsi2 : q.csi2Bits = 0) (halpha : q.alpha ≤ 1)
    (h : q.InReach) : ∃ b, ofRequest q = .ok b ∧ b.Sound q :=
  exists_ofRequest_of_isPart hlayers hcsi2 (isPart_of_le halpha) h

end Budget

end Uplink
