import Uplink.Proofs.Mapping.Rows
import Uplink.Proofs.ResourceGrid

/-!
# Writing to the grid

- `Written.rows_eq_ok`: rows on different ports are all there afterwards.
- `MappingRequest.Carries`: what a grid holds of a symbol; `writeSymbol_eq_ok` says that a symbol is
  carried once it is written and does not touch the others, and `write_eq_ok` that in the end all
  symbols are carried.
-/

namespace Uplink

/-- Each entry of a table of results is the result for the element in its place.
-/
theorem getElem?_of_mapM {α β : Type*} {f : α → Checked β} {l : List α} {ys : List β}
    (h : l.mapM f = .ok ys) {i : Nat} {y : β} (hy : ys[i]? = some y) :
    ∃ x, l[i]? = some x ∧ f x = .ok y := by
  induction l generalizing ys i with
  | nil =>
    cases h
    cases hy
  | cons x l ih =>
    rw [List.mapM_cons] at h
    obtain ⟨first, hfirst, h⟩ := bind_eq_ok.mp h
    obtain ⟨rest, hrest, h⟩ := bind_eq_ok.mp h
    obtain rfl := Except.ok.inj h
    cases i with
    | zero => exact ⟨x, rfl, Option.some.inj hy ▸ hfirst⟩
    | succ i => exact ih hrest hy

/-! ## Rows on several ports -/

namespace Written

variable {w w' : Written} {port symbol : Nat} {values : Array Complex}

/-- A row that is written without an error. An error of an earlier row would
have been kept. -/
theorem row_eq_ok (h : w.row port symbol values = .ok w') (herror : w'.error? = none) :
    w.error? = none ∧ w.grid.write port symbol 0 values = .ok (.ok w'.grid) := by
  unfold row at h
  cases hold : w.error? with
  | some e =>
    rw [hold] at h
    cases h
    rw [hold] at herror
    cases herror
  | none =>
    rw [hold] at h
    refine ⟨rfl, ?_⟩
    obtain ⟨outcome, hwrite, h⟩ := bind_eq_ok.mp h
    cases outcome with
    | error e =>
      cases h
      cases herror
    | ok grid =>
      cases h
      exact hwrite

/-- Rows on different ports of a symbol that are written without an error: each
port holds its row, and the rest of the grid is as it was. -/
theorem rows_eq_ok {n : Nat} {rows : List (Array Complex × Nat)}
    (hdistinct : (rows.map Prod.snd).Nodup) (hsize : ∀ x ∈ rows, x.1.size = n)
    (h : rows.foldlM (fun (w : Written) x => w.row x.2 symbol x.1) w = .ok w')
    (herror : w'.error? = none) :
    w.error? = none ∧ w'.grid.SameExtent w.grid ∧
      (∀ x ∈ rows, n < Size.limit ∧ w.grid.Spans n x.2 symbol ∧
        ∀ k < n, w'.grid.elementD x.2 symbol k = x.1.getD k Complex.zero) ∧
      ∀ port' symbol' k, w.grid.Contains port' symbol' k →
        symbol' ≠ symbol ∨ port' ∉ rows.map Prod.snd →
        w'.grid.elementD port' symbol' k = w.grid.elementD port' symbol' k := by
  induction rows generalizing w with
  | nil =>
    cases h
    exact ⟨herror, ⟨rfl, rfl, rfl⟩, fun x hx => absurd hx List.not_mem_nil, fun _ _ _ _ _ => rfl⟩
  | cons x rows ih =>
    obtain ⟨hx, hrows⟩ := List.forall_mem_cons.mp hsize
    obtain ⟨hfirst, hdistinct⟩ := List.nodup_cons.mp hdistinct
    rw [List.foldlM_cons, bind_eq_ok] at h
    obtain ⟨w₁, hwrite, h⟩ := h
    obtain ⟨herror₁, hextent, hwritten, hkept⟩ := ih hdistinct hrows h
    obtain ⟨herror₀, hgrid⟩ := row_eq_ok hwrite herror₁
    obtain ⟨hlimit, hspans, hgrid⟩ := ResourceGrid.write_eq_ok hgrid
    have hroom : 0 + x.1.size ≤ w.grid.subcarriers := hspans.length_le
    rw [Nat.zero_add, hx] at hlimit hspans
    have hextent₁ : w₁.grid.SameExtent w.grid := hgrid ▸ .overwrite ..
    refine ⟨herror₀, hextent.trans hextent₁, ?_, ?_⟩
    · refine List.forall_mem_cons.mpr ⟨⟨hlimit, hspans, ?_⟩, ?_⟩
      · intro k hk
        have hcontains := hspans.contains hk
        -- the ports of the other rows are different
        rw [hkept _ _ _ (hextent₁.contains.mpr hcontains) (.inr hfirst), hgrid,
          ResourceGrid.elementD_overwrite hcontains hspans.symbol_lt hroom,
          if_pos ⟨rfl, rfl, Nat.zero_le k, by rw [Nat.zero_add, hx]; exact hk⟩, Nat.sub_zero]
      · intro y hy
        obtain ⟨hlimit, hspans, helements⟩ := hwritten y hy
        exact ⟨hlimit, hextent₁.spans.mp hspans, helements⟩
    · intro port' symbol' k hcontains hother
      rw [List.map_cons, List.mem_cons, not_or] at hother
      rw [hkept _ _ _ (hextent₁.contains.mpr hcontains) (hother.imp_right And.right), hgrid,
        ResourceGrid.elementD_overwrite hcontains hspans.symbol_lt hroom, if_neg]
      rintro ⟨rfl, rfl, -⟩
      rcases hother with hother | ⟨hother, -⟩
      · exact hother rfl
      · exact hother rfl

end Written

/-! ## Symbols -/

namespace MappingRequest

variable {q : MappingRequest} {symbols : Array Complex} {layer done symbol : Nat} {onDmrs : Bool}
  {grid grid' : ResourceGrid}

theorem Row.congr {element element' : Nat → Complex}
    (h : q.Row symbols layer done onDmrs element) (hsame : ∀ k < q.width, element' k = element k) :
    q.Row symbols layer done onDmrs element' where
  data i k hk := by
    rw [hsame k (q.mem_dataSubcarriers.mp (List.mem_of_getElem? hk)).1]
    exact h.data i k hk
  empty k hk hdata hreference := by
    rw [hsame k hk]
    exact h.empty k hk hdata hreference

/-- A grid holds a symbol, before which `done` elements have been sent: each
layer on its port. -/
def Carries (q : MappingRequest) (symbols : Array Complex) (grid : ResourceGrid)
    (symbol done : Nat) : Prop :=
  ∀ layer port, q.ports[layer]? = some port →
    q.width < Size.limit ∧ grid.Spans q.width port symbol ∧
      q.Row symbols layer done (q.dmrsMask.contains symbol) (grid.elementD port symbol)

/-- The reference values of a symbol, if it has any. -/
def valuesOn (q : MappingRequest) (symbol : Nat) : Checked (Option (Array Complex)) :=
  if q.dmrsMask.contains symbol then some <$> q.reference.onSymbol q.blockMask symbol else .ok none

/-- There are reference values on the symbols of the mask and on no others. -/
theorem isSome_of_valuesOn {values : Option (Array Complex)} (h : q.valuesOn symbol = .ok values) :
    values.isSome = q.dmrsMask.contains symbol := by
  unfold valuesOn at h
  cases honDmrs : q.dmrsMask.contains symbol with
  | false =>
    rw [honDmrs, if_neg Bool.false_ne_true] at h
    cases h
    rfl
  | true =>
    rw [honDmrs, if_pos rfl] at h
    cases hfound : q.reference.onSymbol q.blockMask symbol with
    | error fault =>
      rw [hfound] at h
      cases h
    | ok found =>
      rw [hfound] at h
      cases h
      rfl

/-- A symbol is written port by port, after all its rows have been laid out. -/
theorem writeSymbol_eq {w : Written} (q : MappingRequest) (symbols : Array Complex)
    (done symbol : Nat) (h : w.error? = none) :
    q.writeSymbol symbols (done, w) symbol = (do
      let values ← q.valuesOn symbol
      let rows ← (List.range q.ports.length).mapM (q.layerRow symbols done values)
      let w ← (rows.zip q.ports).foldlM (fun (w : Written) x => w.row x.2 symbol x.1) w
      return (done + (q.dataSubcarriers (q.dmrsMask.contains symbol)).length, w)) := by
  rw [writeSymbol, valuesOn]
  dsimp only
  rw [h, Option.isSome_none, if_neg Bool.false_ne_true]
  cases q.dmrsMask.contains symbol <;> rfl

/-- Data elements of a symbol. -/
def elementsOn (q : MappingRequest) (symbol : Nat) : Nat :=
  (q.dataSubcarriers (q.dmrsMask.contains symbol)).length

/-- A symbol that is written without an error is held by the grid. The others
stay as they are, so that symbols written before are still held. -/
theorem writeSymbol_eq_ok {w w' : Written} {done' : Nat} (hq : q.KeepsApart)
    (hports : q.ports.Nodup) (h : q.writeSymbol symbols (done, w) symbol = .ok (done', w'))
    (herror : w'.error? = none) :
    w.error? = none ∧ done' = done + q.elementsOn symbol ∧ w'.grid.SameExtent w.grid ∧
      q.Carries symbols w'.grid symbol done ∧
      ∀ port symbol' k, w.grid.Contains port symbol' k → symbol' ≠ symbol →
        w'.grid.elementD port symbol' k = w.grid.elementD port symbol' k := by
  cases hold : w.error? with
  | some e =>
    -- nothing is written after an error
    rw [writeSymbol] at h
    dsimp only at h
    rw [hold] at h
    cases h
    rw [hold] at herror
    cases herror
  | none =>
    rw [q.writeSymbol_eq symbols done symbol hold] at h
    obtain ⟨values, hvalues, h⟩ := bind_eq_ok.mp h
    obtain ⟨rows, hrows, h⟩ := bind_eq_ok.mp h
    obtain ⟨written, hloop, h⟩ := bind_eq_ok.mp h
    obtain ⟨rfl, rfl⟩ := Prod.mk.inj (Except.ok.inj h)
    have hsome : values.isSome = q.dmrsMask.contains symbol :=
      isSome_of_valuesOn hvalues
    have hlength : rows.length = q.ports.length := by
      rw [length_of_mapM hrows, List.length_range]
    have hrow {layer : Nat} {row : Array Complex} (hlayer : rows[layer]? = some row) :
        row.size = q.width ∧ q.Row symbols layer done (q.dmrsMask.contains symbol)
          fun k => row.getD k Complex.zero := by
      obtain ⟨l, hl, hlaid⟩ := getElem?_of_mapM hrows hlayer
      obtain ⟨hlt, rfl⟩ := List.getElem?_eq_some_iff.mp hl
      rw [List.getElem_range] at hlaid
      exact hsome ▸ row_of_layerRow hq (by simpa using hlt) hlaid
    have hports' : (rows.zip q.ports).map Prod.snd = q.ports :=
      List.map_snd_zip (Nat.le_of_eq hlength.symm)
    have hsizes : ∀ x ∈ rows.zip q.ports, x.1.size = q.width := by
      intro x hx
      obtain ⟨i, hi⟩ := List.mem_iff_getElem?.mp hx
      exact (hrow (List.getElem?_zip_eq_some.mp hi).1).1
    obtain ⟨-, hextent, hwritten, hkept⟩ :=
      Written.rows_eq_ok (hports'.symm ▸ hports) hsizes hloop herror
    refine ⟨rfl, rfl, hextent, fun layer port hport => ?_, fun port symbol' k hcontains hne =>
      hkept port symbol' k hcontains (.inl hne)⟩
    have hlt : layer < rows.length := hlength ▸ (List.getElem?_eq_some_iff.mp hport).1
    have hlaid : rows[layer]? = some rows[layer] := List.getElem?_eq_getElem hlt
    have hmem : (rows[layer], port) ∈ rows.zip q.ports :=
      List.mem_iff_getElem?.mpr ⟨layer, List.getElem?_zip_eq_some.mpr ⟨hlaid, hport⟩⟩
    obtain ⟨hlimit, hspans, helements⟩ := hwritten _ hmem
    exact ⟨hlimit, hextent.spans.mpr hspans, (hrow hlaid).2.congr helements⟩

/-- A codeword that is written without an error is held by the grid, symbol by
symbol. The invariant of the loop says so of every symbol that is done. -/
theorem write_eq_ok {codeword : Bits} (hq : q.KeepsApart) (hports : q.ports.Nodup)
    (h : q.write grid codeword = .ok ⟨grid', none⟩) :
    let times := List.range' q.firstSymbol q.symbolCount
    let scrambled := Scrambling.scramble codeword q.rnti q.cellId
    let symbols := (Array.range (codeword.size / q.modulation.order)).map
      (q.modulation.symbolAt scrambled)
    0 < q.ports.length ∧
      (times.map q.elementsOn).sum * q.ports.length = codeword.size / q.modulation.order ∧
      ∀ earlier symbol later, times = earlier ++ symbol :: later →
        q.Carries symbols grid' symbol (earlier.map q.elementsOn).sum := by
  intro times scrambled symbols
  unfold write at h
  simp only [bind_eq_ok, require_eq_ok, beq_iff_eq] at h
  obtain ⟨-, -, rest, hrest, -, -, found, hfound, total, -, -, hcount, ⟨done, w⟩, hloop, h⟩ := h
  obtain rfl := Except.ok.inj h
  obtain ⟨hpos, -⟩ := Size.mod_eq_ok.mp hrest
  obtain ⟨-, -, hfound⟩ := bind_eq_ok.mp hfound
  obtain rfl : symbols = found := Except.ok.inj hfound
  have hsize : symbols.size = codeword.size / q.modulation.order := by
    rw [Array.size_map, Array.size_range]
  refine ⟨Nat.pos_of_ne_zero fun hzero => hpos (by rw [hzero, Nat.mul_zero]), ?_, ?_⟩
  · rw [← hsize, ← hcount, List.length_flatMap]
    rfl
  · have hheld := foldlM_invariant
      (fun seen (state : Nat × Written) => state.2.error? = none →
        state.1 = (seen.map q.elementsOn).sum ∧
        ∀ earlier symbol later, seen = earlier ++ symbol :: later →
          q.Carries symbols state.2.grid symbol (earlier.map q.elementsOn).sum) hloop
      (fun _ => ⟨rfl, fun _ _ _ hsplit => by simp at hsplit⟩) ?_
    · exact (hheld rfl).2
    · rintro seen symbol rest ⟨done, w⟩ ⟨done', w'⟩ hsplit hseen hstep herror
      obtain ⟨herror₀, hdone, hextent, hcarries, hkept⟩ :=
        writeSymbol_eq_ok hq hports hstep herror
      obtain ⟨hbefore, hearlier⟩ := hseen herror₀
      dsimp only at hbefore hearlier ⊢
      subst hbefore
      refine ⟨by rw [hdone, List.map_append, List.sum_append, List.map_singleton,
        List.sum_singleton], fun earlier symbol' later hsplit' => ?_⟩
      rcases List.eq_nil_or_concat' later with rfl | ⟨later, last, rfl⟩
      · -- the symbol that was written last
        obtain ⟨rfl, hlast⟩ := List.append_inj' hsplit' rfl
        obtain rfl := List.singleton_inj.mp hlast
        exact hcarries
      · have hseen : seen = earlier ++ symbol' :: later := by
          have := hsplit'
          rw [← List.cons_append, ← List.append_assoc] at this
          exact (List.append_inj' this rfl).1
        have hne : symbol' ≠ symbol := by
          rintro rfl
          have hnodup : times.Nodup := List.nodup_range'
          rw [show times = seen ++ symbol' :: rest from hsplit, hseen, List.append_assoc] at hnodup
          refine (List.nodup_cons.mp (List.nodup_append.mp hnodup).2.1).1 ?_
          exact List.mem_append_right _ List.mem_cons_self
        intro layer port hport
        obtain ⟨hlimit, hspans, hrow⟩ := hearlier earlier symbol' later hseen layer port hport
        exact ⟨hlimit, hextent.spans.mpr hspans, hrow.congr fun k hk =>
          hkept port symbol' k (hspans.contains hk) hne⟩

end MappingRequest

end Uplink
