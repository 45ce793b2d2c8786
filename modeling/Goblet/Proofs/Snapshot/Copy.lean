import Goblet.Proofs.Session.Stability
import Goblet.Proofs.Snapshot.Restore

/-!
# Snapshots rebuild the graph of values

A dump is taken of memory and restored where the symbols are the same. Everything that a dump reaches is then there once
more in fresh storage.

* `Dump.restore_take`: if all that is reached from the dumped slots can be captured and function slots reach no heap
  cell, then the dump is taken and restored, each variable gets one write, and there is a bijection from the heap cells
  that were reached onto the new ones under which all values that were written and all contents are alike.
* `Dump.restore_take_pointer`: a slot of a function symbol that holds a pointer instead is not restored, since what it
  holds is captured on its own there and its cells are numbered anew.
-/

namespace Goblet

open List

open Relation

namespace Dump

/-- A value that a dump captures: it is in the slot of a variable or a function. -/
def Root (symbols : SymbolTable) (mem : Array Value) (v : Value) : Prop :=
  ∃ key s i, symbols.lookup? key = some s ∧ (DumpKind.ofSymbol? s.kind).isSome ∧ s.addr = .global i ∧ mem[i]? = some v

/-- A value that is reached from a slot that a dump captures. -/
def Reached (symbols : SymbolTable) (h : Store) (mem : Array Value) (x : Value) : Prop :=
  ∃ v, Root symbols mem v ∧ h.Reaches v x

variable {symbols : SymbolTable} {h : Store} {mem : Array Value} {G P : Value → Prop} {s : Symbol} {v x : Value}
  {t : CellTable}

/-! ## Taking -/

theorem globals_mem {key : String} {kind : DumpKind} {i : Nat} (hm : (key, s) ∈ symbols.entries)
    (hk : DumpKind.ofSymbol? s.kind = some kind) (ha : s.addr = .global i) :
    (i, key, kind, s.ty) ∈ globals symbols := by
  rw [globals, mem_mergeSort, mem_filterMap]
  exact ⟨(key, s), hm, by simp only [hk, ha]⟩

/-- A record is of a symbol and shows the value in its slot. -/
structure Shown (h : Store) (mem : Array Value) (R : Nat → Nat → Prop) (g : Nat × String × DumpKind × Ty)
    (r : DumpRecord) : Prop where
  head : (r.index, r.name, r.kind, r.typeName) = (g.1, g.2.1, g.2.2.1, g.2.2.2.text)
  value : ∃ v, mem[g.1]? = some v ∧ r.value.Shows R h v

theorem captureAll_shows (hG : h.Region G) : ∀ {gs : List (Nat × String × DumpKind × Ty)} {t : CellTable},
    (∀ g ∈ gs, ∀ v, mem[g.1]? = some v → G v) → t.Sound h G →
    ∃ rs t', captureAll h mem gs t = .ok (rs, t') ∧ t'.Sound h G ∧ t.Grows h t' ∧
      List.Forall₂ (Shown h mem t'.Has) (gs.filter (·.1 < mem.size)) rs
  | [], t, _, ht => ⟨[], t, rfl, ht, .refl t, .nil⟩
  | (i, name, kind, ty) :: gs, t, hv, ht => by
    have hrest := fun g hg => hv g (mem_cons_of_mem (i, name, kind, ty) hg)
    cases hm : mem[i]? with
    | none =>
      obtain ⟨rs, t', hc, ht', hg, hall⟩ := captureAll_shows hG hrest ht
      have hi : ¬i < mem.size := by
        rw [Array.getElem?_eq_none_iff] at hm
        omega
      refine ⟨rs, t', ?_, ht', hg, ?_⟩
      · rw [captureAll, hm]
        exact hc
      · rw [filter_cons_of_neg (by simpa using hi)]
        exact hall
    | some v =>
      obtain ⟨d, t1, hr, ht1, hg1, hd⟩ := DumpValue.capture_shows hG (hv _ (.head _) v hm) ht
      obtain ⟨rs, t', hc, ht', hg, hall⟩ := captureAll_shows hG hrest ht1
      have hi : i < mem.size := (Array.getElem?_eq_some_iff.mp hm).1
      refine ⟨⟨i, name, kind, ty.text, d⟩ :: rs, t', ?_, ht', hg1.trans hg, ?_⟩
      · rw [captureAll, hm]
        simp only [hr, bind, Except.bind, hc]
        rfl
      · rw [filter_cons_of_pos (by simpa using hi)]
        exact .cons ⟨rfl, v, hm, hd.mono hg.has (.refl _)⟩ hall

/-! ## Everything reached is numbered -/

theorem shows_of_reaches {R : Nat → Nat → Prop}
    (hR : ∀ n c, R n c → ∃ (d : DumpValue) (x : Value), h.cell? c = some x ∧ d.Shows R h x)
    (hv : ∃ d : DumpValue, d.Shows R h v) (hx : h.Reaches v x) : ∃ e : DumpValue, e.Shows R h x := by
  induction hx with
  | refl => exact hv
  | tail _ hl ih =>
    obtain ⟨d, hd⟩ := ih
    exact DumpValue.shows_of_leads hR hd hl

/-! ## Taking and restoring -/

/-- What was reached from the dumped slots of one store is in another store again, in cells that are new there: under a
renaming of cells, which is one to one onto the new cells, contents are alike. Nothing else in the other store has
changed. -/
structure Rebuilt (symbols : SymbolTable) (h : Store) (mem : Array Value) (φ : Nat → Nat) (old new : Store) : Prop where
  bijection : Set.BijOn φ {c | Reached symbols h mem (.heap c)} {c | old.cells.size ≤ c ∧ c < new.cells.size}
  contents : ∀ c, Reached symbols h mem (.heap c) →
    ∃ x x', h.cell? c = some x ∧ new.cell? (φ c) = some x' ∧ h.Alike φ new x x'
  cells : ∀ c < old.cells.size, new.cell? c = old.cell? c
  aggregates : old.Extends new

theorem checkRecord_ok {r : DumpRecord} {size : Nat} (hi : r.index < size)
    (hs : symbols.lookup? r.name = some s) (ha : s.addr = .global r.index)
    (hk : DumpKind.ofSymbol? s.kind = some r.kind) (ht : s.ty.text = r.typeName) :
    checkRecord symbols size r = .ok () := by
  have hi' : ¬size ≤ r.index := by omega
  simp only [checkRecord, if_neg hi', hs, ha, hk, ht, ne_eq, not_true_eq_false, if_false]
  rfl

theorem root_of_mem_globals (hs : symbols.Nodup) {g : Nat × String × DumpKind × Ty} {v : Value}
    (hg : g ∈ globals symbols) (hv : mem[g.1]? = some v) : Root symbols mem v := by
  obtain ⟨s, hm, -, ha, hk, -⟩ := mem_globals hg
  exact ⟨g.2.1, s, g.1, SymbolTable.lookup?_of_mem_entries hs hm, by rw [hk]; rfl, ha, hv⟩

theorem exists_right {α β : Type} {S : α → β → Prop} {as : List α} {bs : List β} {a : α} (hs : List.Forall₂ S as bs)
    (ha : a ∈ as) : ∃ b ∈ bs, S a b := by
  obtain ⟨i, hi, rfl⟩ := getElem_of_mem ha
  have hi' := hs.length_eq ▸ hi
  exact ⟨_, getElem_mem hi', hs.get hi hi'⟩

theorem shown_of_root {R : Nat → Nat → Prop} {rs : List DumpRecord} {v : Value}
    (hall : List.Forall₂ (Shown h mem R) ((globals symbols).filter (·.1 < mem.size)) rs)
    (hv : Root symbols mem v) : ∃ d : DumpValue, d.Shows R h v := by
  obtain ⟨key, s, i, hl, hk, ha, hi⟩ := hv
  obtain ⟨kind, hk⟩ := Option.isSome_iff_exists.mp hk
  have hg := globals_mem (SymbolTable.mem_entries_of_lookup? hl) hk ha
  have hlt : i < mem.size := (Array.getElem?_eq_some_iff.mp hi).1
  have hmem : (i, key, kind, s.ty) ∈ (globals symbols).filter (·.1 < mem.size) :=
    mem_filter.mpr ⟨hg, by simpa using hlt⟩
  obtain ⟨r, -, hr⟩ := exists_right hall hmem
  obtain ⟨u, hu, hd⟩ := hr.value
  rw [hi] at hu
  cases hu
  exact ⟨r.value, hd⟩

theorem region_reached (hheld : ∀ x, Reached symbols h mem x → h.holds x = true)
    (hkeep : ∀ x, Reached symbols h mem x → x.keepable = true)
    (hcycle : ∀ x, Reached symbols h mem x → ¬TransGen h.Part x x) : h.Region (Reached symbols h mem) where
  closed := by
    rintro v x ⟨r, hr, hv⟩ hx
    exact ⟨r, hr, .tail hv hx⟩
  named := fun hv => Store.names_of_holds (hheld _ hv)
  keepable := hkeep _
  acyclic := hcycle _

/-- A dump that was taken with a table of cells: its records show the slots, its cells show the contents, and the cells
are all that are reached. -/
structure Taken (symbols : SymbolTable) (h : Store) (mem : Array Value) (d : Dump) (t : CellTable) : Prop where
  sound : t.Sound h (Reached symbols h mem)
  records : List.Forall₂ (Shown h mem t.Has) ((globals symbols).filter (·.1 < mem.size)) d.records
  size : d.cells.length = t.met.size
  cells : ∀ n c, t.Has n c → ∃ e x, d.cells[n]? = some e ∧ h.cell? c = some x ∧ e.Shows t.Has h x
  numbered : ∀ c, Reached symbols h mem (.heap c) → ∃ n, t.Has n c

theorem take_shows (hs : symbols.Nodup) (hG : h.Region (Reached symbols h mem)) :
    ∃ d t, take symbols h mem = .ok d ∧ Taken symbols h mem d t := by
  have hroots : ∀ g ∈ globals symbols, ∀ v, mem[g.1]? = some v → Reached symbols h mem v := fun g hg v hv =>
    ⟨v, root_of_mem_globals hs hg hv, .refl⟩
  obtain ⟨rs, t, hc, ht, hgrow, hall⟩ := captureAll_shows hG hroots CellTable.Sound.empty
  -- All cells are new in the table that began empty, so the contents of all are shown.
  have hfilled : ∀ n c, t.Has n c → ∃ d x, t.contents[n]? = some d ∧ h.cell? c = some x ∧ d.Shows t.Has h x :=
    fun n c hn => hgrow.filled n c (Nat.zero_le _) hn
  refine ⟨⟨rs, t.contents.toList⟩, t, ?_, ht, hall, ?_, ?_, ?_⟩
  · simp only [take, hc, bind, Except.bind]
    rfl
  · rw [Array.length_toList, ht.size]
  · simpa only [Array.getElem?_toList] using hfilled
  · rintro c ⟨v, hv, hr⟩
    have hcells : ∀ n c, t.Has n c → ∃ (d : DumpValue) (x : Value), h.cell? c = some x ∧ d.Shows t.Has h x := by
      intro n c hn
      obtain ⟨d, x, -, hx, hd⟩ := hfilled n c hn
      exact ⟨d, x, hx, hd⟩
    obtain ⟨d, hd⟩ := shows_of_reaches hcells (shown_of_root hall hv) hr
    obtain ⟨n, -, hn⟩ := DumpValue.shows_heap hd
    exact ⟨n, hn⟩

section Restoring

variable {d : Dump} {t : CellTable} {old : Store} {mem' : Array Value}

/-- Every record of a dump that was taken can be restored where the slots of functions are as they were. -/
theorem Taken.fits (hd : Taken symbols h mem d t) (hs : symbols.Nodup) (hsize : mem.size ≤ mem'.size)
    (hfunc : ∀ key s i, symbols.lookup? key = some s → s.kind = .func → s.addr = .global i → i < mem.size →
      ∃ v v', mem[i]? = some v ∧ mem'[i]? = some v' ∧ h.Alike id old v v' ∧
        ∀ x, old.Reaches v' x → x.still = true ∧ old.holds x = true) :
    ∀ r ∈ d.records, Fits symbols t.Has h old mem' r := by
  intro r hr
  obtain ⟨⟨i, name, kind, ty⟩, hg, hshown⟩ := exists_right hd.records.flip hr
  rw [mem_filter, decide_eq_true_eq] at hg
  obtain ⟨s, hm, -, ha, hk, hty⟩ := mem_globals hg.1
  have hl := SymbolTable.lookup?_of_mem_entries hs hm
  obtain ⟨v, hv, hval⟩ := hshown.value
  have hhead := hshown.head
  simp only [Prod.mk.injEq] at hhead
  obtain ⟨rfl, rfl, rfl, htext⟩ := hhead
  refine ⟨checkRecord_ok (Nat.lt_of_lt_of_le hg.2 hsize) hl ha hk (by rw [htext, hty]), fun _ => ⟨v, hval⟩, ?_⟩
  intro hkind h' hext
  have hsk : s.kind = .func := by
    rw [hkind] at hk
    cases hsk : s.kind <;> rw [hsk] at hk <;> cases hk
  obtain ⟨u, v', hu, hv', halike, hfixed⟩ := hfunc _ s _ hl hsk ha hg.2
  rw [hv] at hu
  cases hu
  rw [hv', Option.bind_some]
  exact hval.ofValue?_same halike (fun x hx => ⟨(hfixed x hx).1, Store.names_of_holds (hfixed x hx).2⟩) hext

/-- A dump that was taken restores: writes and new cells are shown as the records and cells of the dump say. -/
theorem Taken.restore (hd : Taken symbols h mem d t) (hmaps : ∀ m < h.maps.size, Entries.Ordered (h.entries m))
    (hfits : ∀ r ∈ d.records, Fits symbols t.Has h old mem' r) :
    ∃ ws new, restore symbols old mem' d = .ok (ws, new) ∧
      List.Forall₂ (fun r w => w.1 = r.index ∧ r.value.Shows (DumpValue.From old.cells.size) new w.2)
        (d.records.filter (·.kind = .var)) ws ∧
      new.cells.size = old.cells.size + t.met.size ∧ (∀ c < old.cells.size, new.cell? c = old.cell? c) ∧
      old.Extends new ∧ ∀ n e, d.cells[n]? = some e →
        ∃ v, new.cell? (old.cells.size + n) = some v ∧ e.Shows (DumpValue.From old.cells.size) new v := by
  have ho : DumpValue.Origin h t.Has d.cells.length := ⟨hmaps, fun n c hn => hd.size ▸ hn.lt⟩
  have hcells : ∀ e ∈ d.cells, ∃ x, e.Shows t.Has h x := by
    intro e he
    obtain ⟨n, hn, rfl⟩ := getElem_of_mem he
    have hlt : n < t.met.size := hd.size ▸ hn
    obtain ⟨e', x, he', -, hx⟩ := hd.cells n _ (Array.getElem?_eq_getElem hlt)
    rw [getElem?_eq_getElem hn] at he'
    cases he'
    exact ⟨x, hx⟩
  -- The store with the new cells, before they are filled.
  let made : Store := { old with cells := old.cells ++ Array.replicate d.cells.length .nil }
  have hmade : made.cells.size = old.cells.size + d.cells.length := by simp [made]
  have hadd : old.Extends made := ⟨fun _ _ => rfl, fun _ _ => rfl⟩
  have hroom : old.cells.size + 0 + d.cells.length ≤ made.cells.size := Nat.le_of_eq hmade.symm
  obtain ⟨h1, hr1, he1, hs1, hlow1, hall1⟩ := restoreCells_shows ho hcells hroom
  obtain ⟨ws, new, hw, he2, hc2, hall2⟩ := writes_shows ho (hadd.trans he1) hfits
  refine ⟨ws, new, ?_, hall2, ?_, ?_, ?_, ?_⟩
  · rw [Dump.restore]
    rw [hr1]
    exact hw
  · rw [hc2, hs1, hmade, hd.size]
  · intro c hc
    rw [Store.cell?, hc2, hlow1 c (by omega)]
    exact Array.getElem?_append_left hc
  · exact (hadd.trans he1).trans he2
  · intro n e he
    obtain ⟨v, hv, hshow⟩ := hall1 n e he
    refine ⟨v, ?_, hshow.extend he2⟩
    rw [Store.cell?, hc2]
    exact hv

end Restoring

/-- The new cell for a cell that has a number. -/
def renumber (base : Nat) (t : CellTable) (c : Nat) : Nat := base + t.met.toList.idxOf c

theorem renumber_of_has (ht : t.Sound h G) {base n c : Nat} (hn : t.Has n c) :
    renumber base t c = base + n := by
  obtain ⟨hlt, rfl⟩ := Array.getElem?_eq_some_iff.mp hn
  have := ht.nodup.idxOf_getElem n (by simpa using hlt)
  rw [renumber]
  simpa using this

/-- Cells that are reached and new cells belong together one to one. -/
theorem Taken.bijection {d : Dump} (hd : Taken symbols h mem d t) (base : Nat) :
    Set.BijOn (renumber base t) {c | Reached symbols h mem (.heap c)} {c | base ≤ c ∧ c < base + t.met.size} := by
  refine ⟨fun c hc => ?_, fun c hc c' hc' heq => ?_, fun k hk => ?_⟩
  · obtain ⟨n, hn⟩ := hd.numbered c hc
    rw [renumber_of_has hd.sound hn]
    have := hn.lt
    exact ⟨by omega, by omega⟩
  · obtain ⟨n, hn⟩ := hd.numbered c hc
    obtain ⟨n', hn'⟩ := hd.numbered c' hc'
    rw [renumber_of_has hd.sound hn, renumber_of_has hd.sound hn', Nat.add_right_inj] at heq
    subst heq
    exact Option.some.inj (hn.symm.trans hn')
  · obtain ⟨hle, hlt⟩ := hk
    have hn : k - base < t.met.size := by omega
    refine ⟨t.met[k - base], hd.sound.region _ (Array.getElem_mem hn), ?_⟩
    rw [renumber_of_has hd.sound (Array.getElem?_eq_getElem hn)]
    omega

/-- What holds of all roots and of whatever such a value leads to holds of all that is reached. -/
theorem Reached.induction (hroot : ∀ key s i v, (key, s) ∈ symbols.entries → s.addr = .global i →
    mem[i]? = some v → P v) (hleads : ∀ v x, P v → h.Leads v x → P x) {x : Value} (hx : Reached symbols h mem x) :
    P x := by
  obtain ⟨v, ⟨key, s, i, hl, -, ha, hv⟩, hr⟩ := hx
  induction hr with
  | refl => exact hroot key s i v (SymbolTable.mem_entries_of_lookup? hl) ha hv
  | tail _ hl ih => exact hleads _ _ ih hl

/-- No cycle goes through parts only, if parts have less of something. -/
theorem acyclic_of_measure (μ : Value → Nat) (hleads : ∀ v x, P v → h.Leads v x → P x)
    (hμ : ∀ v x, P v → h.Part v x → μ x < μ v) {x : Value} (hx : P x) : ¬TransGen h.Part x x := by
  have less : ∀ {a b : Value}, P a → TransGen h.Part a b → P b ∧ μ b < μ a := by
    intro a b ha hab
    induction hab with
    | single hp => exact ⟨hleads _ _ ha (.part hp), hμ _ _ ha hp⟩
    | tail _ hp ih => exact ⟨hleads _ _ ih.1 (.part hp), Nat.lt_trans (hμ _ _ ih.1 hp) ih.2⟩
  exact fun hc => Nat.lt_irrefl _ (less hx hc).2

/-- A dump of memory restores where the symbols are the same and the slots of functions are as they were, without heap
cells or NaN: each variable gets one write, and what the dump reached is rebuilt in new cells, with values alike. -/
theorem restore_take (symbols : SymbolTable) (hs : symbols.Nodup) (h : Store) (mem : Array Value)
    (hmaps : ∀ m < h.maps.size, Entries.Ordered (h.entries m))
    (hheld : ∀ x, Reached symbols h mem x → h.holds x = true)
    (hkeep : ∀ x, Reached symbols h mem x → x.keepable = true)
    (hcycle : ∀ x, Reached symbols h mem x → ¬TransGen h.Part x x)
    (old : Store) (mem' : Array Value) (hsize : mem.size ≤ mem'.size)
    (hfunc : ∀ key s i, symbols.lookup? key = some s → s.kind = .func → s.addr = .global i → i < mem.size →
      ∃ v v', mem[i]? = some v ∧ mem'[i]? = some v' ∧ h.Alike id old v v' ∧
        ∀ x, old.Reaches v' x → x.still = true ∧ old.holds x = true) :
    ∃ d ws new φ, take symbols h mem = .ok d ∧ restore symbols old mem' d = .ok (ws, new) ∧
      d.records.map (fun r => (r.index, r.name, r.kind)) =
        ((globals symbols).filter (·.1 < mem.size)).map (fun g => (g.1, g.2.1, g.2.2.1)) ∧
      List.Forall₂ (fun r w => w.1 = r.index ∧ ∃ v, mem[r.index]? = some v ∧ h.Alike φ new v w.2)
        (d.records.filter (·.kind = .var)) ws ∧
      Rebuilt symbols h mem φ old new := by
  obtain ⟨d, t, htake, hd⟩ := take_shows hs (region_reached hheld hkeep hcycle)
  obtain ⟨ws, new, hrest, hws, hnew, hlow, hext, hcells⟩ := hd.restore hmaps (hd.fits hs hsize hfunc)
  have hφ : ∀ n c c', t.Has n c → DumpValue.From old.cells.size n c' → c' = renumber old.cells.size t c := by
    intro n c c' hn hc'
    rw [renumber_of_has hd.sound hn]
    exact hc'
  refine ⟨d, ws, new, renumber old.cells.size t, htake, hrest, ?_, ?_, ?_, ?_, hlow, hext⟩
  · symm
    rw [← forall₂_eq_eq_eq, forall₂_map_left_iff, forall₂_map_right_iff]
    refine hd.records.imp fun g r hr => ?_
    have := hr.head
    simp only [Prod.mk.injEq] at this ⊢
    exact ⟨this.1.symm, this.2.1.symm, this.2.2.1.symm⟩
  · refine ((forall₂_and_left _ _).mpr ⟨fun _ hr => hr, hws⟩).imp fun r w ⟨hr, hw⟩ => ⟨hw.1, ?_⟩
    obtain ⟨g, -, hshown⟩ := exists_right hd.records.flip (mem_of_mem_filter hr)
    obtain ⟨v, hv, hshow⟩ := hshown.value
    have hindex : r.index = g.1 := congrArg Prod.fst hshown.head
    exact ⟨v, hindex ▸ hv, hshow.alike hφ hw.2⟩
  · rw [hnew]
    exact hd.bijection old.cells.size
  · intro c hc
    obtain ⟨n, hn⟩ := hd.numbered c hc
    obtain ⟨e, x, he, hx, hshow⟩ := hd.cells n c hn
    obtain ⟨x', hx', hshow'⟩ := hcells n e he
    exact ⟨x, x', hx, by rw [renumber_of_has hd.sound hn]; exact hx', hshow.alike hφ hshow'⟩

/-- A cell that leads to itself, a slice that shares it, a map with a NaN, and a function whose slot was set to nil. -/
theorem restore_take_cyclic :
    let symbols : SymbolTable := ⟨[("main/p", ⟨.var, .global 0, .any, none⟩),
      ("main/q", ⟨.var, .global 1, .any, none⟩), ("main/f", ⟨.func, .global 2, .func [] [] false, none⟩),
      ("main/g", ⟨.func, .global 3, .func [] [] false, none⟩)]⟩
    let h : Store := ⟨#[.struct [.int 1, .heap 0, .map 0]], #[#[.heap 0]], #[[(.str "k", .float ⟨0x7FF8000000000001⟩)]]⟩
    let mem : Array Value := #[.heap 0, .slice ⟨0, 0, 1⟩, .func 4, .nil]
    ∃ d ws new φ, take symbols h mem = .ok d ∧ restore symbols .empty mem d = .ok (ws, new) ∧
      List.Forall₂ (fun r w => w.1 = r.index ∧ ∃ v, mem[r.index]? = some v ∧ h.Alike φ new v w.2)
        (d.records.filter (·.kind = .var)) ws ∧
      Rebuilt symbols h mem φ .empty new := by
  intro symbols h mem
  let P : Value → Prop := fun v => v = .heap 0 ∨ v = .slice ⟨0, 0, 1⟩ ∨ v = .func 4 ∨
    v = .struct [.int 1, .heap 0, .map 0] ∨ v = .int 1 ∨ v = .map 0 ∨
    v = .float ⟨0x7FF8000000000001⟩ ∨ v = .nil
  have hroot : ∀ key s i v, (key, s) ∈ symbols.entries → s.addr = .global i → mem[i]? = some v → P v := by
    intro key s i v hm ha hv
    simp only [symbols, mem_cons, Prod.mk.injEq, not_mem_nil, or_false] at hm
    rcases hm with ⟨-, rfl⟩ | ⟨-, rfl⟩ | ⟨-, rfl⟩ | ⟨-, rfl⟩ <;> cases ha <;> cases hv
    · exact .inl rfl
    · exact .inr (.inl rfl)
    · exact .inr (.inr (.inl rfl))
    · exact .inr (.inr (.inr (.inr (.inr (.inr (.inr rfl))))))
  have hparts : ∀ v x, P v → h.Part v x → (v = .slice ⟨0, 0, 1⟩ ∧ x = .heap 0) ∨
    (v = .map 0 ∧ x = .float ⟨0x7FF8000000000001⟩) ∨
      (v = .struct [.int 1, .heap 0, .map 0] ∧ (x = .int 1 ∨ x = .heap 0 ∨ x = .map 0)) := by
    rintro v x (rfl | rfl | rfl | rfl | rfl | rfl | rfl | rfl) (hm | hm | hm)
    · exact .inl ⟨rfl, mem_singleton.mp hm⟩
    · simp only [mem_cons, not_mem_nil, or_false] at hm
      exact .inr (.inr ⟨rfl, hm⟩)
    · exact .inr (.inl ⟨rfl, congrArg Prod.snd (mem_singleton.mp hm)⟩)
  have hleads : ∀ v x, P v → h.Leads v x → P x := by
    rintro v x hv (hp | hc)
    · rcases hparts v x hv hp with ⟨-, rfl⟩ | ⟨-, rfl⟩ | ⟨-, rfl | rfl | rfl⟩ <;> simp [P]
    · rcases hv with hv | hv | hv | hv | hv | hv | hv | hv <;> cases hv
      cases hc
      exact .inr (.inr (.inr (.inl rfl)))
  -- A struct is above a slice or map, and these are above what has no parts.
  let μ : Value → Nat := fun v => match v with
    | .struct _ => 2
    | .slice _ | .map _ => 1
    | _ => 0
  have hμ : ∀ v x, P v → h.Part v x → μ x < μ v := by
    intro v x hv hp
    rcases hparts v x hv hp with ⟨rfl, rfl⟩ | ⟨rfl, rfl⟩ | ⟨rfl, rfl | rfl | rfl⟩ <;> decide
  have hP : ∀ x, Reached symbols h mem x → P x := fun x hx => hx.induction hroot hleads
  have hall : ∀ x, P x → h.holds x = true ∧ x.keepable = true := by
    rintro x (rfl | rfl | rfl | rfl | rfl | rfl | rfl | rfl) <;> exact ⟨rfl, rfl⟩
  have hlone : ∀ v, v = .func 4 ∨ v = .nil → ∀ x, Store.empty.Reaches v x → x.still = true ∧
    Store.empty.holds x = true := by
    rintro v (rfl | rfl) x hx <;> rcases hx.cases_head with rfl | ⟨_, ⟨⟨⟩⟩, -⟩ <;> exact ⟨rfl, rfl⟩
  obtain ⟨d, ws, new, φ, ht, hr, -, hws, hb⟩ := restore_take symbols (by simp [SymbolTable.Nodup, symbols]) h mem
    (by
      intro m hm
      obtain rfl : m = 0 := Nat.lt_one_iff.mp hm
      exact pairwise_singleton _ _)
    (fun x hx => (hall x (hP x hx)).1) (fun x hx => (hall x (hP x hx)).2)
    (fun x hx => acyclic_of_measure μ hleads hμ (hP x hx)) .empty mem (Nat.le_refl _)
    (by
      intro key s i hl hk ha _
      have hm := SymbolTable.mem_entries_of_lookup? hl
      simp only [symbols, mem_cons, Prod.mk.injEq, not_mem_nil, or_false] at hm
      rcases hm with ⟨-, rfl⟩ | ⟨-, rfl⟩ | ⟨-, rfl⟩ | ⟨-, rfl⟩ <;> cases hk <;> cases ha
      · exact ⟨_, _, rfl, rfl, .func 4, hlone _ (.inl rfl)⟩
      · exact ⟨_, _, rfl, rfl, .nil, hlone _ (.inr rfl)⟩)
  exact ⟨d, ws, new, φ, ht, hr, hws, hb⟩

/-- A pointer in the slot of a function symbol is captured on its own when it is checked, so its cell is not the one
that the dump has numbered. -/
theorem restore_take_pointer :
    let symbols : SymbolTable := ⟨[("main/p", ⟨.var, .global 0, .ptr .int, none⟩),
      ("main/f", ⟨.func, .global 1, .func [] [] false, none⟩)]⟩
    let h : Store := ⟨#[.int 1, .int 2], #[], #[]⟩
    let mem : Array Value := #[.heap 0, .heap 1]
    (∀ x, Reached symbols h mem x → x.keepable = true ∧ ¬TransGen h.Part x x) ∧
    ∃ d, take symbols h mem = .ok d ∧ restore symbols h mem d = .error (.immutable "main/f") := by
  intro symbols h mem
  let P : Value → Prop := fun v => v = .heap 0 ∨ v = .heap 1 ∨ v = .int 1 ∨ v = .int 2
  have hroot : ∀ key s i v, (key, s) ∈ symbols.entries → s.addr = .global i → mem[i]? = some v → P v := by
    intro key s i v hm ha hv
    simp only [symbols, mem_cons, Prod.mk.injEq, not_mem_nil, or_false] at hm
    rcases hm with ⟨-, rfl⟩ | ⟨-, rfl⟩ <;> cases ha <;> cases hv
    · exact .inl rfl
    · exact .inr (.inl rfl)
  have hleads : ∀ v x, P v → h.Leads v x → P x := by
    rintro v x (rfl | rfl | rfl | rfl) (⟨⟨⟩⟩ | hc)
    · cases hc
      exact .inr (.inr (.inl rfl))
    · cases hc
      exact .inr (.inr (.inr rfl))
  have hparts : ∀ v x, P v → ¬h.Part v x := by
    rintro v x (rfl | rfl | rfl | rfl) ⟨⟩
  refine ⟨fun x hx => ?_, ⟨[⟨0, "main/p", .var, "*int", .cell 0⟩, ⟨1, "main/f", .func, "func()", .cell 1⟩],
    [.int 1, .int 2]⟩, by cbv, by cbv⟩
  have hP := hx.induction hroot hleads
  refine ⟨?_, acyclic_of_measure (fun _ => 0) hleads (fun v x hv hp => (hparts v x hv hp).elim) hP⟩
  rcases hP with rfl | rfl | rfl | rfl <;> rfl

end Dump

end Goblet
