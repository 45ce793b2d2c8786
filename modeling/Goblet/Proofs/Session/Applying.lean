import Goblet.Session
import Goblet.Proofs.Effect
import Goblet.Proofs.Snapshot.Restore

/-!
# Applying a dump

A dump is applied as a whole or not at all, and it writes variables only (`Session.applyDump_frame`). The records, the
symbols and the cells are independent of each other: nothing is assumed of the dump, which need not come from a session.

* Restoring only makes new storage (`restore_grows`, `restoreCells_preserves`).
* Each record is checked against its symbol, a function record against the function that is there, and a variable record
  gives one write of its restored value (`writes_written`).
* Of several writes to a slot the last one stays (`write_last`).
-/

namespace Goblet

open List Array

/-! ## New storage -/

namespace Store

/-- The second store holds all arrays and maps of the first, and the same cells. -/
def Grown (h h' : Store) : Prop := h.Extends h' ∧ h'.cells = h.cells

/-- The second store holds all that the first holds, unchanged. -/
structure Preserved (h h' : Store) : Prop extends h.Extends h' where
  cells : ∀ c < h.cells.size, h'.cells[c]? = h.cells[c]?

variable {h h' h'' : Store}

theorem Grown.refl (h : Store) : h.Grown h := ⟨.refl h, rfl⟩

theorem Grown.trans (h1 : h.Grown h') (h2 : h'.Grown h'') : h.Grown h'' := ⟨h1.1.trans h2.1, h2.2.trans h1.2⟩

theorem Preserved.grown (h1 : h.Preserved h') (h2 : h'.Grown h'') : h.Preserved h'' :=
  ⟨h1.toExtends.trans h2.1, fun c hc => h2.2 ▸ h1.cells c hc⟩

end Store

namespace DumpValue

variable {base count : Nat} {h h' : Store}

/-- Restoring only makes arrays and maps. -/
def Grows {α : Type} (x : Restore α) : Prop := ∀ ⦃h a h'⦄, x.run h = .ok (a, h') → h.Grown h'

theorem Grows.pure {α : Type} (a : α) : Grows (Pure.pure a : Restore α) := fun _ _ _ hx => by
  cases hx
  exact .refl _

theorem Grows.bind {α β : Type} {x : Restore α} {f : α → Restore β} (hx : Grows x) (hf : ∀ a, Grows (f a)) :
    Grows (x >>= f) := by
  intro h b h' hr
  obtain ⟨⟨a, h1⟩, ha, hb⟩ := bind_ok.mp hr
  exact (hx ha).trans (hf a hb)

mutual

theorem restore_grows : ∀ d : DumpValue, Grows (d.restore base count)
  | .nil | .bool _ | .int _ | .float _ | .str _ | .addr _ | .func _ => by
    exact .pure _
  | .slice ds => by
    rw [restore]
    refine (restoreAll_grows ds).bind fun vs h _ _ hr => ?_
    cases hr
    exact ⟨.newSlice vs.toArray, rfl⟩
  | .map es => by
    refine (restoreEntries_grows es).bind fun es h _ _ hr => ?_
    cases hr
    exact ⟨.newMap es, rfl⟩
  | .struct ds => by
    rw [restore]
    exact (restoreAll_grows ds).bind fun _ => .pure _
  | .cell n => by
    rw [restore]
    split
    · exact .pure _
    · exact nofun

theorem restoreAll_grows : ∀ ds : List DumpValue, Grows (restoreAll base count ds)
  | [] => by
    exact .pure _
  | d :: ds => by
    rw [restoreAll]
    exact (restore_grows d).bind fun _ => (restoreAll_grows ds).bind fun _ => .pure _

theorem restoreEntries_grows : ∀ es : List (DumpValue × DumpValue), Grows (restoreEntries base count es)
  | [] => by
    exact .pure _
  | (k, d) :: es => by
    rw [restoreEntries]
    refine (restore_grows k).bind fun k => ?_
    split
    · exact nofun
    · exact (restore_grows d).bind fun _ => (restoreEntries_grows es).bind fun _ => .pure _

end

end DumpValue

namespace Dump

open DumpValue (ofValue? restore_grows)

variable {base count : Nat} {symbols : SymbolTable} {mem : Array Value}

theorem restoreCells_preserves : ∀ {ds : List DumpValue} {n : Nat} {h h' : Store}, restoreCells base count n ds h =
    .ok h' →
    h.Extends h' ∧ ∀ c < base, h'.cells[c]? = h.cells[c]?
  | [], _, h, _, hr => by
    cases hr
    exact ⟨.refl h, fun _ _ => rfl⟩
  | d :: ds, n, h, h', hr => by
    rw [restoreCells] at hr
    split at hr
    · cases hr
    · rename_i v h1 hd
      have hg := restore_grows d hd
      obtain ⟨he, hc⟩ := restoreCells_preserves hr
      refine ⟨(hg.1.trans (.setCell _ _)).trans he, fun c hlt => ?_⟩
      rw [hc c hlt, Store.setCell, getElem?_setIfInBounds_ne (by omega), hg.2]

/-! ## Records -/

/-- A record has its symbol: the name stands for the slot, with the kind and the type that are recorded. -/
def Matches (symbols : SymbolTable) (r : DumpRecord) : Prop :=
  ∃ s, symbols.lookup? r.name = some s ∧ s.addr = .global r.index ∧ DumpKind.ofSymbol? s.kind = some r.kind ∧
    s.ty.text = r.typeName

theorem matches_of_checkRecord {size : Nat} {r : DumpRecord} (h : checkRecord symbols size r = .ok ()) :
    r.index < size ∧ Matches symbols r := by
  unfold checkRecord at h
  rcases Nat.lt_or_ge r.index size with hlt | hge
  · rw [if_neg (Nat.not_le.mpr hlt)] at h
    refine ⟨hlt, ?_⟩
    cases hs : symbols.lookup? r.name with
    | none =>
      rw [hs] at h
      cases h
    | some s =>
      rw [hs] at h
      dsimp only at h
      by_cases ha : s.addr = .global r.index
      · by_cases hk : DumpKind.ofSymbol? s.kind = some r.kind
        · by_cases ht : s.ty.text = r.typeName
          · exact ⟨s, hs, ha, hk, ht⟩
          · rw [if_neg (not_not.mpr ha), if_neg (not_not.mpr hk), if_pos ht] at h
            cases h
        · rw [if_neg (not_not.mpr ha), if_pos hk] at h
          cases h
      · rw [if_pos ha] at h
        cases h
  · rw [if_pos hge] at h
    cases h

/-- What records write: each has its symbol, a function is what it was, and there is one write for each variable. -/
structure Written (symbols : SymbolTable) (mem : Array Value) (base count : Nat) (h : Store) (rs : List DumpRecord)
    (ws : List (Nat × Value)) (h' : Store) : Prop where
  grown : h.Grown h'
  checked : ∀ r ∈ rs, r.index < mem.size ∧ Matches symbols r
  funcs : ∀ r ∈ rs, r.kind = .func → ∃ h1 v w, h.Grown h1 ∧ mem[r.index]? = some v ∧ ofValue? h1 v = some w ∧
    w.same r.value = true
  vars : List.Forall₂ (fun r w => w.1 = r.index ∧ ∃ h1 h2, h.Grown h1 ∧
    (r.value.restore base count).run h1 = .ok (w.2, h2) ∧ h2.Grown h') (rs.filter (·.kind = .var)) ws

theorem writes_written : ∀ {rs : List DumpRecord} {h h' : Store} {ws : List (Nat × Value)},
    writes symbols mem base count rs h = .ok (ws, h') → Written symbols mem base count h rs ws h'
  | [], h, _, _, hr => by
    cases hr
    exact ⟨.refl h, by simp, by simp, .nil⟩
  | r :: rs, h, h', ws, hr => by
    obtain ⟨⟨⟩, hcheck, hr⟩ := bind_ok.mp hr
    have hmatch := matches_of_checkRecord hcheck
    cases hk : r.kind with
    | func =>
      rw [hk] at hr
      dsimp only at hr
      split at hr
      · rename_i w hw
        split at hr
        · cases hr
        rename_i hsame
        have ih := writes_written hr
        obtain ⟨v, hv, hvw⟩ := Option.bind_eq_some_iff.mp hw
        refine ⟨ih.grown, forall_mem_cons.mpr ⟨hmatch, ih.checked⟩, forall_mem_cons.mpr
          ⟨fun _ => ⟨h, v, w, .refl h, hv, hvw, by simpa using hsame⟩, ih.funcs⟩, ?_⟩
        rw [filter_cons_of_neg (by simp [hk])]
        exact ih.vars
      · cases hr
    | var =>
      rw [hk] at hr
      dsimp only at hr
      split at hr
      · cases hr
      · rename_i v h1 hrun
        obtain ⟨⟨us, h2⟩, hrest, hr⟩ := bind_ok.mp hr
        cases hr
        have ih := writes_written hrest
        have hg := restore_grows _ hrun
        refine ⟨hg.trans ih.grown, forall_mem_cons.mpr ⟨hmatch, ih.checked⟩, forall_mem_cons.mpr
          ⟨fun hf => absurd (hk.symm.trans hf) (by decide), fun r' hr' hf => ?_⟩, ?_⟩
        · obtain ⟨h3, x, w, hg3, hx⟩ := ih.funcs r' hr' hf
          exact ⟨h3, x, w, hg.trans hg3, hx⟩
        · rw [filter_cons_of_pos (by simp [hk])]
          refine .cons ⟨rfl, h, h1, .refl h, hrun, ih.grown⟩ (ih.vars.imp fun r' w hw => ?_)
          obtain ⟨hi, h3, h4, hg3, hx⟩ := hw
          exact ⟨hi, h3, h4, hg.trans hg3, hx⟩

theorem ofValue?_func (h : Store) (e : Nat) : DumpValue.ofValue? h (.func e) = some (.func e) := by
  cases h.reach <;> rfl

/-- The last variable record of a slot. -/
def lastVar? (d : Dump) (i : Nat) : Option DumpRecord :=
  ((d.records.filter (·.kind = .var)).filter (·.index = i)).getLast?

end Dump

/-! ## Memory -/

namespace Session

theorem size_write (mem : Array Value) (ws : List (Nat × Value)) : (write mem ws).size = mem.size := by
  unfold write
  induction ws generalizing mem with
  | nil => rfl
  | cons w ws ih => rw [foldl_cons, ih, size_setIfInBounds]

/-- **Of the writes to a slot the last one stays.** -/
theorem write_last {R : DumpRecord → Value → Prop} {i : Nat} : ∀ {rs : List DumpRecord} {ws : List (Nat × Value)}
    (mem : Array Value), List.Forall₂ (fun r w => w.1 = r.index ∧ R r w.2) rs ws → (∀ r ∈ rs, r.index < mem.size) →
    ((rs.filter (·.index = i)).getLast? = none → (write mem ws)[i]? = mem[i]?) ∧
      ∀ r, (rs.filter (·.index = i)).getLast? = some r → ∃ v, (write mem ws)[i]? = some v ∧ R r v
  | _, _, _, .nil, _ => ⟨fun _ => rfl, nofun⟩
  | r :: rs, w :: ws, mem, .cons ⟨hi, hR⟩ hrest, hlt => by
    obtain ⟨hr, hlt⟩ := forall_mem_cons.mp hlt
    obtain ⟨hnone, hsome⟩ := write_last (mem.setIfInBounds w.1 w.2) hrest
      fun r' hr' => by rw [size_setIfInBounds]; exact hlt r' hr'
    have hw : write mem (w :: ws) = write (mem.setIfInBounds w.1 w.2) ws := rfl
    by_cases he : r.index = i
    · rw [filter_cons_of_pos (by simpa using he), hw, getLast?_cons]
      refine ⟨nofun, fun r' hr' => ?_⟩
      cases hl : (rs.filter (·.index = i)).getLast? with
      | some r'' =>
        rw [hl] at hr'
        exact hsome r' (hl.trans hr')
      | none =>
        rw [hl] at hr'
        cases hr'
        refine ⟨w.2, (hnone hl).trans ?_, hR⟩
        rw [hi, he, getElem?_setIfInBounds_self_of_lt (he ▸ hr)]
    · rw [filter_cons_of_neg (by simpa using he)]
      refine ⟨fun hl => (hnone hl).trans ?_, hsome⟩
      rw [hi, getElem?_setIfInBounds_ne he]

/-- What a dump that was applied has done: nothing but new storage and the values of variables. -/
structure Applied (s : Session) (d : Dump) (t : Session) : Prop where
  rest : t = { s with mem := t.mem, store := t.store }
  size : t.mem.size = s.mem.size
  store : s.store.Preserved t.store
  checked : ∀ r ∈ d.records, r.index < s.mem.size ∧ Dump.Matches s.symbols r
  /-- A function record holds what is there, and so that function if it is one. -/
  funcs : ∀ r ∈ d.records, r.kind = .func →
    (∃ h v w, s.store.Preserved h ∧ s.mem[r.index]? = some v ∧ DumpValue.ofValue? h v = some w ∧
    w.same r.value = true) ∧
      ∀ e, s.mem[r.index]? = some (.func e) → r.value = .func e
  kept : ∀ i, d.lastVar? i = none → t.mem[i]? = s.mem[i]?
  restored : ∀ i r, d.lastVar? i = some r → ∃ h v h', s.store.Preserved h ∧
    (r.value.restore s.store.cells.size d.cells.length).run h = .ok (v, h') ∧ h'.Grown t.store ∧ t.mem[i]? = some v

theorem getElem?_globals {s : Session} {i : Nat} (h : i < s.globals.size) : s.globals[i]? = s.mem[i]? := by
  unfold globals at h ⊢
  rw [take_eq_extract, size_extract] at h
  rw [take_eq_extract, getElem?_extract, if_pos (by omega), Nat.zero_add]

/-- **A dump is applied as a whole or not at all**, whatever it holds. If it fails, the session is what it was. If it
succeeds, the session differs in its memory and in new storage only; a slot of memory differs only if it has a variable
record, whose name is that of a variable at this slot with the recorded type, and it holds what the last of them
restores to; and each function record agrees with the function that is there. -/
theorem applyDump_frame (s : Session) (d : Dump) :
    (∃ e, s.applyDump d = (.error e, s)) ∨ ∃ t, s.applyDump d = (.ok (), t) ∧ s.Applied d t := by
  unfold applyDump
  cases hr : d.restore s.symbols s.store s.globals with
  | error e => exact .inl ⟨e, rfl⟩
  | ok r =>
    obtain ⟨ws, store⟩ := r
    obtain ⟨h, hcells, hws⟩ := bind_ok.mp hr
    obtain ⟨hext, hkept⟩ := Dump.restoreCells_preserves hcells
    have hp : s.store.Preserved h := by
      refine ⟨⟨fun a ha => hext.arrays a ha, fun m hm => hext.maps m hm⟩, fun c hc => ?_⟩
      rw [hkept c hc]
      exact getElem?_append_left hc
    have hw := Dump.writes_written hws
    have hsize : s.globals.size ≤ s.mem.size := by
      unfold globals
      rw [take_eq_extract, size_extract]
      omega
    have hin (r : DumpRecord) (hr : r ∈ d.records) : r.index < s.mem.size :=
      Nat.lt_of_lt_of_le (hw.checked r hr).1 hsize
    have hlast (i : Nat) := write_last (R := fun r v => ∃ h1 h2, h.Grown h1 ∧
      (r.value.restore s.store.cells.size d.cells.length).run h1 = .ok (v, h2) ∧ h2.Grown store) (i := i) s.mem
      hw.vars fun r hr => hin r (mem_filter.mp hr).1
    refine .inr ⟨_, rfl, rfl, size_write .., hp.grown hw.grown, fun r hr => ⟨hin r hr, (hw.checked r hr).2⟩,
      fun r hr hk => ?_, fun i => (hlast i).1, fun i r hr => ?_⟩
    · obtain ⟨h1, v, w, hg, hv, hvw, hsame⟩ := hw.funcs r hr hk
      rw [getElem?_globals (hw.checked r hr).1] at hv
      refine ⟨⟨h1, v, w, hp.grown hg, hv, hvw, hsame⟩, fun e he => ?_⟩
      cases hv.symm.trans he
      cases (Dump.ofValue?_func h1 e).symm.trans hvw
      cases hd : r.value with
      | func e' =>
        rw [hd, DumpValue.same, beq_iff_eq] at hsame
        rw [hsame]
      | _ =>
        rw [hd] at hsame
        cases hsame
    · obtain ⟨v, hv, h1, h2, hg, hrun, hg'⟩ := (hlast i).2 r hr
      exact ⟨h1, v, h2, hp.grown hg, hrun, hg', hv⟩

end Session

end Goblet
