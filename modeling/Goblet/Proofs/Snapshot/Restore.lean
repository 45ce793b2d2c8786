import Goblet.Proofs.Snapshot.Capture

/-!
# What restoring gives

Whatever shows a value of a store with ordered maps can be restored into any store (`DumpValue.restore_shows`): new
arrays and maps are added, none that was there changes (`Store.Extends`), and the restored value is shown by the same
value of the dump, with numbers of cells counted from the first new cell. The contents of cells do not matter for what
is shown, so the new cells can be filled one after another (`Dump.restoreCells_shows`) although each content may point
to any of them. Records then give their writes (`Dump.writes_shows`).

Two values that are shown by the same value of a dump are alike (`DumpValue.Shows.alike`).
-/

namespace Goblet

open List

open Relation

/-! ## Ordered maps -/

namespace Key

theorem lt_irrefl (k : Key) : k.lt k = false := by
  cases k with
  | bool b => cases b <;> rfl
  | int n => simp [lt]
  | str s => simp [lt]

theorem lt_asymm {k l : Key} (hkl : k.lt l = true) : l.lt k = false := by
  cases k <;> cases l <;> simp only [lt, Bool.and_eq_true, Bool.not_eq_true', decide_eq_true_eq,
    decide_eq_false_iff_not, Bool.and_eq_false_imp, reduceCtorEq] at hkl ⊢
  · simp [hkl.1]
  · exact Int64.not_lt.mpr (Int64.le_of_lt hkl)
  · exact fun hlk => String.lt_irrefl _ (String.lt_trans hkl hlk)

end Key

namespace Entries

/-- Entries in the order of keys, each key once. -/
def Ordered (es : List (Key × Value)) : Prop := (es.map Prod.fst).Pairwise fun k l => k.lt l = true

theorem insert_last {k : Key} {v : Value} : ∀ {es : List (Key × Value)}, (∀ e ∈ es, e.1.lt k = true) →
    insert k v es = es ++ [(k, v)]
  | [], _ => rfl
  | (l, w) :: es, hes => by
    have hl : l.lt k = true := hes (l, w) (.head _)
    have hne : l ≠ k := by
      rintro rfl
      rw [Key.lt_irrefl] at hl
      cases hl
    rw [insert, if_neg hne, if_neg (by rw [Key.lt_asymm hl]; decide), insert_last fun e he =>
      hes e (.tail _ he)]
    rfl

theorem foldl_insert : ∀ {es fs : List (Key × Value)}, Ordered (fs ++ es) →
    es.foldl (fun m e => insert e.1 e.2 m) fs = fs ++ es
  | [], fs, _ => by simp
  | e :: es, fs, ho => by
    have hlast : ∀ f ∈ fs, f.1.lt e.1 = true := by
      intro f hf
      rw [Ordered, map_append, pairwise_append] at ho
      exact ho.2.2 f.1 (mem_map_of_mem hf) e.1 (by simp)
    rw [foldl_cons, insert_last hlast, foldl_insert (by simpa using ho), append_assoc, singleton_append]

end Entries

namespace Store

variable {h : Store}

theorem items_newSlice (vs : List Value) : (h.newSlice vs.toArray).2.items (h.newSlice vs.toArray).1 = vs := by
  simp [items, newSlice, backing]

theorem entries_newMap {es : List (Key × Value)} (ho : Entries.Ordered es) :
    (h.newMap es).2.entries (h.newMap es).1 = es := by
  have hf := @Entries.foldl_insert es [] ho
  simp [entries, newMap, hf]

end Store

/-- Neither a pointer to a heap cell nor NaN, the one float that is not equal to itself. -/
def Value.still : Value → Bool
  | .heap _ => false
  | .float x => x.eqv x
  | _ => true

/-- Everything that is reached from the value satisfies `P`. -/
def Store.All (h : Store) (P : Value → Prop) (v : Value) : Prop := ∀ x, h.Reaches v x → P x

theorem Store.All.part {h : Store} {P : Value → Prop} {v x : Value} (hv : h.All P v) (hx : h.Part v x) : h.All P x :=
  fun y hy => hv y (.head (.part hx) hy)

/-- The value is still, and the store has what it names. -/
def Store.Fixed (h : Store) (v : Value) : Prop := v.still = true ∧ h.Names v

/-- Fixed values reach nothing new in a store that extends theirs. -/
theorem Store.All.reaches {h h' : Store} {v x : Value} (hf : h.All h.Fixed v) (he : h.Extends h')
    (hx : h'.Reaches v x) : h.Reaches v x := by
  induction hx with
  | refl => exact .refl
  | @tail b c _ hl ih =>
    have ⟨hs, hn⟩ := hf b ih
    refine .tail ih ?_
    cases hl with
    | content => cases hs
    | part hp =>
      refine .part ?_
      cases hp with
      | item hm => exact .item (he.items hn ▸ hm)
      | entry hm => exact .entry (he.entries hn ▸ hm)
      | field hm => exact .field hm

namespace DumpValue

variable {R R' : Nat → Nat → Prop} {h : Store}

/-! ## Restoring values -/

/-- Restoring succeeds in a store that only gets more arrays and maps, with a result that satisfies `P` there. -/
def Restores {α : Type} (x : Restore α) (h : Store) (P : Store → α → Prop) : Prop :=
  ∃ a h', x.run h = .ok (a, h') ∧ h.Extends h' ∧ h'.cells = h.cells ∧ P h' a

theorem Restores.pure {α : Type} {a : α} {P : Store → α → Prop} (ha : P h a) : Restores (Pure.pure a) h P :=
  ⟨a, h, rfl, .refl h, rfl, ha⟩

theorem Restores.bind {α β : Type} {x : Restore α} {f : α → Restore β} {P : Store → α → Prop}
    {Q : Store → β → Prop} (hx : Restores x h P)
    (hf : ∀ h' a, h.Extends h' → P h' a → Restores (f a) h' Q) : Restores (x >>= f) h Q := by
  obtain ⟨a, h', hr, he, hc, ha⟩ := hx
  obtain ⟨b, h'', hr', he', hc', hb⟩ := hf h' a he ha
  refine ⟨b, h'', ?_, he.trans he', hc'.trans hc, hb⟩
  rw [StateT.run_bind, hr]
  exact hr'

/-- The store in which values were captured: its maps are ordered, and cells have numbers below `count`. -/
structure Origin (h : Store) (R : Nat → Nat → Prop) (count : Nat) : Prop where
  ordered : ∀ m < h.maps.size, Entries.Ordered (h.entries m)
  below : ∀ n c, R n c → n < count

/-- The relation of numbers to new cells. -/
def From (base : Nat) (n c : Nat) : Prop := c = base + n

variable {base count : Nat} {h0 : Store}

theorem restore_ofKey (k : Key) : restore base count (ofKey k) = Pure.pure k.value := by
  cases k <;> rw [ofKey, restore, Key.value]

theorem key_value (k : Key) : k.value.key = .ok k := by
  cases k <;> rfl

mutual

/-- What a dump shows can be restored from it. -/
theorem restore_shows (ho : Origin h0 R count) : ∀ {d : DumpValue} {v : Value} {h : Store}, d.Shows R h0 v →
    Restores (d.restore base count) h fun h' v' => d.Shows (From base) h' v'
  | .nil, _, _, _ | .bool _, _, _, _ | .int _, _, _, _ | .float _, _, _, _ | .str _, _, _, _ | .addr _, _, _, _
  | .func _, _, _, _ => by
    exact .pure (by rw [Shows])
  | .slice ds, v, h, hv => by
    obtain ⟨w, -, -, hs⟩ := hv
    rw [restore]
    refine (restoreAll_shows ho hs).bind fun h1 vs _ hvs => ?_
    refine ⟨.slice (h1.newSlice vs.toArray).1, (h1.newSlice vs.toArray).2, rfl, .newSlice vs.toArray, rfl, ?_⟩
    refine ⟨_, rfl, by simp [Store.newSlice], ?_⟩
    rw [Store.items_newSlice]
    exact hvs.mono (fun _ _ hr => hr) (.newSlice vs.toArray)
  | .map ds, v, h, hv => by
    rw [Shows] at hv
    obtain ⟨m, -, hm, hs⟩ := hv
    refine (restoreEntries_shows ho hs).bind fun h1 es _ hes => ?_
    refine ⟨.map (h1.newMap es).1, (h1.newMap es).2, rfl, .newMap es, rfl, ?_⟩
    simp only [Shows]
    refine ⟨_, rfl, by simp [Store.newMap], ?_⟩
    have hord : Entries.Ordered es := by
      rw [Entries.Ordered, hes.1]
      exact ho.ordered m hm
    rw [Store.entries_newMap hord]
    exact hes.2.mono (fun _ _ hr => hr) (.newMap es)
  | .struct ds, v, h, hv => by
    obtain ⟨fs, -, hs⟩ := hv
    rw [restore]
    refine (restoreAll_shows ho hs).bind fun h1 vs _ hvs => .pure ?_
    exact ⟨vs, rfl, hvs⟩
  | .cell n, v, h, hv => by
    rw [Shows] at hv
    obtain ⟨c, -, hc⟩ := hv
    rw [restore, if_pos (ho.below n c hc)]
    refine .pure ?_
    rw [Shows]
    exact ⟨base + n, rfl, rfl⟩

theorem restoreAll_shows (ho : Origin h0 R count) : ∀ {ds : List DumpValue} {vs : List Value} {h : Store},
    ShowAll R h0 ds vs → Restores (restoreAll base count ds) h fun h' vs' => ShowAll (From base) h' ds vs'
  | [], _, _, _ => by
    exact .pure (by rw [ShowAll])
  | d :: ds, _, h, hs => by
    obtain ⟨v, us, -, hv, hs⟩ := hs
    rw [restoreAll]
    refine (restore_shows ho hv).bind fun h1 v' _ hv' => ?_
    refine (restoreAll_shows ho hs).bind fun h2 vs' he hs' => .pure ?_
    exact ⟨v', vs', rfl, hv'.extend he, hs'⟩

theorem restoreEntries_shows (ho : Origin h0 R count) : ∀ {ds : List (DumpValue × DumpValue)}
    {es : List (Key × Value)} {h : Store}, ShowEntries R h0 ds es →
    Restores (restoreEntries base count ds) h fun h' es' =>
      es'.map Prod.fst = es.map Prod.fst ∧ ShowEntries (From base) h' ds es'
  | [], _, _, hs => by
    refine .pure ⟨by rw [hs], ?_⟩
    rw [ShowEntries]
  | (k, d) :: ds, _, h, hs => by
    rw [ShowEntries] at hs
    obtain ⟨key, v, us, rfl, rfl, hv, hs⟩ := hs
    rw [restoreEntries, restore_ofKey, pure_bind, key_value]
    refine (restore_shows ho hv).bind fun h1 v' _ hv' => ?_
    refine (restoreEntries_shows ho hs).bind fun h2 es' he hs' => .pure ⟨by simp [hs'.1], ?_⟩
    exact ⟨key, v', es', rfl, rfl, hv'.extend he, hs'.2⟩

end

/-! ## Values shown alike -/

theorem ofKey_injective {k l : Key} (hkl : ofKey k = ofKey l) : k = l := by
  cases k <;> cases l <;> simp only [ofKey, reduceCtorEq, bool.injEq, int.injEq, str.injEq] at hkl <;> rw [hkl]

variable {φ : Nat → Nat} {h1 h2 : Store}

mutual

/-- One dump shows only values that are alike. -/
theorem Shows.alike (hφ : ∀ n c c', R n c → R' n c' → c' = φ c) : ∀ {d : DumpValue} {v v' : Value},
    d.Shows R h1 v → d.Shows R' h2 v' → h1.Alike φ h2 v v'
  | .nil, _, _, hv, hv' | .bool _, _, _, hv, hv' | .int _, _, _, hv, hv' | .float _, _, _, hv, hv'
  | .str _, _, _, hv, hv' | .addr _, _, _, hv, hv' | .func _, _, _, hv, hv' => by
    rw [hv, hv']
    constructor
  | .cell n, _, _, hv, hv' => by
    rw [Shows] at hv hv'
    obtain ⟨c, rfl, hc⟩ := hv
    obtain ⟨c', rfl, hc'⟩ := hv'
    rw [hφ n c c' hc hc']
    exact .heap c
  | .slice ds, _, _, hv, hv' => by
    obtain ⟨w, rfl, -, hs⟩ := hv
    obtain ⟨w', rfl, -, hs'⟩ := hv'
    exact .slice (ShowAll.alike hφ hs hs')
  | .map ds, _, _, hv, hv' => by
    rw [Shows] at hv hv'
    obtain ⟨m, rfl, -, hs⟩ := hv
    obtain ⟨m', rfl, -, hs'⟩ := hv'
    have ⟨hk, ha⟩ := ShowEntries.alike hφ hs hs'
    exact .map hk ha
  | .struct ds, _, _, hv, hv' => by
    obtain ⟨fs, rfl, hs⟩ := hv
    obtain ⟨fs', rfl, hs'⟩ := hv'
    exact .struct (ShowAll.alike hφ hs hs')

theorem ShowAll.alike (hφ : ∀ n c c', R n c → R' n c' → c' = φ c) : ∀ {ds : List DumpValue} {vs vs' : List Value},
    ShowAll R h1 ds vs → ShowAll R' h2 ds vs' → List.Forall₂ (h1.Alike φ h2) vs vs'
  | [], _, _, hs, hs' => by
    rw [hs, hs']
    exact .nil
  | d :: ds, _, _, hs, hs' => by
    rw [ShowAll] at hs hs'
    obtain ⟨v, us, rfl, hv, hs⟩ := hs
    obtain ⟨v', us', rfl, hv', hs'⟩ := hs'
    exact .cons (Shows.alike hφ hv hv') (ShowAll.alike hφ hs hs')

theorem ShowEntries.alike (hφ : ∀ n c c', R n c → R' n c' → c' = φ c) : ∀ {ds : List (DumpValue × DumpValue)}
    {es es' : List (Key × Value)}, ShowEntries R h1 ds es → ShowEntries R' h2 ds es' →
    es.map Prod.fst = es'.map Prod.fst ∧ List.Forall₂ (h1.Alike φ h2) (es.map Prod.snd) (es'.map Prod.snd)
  | [], _, _, hs, hs' => by
    rw [hs, hs']
    exact ⟨rfl, .nil⟩
  | (k, d) :: ds, _, _, hs, hs' => by
    rw [ShowEntries] at hs hs'
    obtain ⟨key, v, us, rfl, hk, hv, hs⟩ := hs
    obtain ⟨key', v', us', rfl, hk', hv', hs'⟩ := hs'
    have ⟨hks, ha⟩ := ShowEntries.alike hφ hs hs'
    have hkey : key = key' := ofKey_injective (hk.symm.trans hk')
    exact ⟨by simp [hks, hkey], .cons (Shows.alike hφ hv hv') ha⟩

end

/-! ## What shown values lead to -/

variable {d e : DumpValue} {v x : Value}

theorem mem_of_showAll : ∀ {ds : List DumpValue} {vs : List Value} {x : Value}, ShowAll R h ds vs → x ∈ vs →
    ∃ d ∈ ds, d.Shows R h x
  | [], _, _, hs, hx => by
    rw [hs] at hx
    cases hx
  | d :: ds, _, x, hs, hx => by
    rw [ShowAll] at hs
    obtain ⟨v, us, rfl, hv, hs⟩ := hs
    rcases mem_cons.mp hx with rfl | hx
    · exact ⟨d, .head _, hv⟩
    · obtain ⟨e, he, hx⟩ := mem_of_showAll hs hx
      exact ⟨e, .tail _ he, hx⟩

theorem mem_of_showEntries : ∀ {ds : List (DumpValue × DumpValue)} {es : List (Key × Value)} {e : Key × Value},
    ShowEntries R h ds es → e ∈ es → ∃ p ∈ ds, p.2.Shows R h e.2
  | [], _, _, hs, he => by
    rw [hs] at he
    cases he
  | (l, d) :: ds, _, e, hs, he => by
    rw [ShowEntries] at hs
    obtain ⟨k, v, us, rfl, -, hv, hs⟩ := hs
    rcases mem_cons.mp he with rfl | he
    · exact ⟨(l, d), .head _, hv⟩
    · obtain ⟨p, hp, he⟩ := mem_of_showEntries hs he
      exact ⟨p, .tail _ hp, he⟩

theorem shows_heap {c : Nat} (hd : d.Shows R h (.heap c)) : ∃ n, d = .cell n ∧ R n c := by
  cases d <;> rw [Shows] at hd
  case cell n =>
    obtain ⟨c', hc, hR⟩ := hd
    cases hc
    exact ⟨n, rfl, hR⟩
  all_goals simp at hd

theorem shows_slice {w : Window} (hd : d.Shows R h (.slice w)) : ∃ ds, d = .slice ds ∧ ShowAll R h ds (h.items w) := by
  cases d <;> rw [Shows] at hd
  case slice ds =>
    obtain ⟨w', hw, -, hs⟩ := hd
    cases hw
    exact ⟨ds, rfl, hs⟩
  all_goals simp at hd

theorem shows_map {m : Nat} (hd : d.Shows R h (.map m)) : ∃ ds, d = .map ds ∧ ShowEntries R h ds (h.entries m) := by
  cases d <;> rw [Shows] at hd
  case map ds =>
    obtain ⟨m', hm, -, hs⟩ := hd
    cases hm
    exact ⟨ds, rfl, hs⟩
  all_goals simp at hd

theorem shows_struct {fs : List Value} (hd : d.Shows R h (.struct fs)) : ∃ ds, d = .struct ds ∧ ShowAll R h ds fs := by
  cases d <;> rw [Shows] at hd
  case struct ds =>
    obtain ⟨fs', hf, hs⟩ := hd
    cases hf
    exact ⟨ds, rfl, hs⟩
  all_goals simp at hd

/-- A part of a shown value is shown by something smaller. -/
theorem shows_of_part (hd : d.Shows R h v) (hx : h.Part v x) :
    ∃ e : DumpValue, sizeOf e < sizeOf d ∧ e.Shows R h x := by
  cases hx with
  | item hm =>
    obtain ⟨ds, rfl, hs⟩ := shows_slice hd
    obtain ⟨e, he, hx⟩ := mem_of_showAll hs hm
    have := sizeOf_lt_of_mem he
    exact ⟨e, by simp only [slice.sizeOf_spec]; omega, hx⟩
  | entry hm =>
    obtain ⟨ds, rfl, hs⟩ := shows_map hd
    obtain ⟨⟨k, e⟩, he, hx⟩ := mem_of_showEntries hs hm
    have := sizeOf_lt_of_mem he
    exact ⟨e, by simp only [map.sizeOf_spec, Prod.mk.sizeOf_spec] at this ⊢; omega, hx⟩
  | field hm =>
    obtain ⟨ds, rfl, hs⟩ := shows_struct hd
    obtain ⟨e, he, hx⟩ := mem_of_showAll hs hm
    have := sizeOf_lt_of_mem he
    exact ⟨e, by simp only [struct.sizeOf_spec]; omega, hx⟩

/-- What a shown value leads to is shown, if the contents of numbered cells are. -/
theorem shows_of_leads (hR : ∀ n c, R n c → ∃ (d : DumpValue) (x : Value), h.cell? c = some x ∧ d.Shows R h x)
    (hd : d.Shows R h v) (hx : h.Leads v x) : ∃ e : DumpValue, e.Shows R h x := by
  cases hx with
  | content hc =>
    obtain ⟨n, -, hn⟩ := shows_heap hd
    obtain ⟨e, y, hy, he⟩ := hR n _ hn
    rw [hc] at hy
    cases hy
    exact ⟨e, he⟩
  | part hp =>
    obtain ⟨e, -, he⟩ := shows_of_part hd hp
    exact ⟨e, he⟩

/-- Shown values are finite trees of parts. -/
theorem Shows.acyclic (hd : d.Shows R h v) : ¬TransGen h.Part v v := by
  have smaller : ∀ {a b : Value} {d : DumpValue}, d.Shows R h a → TransGen h.Part a b →
      ∃ e : DumpValue, sizeOf e < sizeOf d ∧ e.Shows R h b := by
    intro a b d hd hab
    induction hab with
    | single hp => exact shows_of_part hd hp
    | tail _ hp ih =>
      obtain ⟨e, hlt, he⟩ := ih
      obtain ⟨e', hlt', he'⟩ := shows_of_part he hp
      exact ⟨e', Nat.lt_trans hlt' hlt, he'⟩
  intro hc
  -- On a cycle there would be smaller and smaller values that show the same.
  induction hn : sizeOf d using Nat.strongRecOn generalizing d with
  | _ n ih =>
    obtain ⟨e, hlt, he⟩ := smaller hd hc
    exact ih _ (hn ▸ hlt) he rfl

/-! ## Values without heap cells -/

/-- No cell has a number. -/
def Never (_ _ : Nat) : Prop := False

/-- Everything that is shown with no cell can be captured. -/
theorem region_never (h : Store) : h.Region fun v => ∃ d : DumpValue, d.Shows Never h v where
  closed := fun ⟨_, hd⟩ hx => shows_of_leads (fun _ _ hr => hr.elim) hd hx
  named := by
    rintro v ⟨d, hd⟩
    cases d <;> rw [Shows] at hd
    case slice =>
      obtain ⟨w, rfl, hw, -⟩ := hd
      exact hw
    case map =>
      obtain ⟨m, rfl, hm, -⟩ := hd
      exact hm
    case struct =>
      obtain ⟨fs, rfl, -⟩ := hd
      trivial
    case cell =>
      obtain ⟨c, -, hc⟩ := hd
      exact hc.elim
    all_goals
      rw [hd]
      trivial
  keepable := by
    rintro v ⟨d, hd⟩
    cases d <;> rw [Shows] at hd
    case slice | map | struct | cell =>
      obtain ⟨_, rfl, -⟩ := hd
      rfl
    all_goals
      rw [hd]
      rfl
  acyclic := fun ⟨_, hd⟩ => hd.acyclic

mutual

/-- What shows a value shows every value that is alike and reaches no heap cell. -/
theorem Shows.transfer : ∀ {d : DumpValue} {v v' : Value}, d.Shows R h1 v → h1.Alike φ h2 v v' → h2.All h2.Fixed v' →
    d.Shows Never h2 v'
  | .nil, _, _, hv, ha, _ | .bool _, _, _, hv, ha, _ | .int _, _, _, hv, ha, _ | .float _, _, _, hv, ha, _
  | .str _, _, _, hv, ha, _ | .addr _, _, _, hv, ha, _ | .func _, _, _, hv, ha, _ => by
    rw [hv] at ha
    cases ha
    rw [Shows]
  | .cell _, _, _, hv, ha, hf => by
    obtain ⟨c, rfl, -⟩ := hv
    cases ha
    exact absurd (hf _ .refl).1 Bool.false_ne_true
  | .slice ds, _, _, hv, ha, hf => by
    obtain ⟨w, rfl, -, hds⟩ := hv
    cases ha with
    | slice hall => exact ⟨_, rfl, (hf _ .refl).2, ShowAll.transfer hds hall fun x hx => hf.part (.item hx)⟩
  | .map ds, _, _, hv, ha, hf => by
    rw [Shows] at hv ⊢
    obtain ⟨m, rfl, -, hds⟩ := hv
    cases ha with
    | map hk hall => exact ⟨_, rfl, (hf _ .refl).2, ShowEntries.transfer hds hk hall fun e he => hf.part (.entry he)⟩
  | .struct ds, _, _, hv, ha, hf => by
    obtain ⟨fs, rfl, hds⟩ := hv
    cases ha with
    | struct hall => exact ⟨_, rfl, ShowAll.transfer hds hall fun x hx => hf.part (.field hx)⟩

theorem ShowAll.transfer : ∀ {ds : List DumpValue} {vs vs' : List Value}, ShowAll R h1 ds vs →
    List.Forall₂ (h1.Alike φ h2) vs vs' → (∀ v ∈ vs', h2.All h2.Fixed v) → ShowAll Never h2 ds vs'
  | [], _, _, hds, hall, _ => by
    rw [hds] at hall
    cases hall
    rw [ShowAll]
  | d :: ds, _, _, hds, hall, hf => by
    rw [ShowAll] at hds
    obtain ⟨v, us, rfl, hv, hds⟩ := hds
    cases hall with
    | cons ha hall =>
      exact ⟨_, _, rfl, Shows.transfer hv ha (hf _ (.head _)), ShowAll.transfer hds hall fun x hx => hf x (.tail _ hx)⟩

theorem ShowEntries.transfer : ∀ {ds : List (DumpValue × DumpValue)} {es es' : List (Key × Value)},
    ShowEntries R h1 ds es → es.map Prod.fst = es'.map Prod.fst →
    List.Forall₂ (h1.Alike φ h2) (es.map Prod.snd) (es'.map Prod.snd) → (∀ e ∈ es', h2.All h2.Fixed e.2) →
    ShowEntries Never h2 ds es'
  | [], _, _, hds, hk, _, _ => by
    rw [hds] at hk
    rw [ShowEntries]
    exact map_eq_nil_iff.mp hk.symm
  | (l, d) :: ds, _, es', hds, hk, hall, hf => by
    rw [ShowEntries] at hds
    obtain ⟨k, v, us, rfl, hl, hv, hds⟩ := hds
    match es' with
    | (k', v') :: us' =>
      simp only [map_cons, cons.injEq, forall₂_cons] at hk hall
      exact ⟨k', v', us', rfl, hl.trans (by rw [hk.1]), Shows.transfer hv hall.1 (hf _ (.head _)),
        ShowEntries.transfer hds hk.2 hall.2 fun e he => hf e (.tail _ he)⟩

end

theorem same_ofKey (k : Key) : (ofKey k).same (ofKey k) = true := by
  cases k <;> simp [ofKey, same]

mutual

/-- Two values of dumps that show a value without heap cells are the same, if its floats are numbers. -/
theorem Shows.same : ∀ {d e : DumpValue} {v : Value}, d.Shows R h v → e.Shows Never h v → h.All (·.still) v →
    d.same e = true
  | d, .nil, _, hd, he, _ | d, .bool _, _, hd, he, _ | d, .int _, _, hd, he, _ | d, .str _, _, hd, he, _
  | d, .addr _, _, hd, he, _ | d, .func _, _, hd, he, _ => by
    rw [he] at hd
    cases d <;> simp_all [Shows, DumpValue.same]
  | d, .float b, _, hd, he, hs => by
    rw [Shows] at he
    subst he
    cases d <;> rw [Shows] at hd
    case float a =>
      cases hd
      exact hs _ .refl
    all_goals simp at hd
  | d, .cell _, _, _, he, _ => by
    obtain ⟨c, -, hc⟩ := he
    exact hc.elim
  | d, .slice es, _, hd, he, hs => by
    obtain ⟨w, rfl, -, hes⟩ := he
    obtain ⟨ds, rfl, hds⟩ := shows_slice hd
    exact ShowAll.same hds hes fun x hx => hs.part (.item hx)
  | d, .map es, _, hd, he, hs => by
    rw [Shows] at he
    obtain ⟨m, rfl, -, hes⟩ := he
    obtain ⟨ds, rfl, hds⟩ := shows_map hd
    exact ShowEntries.same hds hes fun e he => hs.part (.entry he)
  | d, .struct es, _, hd, he, hs => by
    obtain ⟨fs, rfl, hes⟩ := he
    obtain ⟨ds, rfl, hds⟩ := shows_struct hd
    exact ShowAll.same hds hes fun x hx => hs.part (.field hx)

theorem ShowAll.same : ∀ {ds es : List DumpValue} {vs : List Value}, ShowAll R h ds vs → ShowAll Never h es vs →
    (∀ v ∈ vs, h.All (·.still) v) → sameAll ds es = true
  | [], [], _, _, _, _ => by rw [sameAll]
  | d :: ds, e :: es, _, hds, hes, hs => by
    rw [ShowAll] at hds hes
    obtain ⟨v, us, rfl, hd, hds⟩ := hds
    obtain ⟨v', us', hv, he, hes⟩ := hes
    cases hv
    rw [sameAll, Shows.same hd he (hs _ (.head _)), ShowAll.same hds hes fun x hx => hs x (.tail _ hx)]
    rfl
  | [], _ :: _, _, hds, hes, _ => by
    rw [hds, ShowAll] at hes
    simp at hes
  | _ :: _, [], _, hds, hes, _ => by
    rw [hes, ShowAll] at hds
    simp at hds

theorem ShowEntries.same : ∀ {ds es : List (DumpValue × DumpValue)} {vs : List (Key × Value)},
    ShowEntries R h ds vs → ShowEntries Never h es vs → (∀ e ∈ vs, h.All (·.still) e.2) → samePairs ds es = true
  | [], [], _, _, _, _ => by rw [samePairs]
  | (l, d) :: ds, (l', e) :: es, _, hds, hes, hs => by
    rw [ShowEntries] at hds hes
    obtain ⟨k, v, us, rfl, rfl, hd, hds⟩ := hds
    obtain ⟨k', v', us', hv, rfl, he, hes⟩ := hes
    cases hv
    rw [samePairs, same_ofKey, Shows.same hd he (hs _ (.head _)),
      ShowEntries.same hds hes fun x hx => hs x (.tail _ hx)]
    rfl
  | [], (_, _) :: _, _, hds, hes, _ => by
    rw [hds, ShowEntries] at hes
    simp at hes
  | (_, _) :: _, [], _, hds, hes, _ => by
    rw [hes, ShowEntries] at hds
    simp at hds

end

/-- A value alike to a shown one that reaches no heap cell is captured the same, in every store that extends its own. -/
theorem Shows.ofValue?_same {h3 : Store} (hd : d.Shows R h1 v) (ha : h1.Alike φ h2 v x) (hf : h2.All h2.Fixed x)
    (he : h2.Extends h3) : ∃ e, ofValue? h3 x = some e ∧ e.same d = true := by
  have hd' := (hd.transfer ha hf).extend he
  obtain ⟨e, t, hr, -, -, hx⟩ := capture_shows (region_never h3) ⟨d, hd'⟩ CellTable.Sound.empty
  refine ⟨e, by rw [ofValue?, hr]; rfl, hx.same hd' fun y hy => ?_⟩
  exact (hf y (hf.reaches he hy)).1

end DumpValue

/-! ## Restoring cells and records -/

namespace Dump

open DumpValue

variable {R : Nat → Nat → Prop} {base count : Nat} {h0 : Store}

/-- The cells are filled in the order of their numbers. -/
theorem restoreCells_shows (ho : Origin h0 R count) : ∀ {ds : List DumpValue} {n : Nat} {h : Store},
    (∀ d ∈ ds, ∃ x, d.Shows R h0 x) → base + n + ds.length ≤ h.cells.size →
    ∃ h', restoreCells base count n ds h = .ok h' ∧ h.Extends h' ∧ h'.cells.size = h.cells.size ∧
      (∀ c < base + n, h'.cells[c]? = h.cells[c]?) ∧
      ∀ i d, ds[i]? = some d → ∃ v, h'.cell? (base + n + i) = some v ∧ d.Shows (From base) h' v
  | [], n, h, _, _ => ⟨h, rfl, .refl h, rfl, fun _ _ => rfl, by simp⟩
  | d :: ds, n, h, hs, hn => by
    rw [length_cons] at hn
    obtain ⟨x, hx⟩ := hs d (.head _)
    obtain ⟨v, h1, hr, he1, hc1, hv⟩ : Restores (d.restore base count) h fun h' v => d.Shows (From base) h' v :=
      restore_shows ho hx
    have hc1' : h1.cells.size = h.cells.size := by rw [hc1]
    have hsize : (h1.setCell (base + n) v).cells.size = h.cells.size := by simp [Store.setCell, hc1]
    obtain ⟨h', hr', he', hs', hlow, hrest⟩ := restoreCells_shows ho (n := n + 1) (h := h1.setCell (base + n) v)
      (fun e hm => hs e (.tail _ hm)) (by omega)
    have he : h.Extends h' := (he1.trans (.setCell (base + n) v)).trans he'
    refine ⟨h', ?_, he, hs'.trans hsize, fun c hc => ?_, fun i e hi => ?_⟩
    · rw [restoreCells, hr]
      exact hr'
    · rw [hlow c (by omega), Store.setCell, Array.getElem?_setIfInBounds_ne (by omega), hc1]
    · cases i with
      | zero =>
        cases Option.some.inj hi
        refine ⟨v, ?_, hv.extend ((Store.Extends.setCell (base + n) v).trans he')⟩
        rw [Nat.add_zero, Store.cell?, hlow (base + n) (by omega), Store.setCell,
          Array.getElem?_setIfInBounds_self_of_lt (by omega)]
      | succ i =>
        have := hrest i e hi
        rwa [show base + n + (i + 1) = base + (n + 1) + i by omega]

/-- A record can be restored: its symbol is there, and a variable's value shows something, while a function's value is
what its slot is captured as, in every store that extends the old one. -/
structure Fits (symbols : SymbolTable) (R : Nat → Nat → Prop) (h0 old : Store) (mem : Array Value) (r : DumpRecord) :
    Prop where
  check : checkRecord symbols mem.size r = .ok ()
  var : r.kind = .var → ∃ v, r.value.Shows R h0 v
  func : r.kind = .func → ∀ h, old.Extends h → ∃ d, (mem[r.index]?).bind (ofValue? h) = some d ∧ d.same r.value = true

theorem writes_shows (ho : Origin h0 R count) {symbols : SymbolTable} {old : Store} {mem : Array Value} :
    ∀ {rs : List DumpRecord} {h : Store}, old.Extends h → (∀ r ∈ rs, Fits symbols R h0 old mem r) →
    ∃ ws h', writes symbols mem base count rs h = .ok (ws, h') ∧ h.Extends h' ∧ h'.cells = h.cells ∧
      List.Forall₂ (fun r w => w.1 = r.index ∧ r.value.Shows (From base) h' w.2) (rs.filter (·.kind = .var)) ws
  | [], h, _, _ => ⟨[], h, rfl, .refl h, rfl, .nil⟩
  | r :: rs, h, hold, hf => by
    have hr := hf r (.head _)
    have hrest := fun r' hr' => hf r' (mem_cons_of_mem r hr')
    cases hk : r.kind with
    | func =>
      obtain ⟨ws, h', hw, he, hc, hall⟩ := writes_shows ho hold hrest
      obtain ⟨d, hm, hv⟩ := hr.func hk h hold
      refine ⟨ws, h', ?_, he, hc, ?_⟩
      · rw [writes, hr.check, hk]
        simp only [bind, Except.bind, hm, hv]
        exact hw
      · rw [filter_cons_of_neg (by simp [hk])]
        exact hall
    | var =>
      obtain ⟨x, hx⟩ := hr.var hk
      obtain ⟨v, h1, hrun, he1, hc1, hv⟩ : Restores (r.value.restore base count) h
        fun h' v => r.value.Shows (From base) h' v := restore_shows ho hx
      obtain ⟨ws, h', hw, he, hc, hall⟩ := writes_shows ho (hold.trans he1) hrest
      refine ⟨(r.index, v) :: ws, h', ?_, he1.trans he, hc.trans hc1, ?_⟩
      · rw [writes, hr.check, hk]
        simp only [bind, Except.bind, hrun, hw]
        rfl
      · rw [filter_cons_of_pos (by simp [hk])]
        exact .cons ⟨rfl, hv.extend he⟩ hall

end Dump

end Goblet
