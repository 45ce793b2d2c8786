import Goblet.Proofs.Store.Graph
import Goblet.Snapshot
import Mathlib

/-!
# What capturing gives

A value of a dump shows a value (`DumpValue.Shows`) if it is the same tree of parts, with pointers to heap cells given
by number. The relation between numbers and cells is a parameter: capturing and restoring are both described by it.

Capturing goes through a possibly cyclic graph. A cell has its number before its content is known, so what a table of
cells keeps is stated for growth (`CellTable.Grows`): the contents of cells that are new in the larger table are shown
by it, those of older ones are as they were. At the end all cells are new.

* `DumpValue.captureTo_shows`: in a region of the graph that can be captured (`Store.Region`), capturing succeeds and
  gives a value that shows the captured one. The depth that is needed is a sum: each cell that was not met yet can add a
  path through all elements, and the value itself adds its rank.
-/

namespace Goblet

open List CellTable Store

open Relation

/-! ## Stores that only have more -/

namespace Store

/-- The second store holds all arrays and maps of the first, unchanged. -/
structure Extends (h h' : Store) : Prop where
  arrays : ∀ a < h.arrays.size, h'.arrays[a]? = h.arrays[a]?
  maps : ∀ m < h.maps.size, h'.maps[m]? = h.maps[m]?

variable {h h' h'' : Store}

theorem size_le_of_kept {α : Type} {a b : Array α} (hk : ∀ i < a.size, b[i]? = a[i]?) : a.size ≤ b.size := by
  rcases Nat.eq_zero_or_pos a.size with h0 | h0
  · omega
  · have hlt : a.size - 1 < a.size := by omega
    have he := hk _ hlt
    rw [Array.getElem?_eq_getElem hlt] at he
    obtain ⟨hb, -⟩ := Array.getElem?_eq_some_iff.mp he
    omega

namespace Extends

theorem refl (h : Store) : h.Extends h := ⟨fun _ _ => rfl, fun _ _ => rfl⟩

theorem setCell (c : Nat) (v : Value) : h.Extends (h.setCell c v) := ⟨fun _ _ => rfl, fun _ _ => rfl⟩

theorem trans (h1 : h.Extends h') (h2 : h'.Extends h'') : h.Extends h'' where
  arrays a ha := (h2.arrays a (Nat.lt_of_lt_of_le ha (size_le_of_kept h1.arrays))).trans (h1.arrays a ha)
  maps m hm := (h2.maps m (Nat.lt_of_lt_of_le hm (size_le_of_kept h1.maps))).trans (h1.maps m hm)

theorem items (he : h.Extends h') {w : Window} (hw : w.array < h.arrays.size) : h'.items w = h.items w := by
  unfold Store.items backing
  rw [Array.getD_eq_getD_getElem?, Array.getD_eq_getD_getElem?, he.arrays _ hw]

theorem entries (he : h.Extends h') {m : Nat} (hm : m < h.maps.size) : h'.entries m = h.entries m := by
  unfold Store.entries
  rw [Array.getD_eq_getD_getElem?, Array.getD_eq_getD_getElem?, he.maps _ hm]

theorem newSlice (items : Array Value) : h.Extends (h.newSlice items).2 where
  arrays a ha := by
    simp only [Store.newSlice]
    rw [Array.getElem?_push_lt ha, Array.getElem?_eq_getElem ha]
  maps _ _ := rfl

theorem newMap (es : List (Key × Value)) : h.Extends (h.newMap es).2 where
  arrays _ _ := rfl
  maps m hm := by
    simp only [Store.newMap]
    rw [Array.getElem?_push_lt hm, Array.getElem?_eq_getElem hm]

end Extends

end Store

/-! ## Values of dumps show values -/

namespace DumpValue

mutual

/-- The value of a dump has the same parts as the value; cells with numbers are related by `R`. -/
def Shows (R : Nat → Nat → Prop) (h : Store) : DumpValue → Value → Prop
  | .nil, v => v = .nil
  | .bool b, v => v = .bool b
  | .int n, v => v = .int n
  | .float bits, v => v = .float ⟨bits⟩
  | .str s, v => v = .str s
  | .slice ds, v => ∃ w, v = .slice w ∧ w.array < h.arrays.size ∧ ShowAll R h ds (h.items w)
  | .map es, v => ∃ m, v = .map m ∧ m < h.maps.size ∧ ShowEntries R h es (h.entries m)
  | .struct ds, v => ∃ fs, v = .struct fs ∧ ShowAll R h ds fs
  | .cell n, v => ∃ c, v = .heap c ∧ R n c
  | .addr a, v => v = .ref a
  | .func e, v => v = .func e

def ShowAll (R : Nat → Nat → Prop) (h : Store) : List DumpValue → List Value → Prop
  | [], vs => vs = []
  | d :: ds, vs => ∃ v us, vs = v :: us ∧ Shows R h d v ∧ ShowAll R h ds us

def ShowEntries (R : Nat → Nat → Prop) (h : Store) : List (DumpValue × DumpValue) → List (Key × Value) → Prop
  | [], es => es = []
  | (k, d) :: ds, es => ∃ key v us, es = (key, v) :: us ∧ k = ofKey key ∧ Shows R h d v ∧ ShowEntries R h ds us

end

variable {R R' : Nat → Nat → Prop} {h h' : Store}

mutual

/-- More cells may have numbers, and the store may have more. -/
theorem Shows.mono (hR : ∀ n c, R n c → R' n c) (he : h.Extends h') :
    ∀ {d : DumpValue} {v : Value}, d.Shows R h v → d.Shows R' h' v
  | .nil, _, hv | .bool _, _, hv | .int _, _, hv | .float _, _, hv | .str _, _, hv | .addr _, _, hv
  | .func _, _, hv => by
    exact hv
  | .slice _, _, hv => by
    rw [Shows] at hv ⊢
    obtain ⟨w, hv, hw, hs⟩ := hv
    refine ⟨w, hv, Nat.lt_of_lt_of_le hw (size_le_of_kept he.arrays), ?_⟩
    rw [he.items hw]
    exact ShowAll.mono hR he hs
  | .map _, _, hv => by
    obtain ⟨m, hv, hm, hs⟩ := hv
    refine ⟨m, hv, Nat.lt_of_lt_of_le hm (size_le_of_kept he.maps), ?_⟩
    rw [he.entries hm]
    exact ShowEntries.mono hR he hs
  | .struct _, _, hv => by
    rw [Shows] at hv ⊢
    obtain ⟨fs, hv, hs⟩ := hv
    exact ⟨fs, hv, ShowAll.mono hR he hs⟩
  | .cell n, _, hv => by
    obtain ⟨c, hv, hc⟩ := hv
    exact ⟨c, hv, hR n c hc⟩

theorem ShowAll.mono (hR : ∀ n c, R n c → R' n c) (he : h.Extends h') : ∀ {ds : List DumpValue} {vs : List Value},
    ShowAll R h ds vs → ShowAll R' h' ds vs
  | [], _, hs => by
    exact hs
  | _ :: _, _, hs => by
    rw [ShowAll] at hs ⊢
    obtain ⟨v, us, hvs, hv, hs⟩ := hs
    exact ⟨v, us, hvs, Shows.mono hR he hv, ShowAll.mono hR he hs⟩

theorem ShowEntries.mono (hR : ∀ n c, R n c → R' n c) (he : h.Extends h') :
    ∀ {ds : List (DumpValue × DumpValue)} {es : List (Key × Value)}, ShowEntries R h ds es → ShowEntries R' h' ds es
  | [], _, hs => by
    exact hs
  | (_, _) :: _, _, hs => by
    rw [ShowEntries] at hs ⊢
    obtain ⟨k, v, us, hes, hk, hv, hs⟩ := hs
    exact ⟨k, v, us, hes, hk, Shows.mono hR he hv, ShowEntries.mono hR he hs⟩

end

/-- A dump shows the same value in a larger store. -/
theorem Shows.extend (he : h.Extends h') {d : DumpValue} {v : Value} (hv : d.Shows R h v) : d.Shows R h' v :=
  hv.mono (fun _ _ hr => hr) he

end DumpValue

/-! ## Regions that can be captured -/

/-- A dump can hold a value of this kind. -/
def Value.keepable : Value → Bool
  | .host _ | .items _ | .count .. | .type _ => false
  | _ => true

/-- The store has the array, map or cell that a value names. -/
def Store.Names (h : Store) : Value → Prop
  | .slice w => w.array < h.arrays.size
  | .map m => m < h.maps.size
  | .heap c => c < h.cells.size
  | _ => True

theorem Store.names_of_holds {h : Store} {v : Value} (hv : h.holds v = true) : h.Names v := by
  cases v with
  | slice w =>
    rw [holds, Bool.and_eq_true, decide_eq_true_eq] at hv
    exact hv.1
  | map | heap =>
    rw [holds, decide_eq_true_eq] at hv
    exact hv
  | _ => trivial

/-- A part of the graph that nothing leads out of, in which everything can be captured: the store has what values name,
dumps can hold every value, and every cycle goes through a heap cell. -/
structure Store.Region (h : Store) (G : Value → Prop) : Prop where
  closed : ∀ {v x}, G v → h.Leads v x → G x
  named : ∀ {v}, G v → h.Names v
  keepable : ∀ {v}, G v → v.keepable = true
  acyclic : ∀ {v}, G v → ¬TransGen h.Part v v

/-! ## Tables of cells -/

namespace CellTable

/-- The cell has the number. -/
def Has (t : CellTable) (n c : Nat) : Prop := t.met[n]? = some c

/-- The cells met are different cells of a region. -/
structure Sound (t : CellTable) (h : Store) (G : Value → Prop) : Prop where
  size : t.contents.size = t.met.size
  nodup : t.met.toList.Nodup
  region : ∀ c ∈ t.met, G (.heap c)

/-- The second table has all numbers of the first. The contents of cells that were in the first are as they were, and
the contents of the others show what the cells hold. -/
structure Grows (h : Store) (t t' : CellTable) : Prop where
  has : ∀ n c, t.Has n c → t'.Has n c
  kept : ∀ n < t.met.size, t'.contents[n]? = t.contents[n]?
  filled : ∀ n c, t.met.size ≤ n → t'.Has n c →
    ∃ d x, t'.contents[n]? = some d ∧ h.cell? c = some x ∧ d.Shows t'.Has h x

variable {h : Store} {G : Value → Prop} {t t' t'' : CellTable} {n c : Nat} {d : DumpValue}

theorem Has.lt (hn : t.Has n c) : n < t.met.size := by
  obtain ⟨hlt, -⟩ := Array.getElem?_eq_some_iff.mp hn
  exact hlt

theorem Grows.size_le (hg : t.Grows h t') : t.met.size ≤ t'.met.size := by
  rcases Nat.eq_zero_or_pos t.met.size with h0 | h0
  · omega
  · have hlt : t.met.size - 1 < t.met.size := by omega
    have := (hg.has _ _ (Array.getElem?_eq_getElem hlt)).lt
    omega

theorem Grows.refl (t : CellTable) : t.Grows h t where
  has _ _ hn := hn
  kept _ _ := rfl
  filled n c hle hn := absurd hn.lt (by omega)

theorem Grows.trans (hg : t.Grows h t') (hg' : t'.Grows h t'') : t.Grows h t'' where
  has n c hn := hg'.has n c (hg.has n c hn)
  kept n hn := (hg'.kept n (Nat.lt_of_lt_of_le hn hg.size_le)).trans (hg.kept n hn)
  filled n c hle hn := by
    by_cases hlt : n < t'.met.size
    · -- A number of the table in the middle keeps its cell, and its content was filled there.
      have hc : t'.met[n]? = some (t'.met[n]) := Array.getElem?_eq_getElem hlt
      have he : t'.met[n] = c := Option.some.inj ((hg'.has n _ hc).symm.trans hn)
      obtain ⟨d, x, hd, hx, hs⟩ := hg.filled n c hle (he ▸ hc)
      exact ⟨d, x, (hg'.kept n hlt).trans hd, hx, hs.mono hg'.has (.refl h)⟩
    · exact hg'.filled n c (by omega) hn

theorem Sound.empty : empty.Sound h G where
  size := rfl
  nodup := nodup_nil
  region c hc := by simp [CellTable.empty] at hc

/-- Where the store has what the region names, there are no more numbers than heap cells. -/
theorem Sound.size_le (ht : t.Sound h G) (hG : h.Region G) : t.met.size ≤ h.cells.size := by
  have hsub : t.met.toList ⊆ List.range h.cells.size := by
    intro c hc
    rw [mem_range]
    exact hG.named (ht.region c (Array.mem_toList_iff.mp hc))
  have := (subperm_of_subset ht.nodup hsub).length_le
  rwa [length_range, Array.length_toList] at this

theorem number?_eq_some (hn : t.number? c = some n) : t.Has n c := by
  obtain ⟨hlt, he, -⟩ := Array.findIdx?_eq_some_iff_getElem.mp hn
  rw [Has, Array.getElem?_eq_getElem hlt, eq_of_beq he]

theorem number?_eq_none (hn : t.number? c = none) : c ∉ t.met := by
  intro hc
  have := Array.findIdx?_eq_none_iff.mp hn c hc
  simp at this

/-- A cell met anew gets the next number. -/
theorem Sound.add (ht : t.Sound h G) (hc : c ∉ t.met) (hG : G (.heap c)) : (t.add c).Sound h G where
  size := by simp [CellTable.add, ht.size]
  nodup := by
    rw [CellTable.add, Array.toList_push, nodup_append]
    refine ⟨ht.nodup, nodup_singleton c, ?_⟩
    rintro a ha b hb rfl
    rw [mem_singleton] at hb
    exact hc (hb ▸ Array.mem_toList_iff.mp ha)
  region a ha := by
    rcases Array.mem_push.mp ha with ha | rfl
    · exact ht.region a ha
    · exact hG

theorem Sound.setContent (ht : t.Sound h G) : (t.setContent n d).Sound h G where
  size := by simp [CellTable.setContent, ht.size]
  nodup := ht.nodup
  region := ht.region

theorem add_has {a : Nat} (hn : t.Has n a) : (t.add c).Has n a := by
  rw [Has, add, Array.getElem?_push_lt hn.lt, ← Array.getElem?_eq_getElem hn.lt]
  exact hn

theorem add_has_self : (t.add c).Has t.met.size c := Array.getElem?_push_size

/-- A cell gets a number, then what it holds is captured, then its content is filled in. -/
theorem Grows.cell {x : Value} (ht : t.Sound h G) (ht' : t'.Sound h G)
    (hg : (t.add c).Grows h t') (hx : h.cell? c = some x) (hd : d.Shows t'.Has h x) :
    t.Grows h (t'.setContent t.contents.size d) where
  has n a hn := hg.has n a (add_has hn)
  kept n hn := by
    have hne : t.contents.size ≠ n := by
      rw [ht.size]
      omega
    have hn' : n < (t.add c).met.size := by
      rw [add, Array.size_push]
      omega
    rw [setContent, Array.getElem?_setIfInBounds_ne hne, hg.kept n hn', add,
      Array.getElem?_push_lt (by rw [ht.size]; exact hn), Array.getElem?_eq_getElem (by rw [ht.size]; exact hn)]
  filled n a hle hn := by
    by_cases he : t.contents.size = n
    · have hsize : n = t.met.size := by rw [← he, ht.size]
      have ha : a = c := Option.some.inj (hn.symm.trans (hsize ▸ hg.has _ _ add_has_self))
      refine ⟨d, x, ?_, ha ▸ hx, hd⟩
      rw [setContent, he, Array.getElem?_setIfInBounds_self_of_lt (by rw [ht'.size]; exact hn.lt)]
    · have hle' : (t.add c).met.size ≤ n := by
        rw [add, Array.size_push]
        rw [ht.size] at he
        omega
      obtain ⟨e, y, hy, hc, hs⟩ := hg.filled n a hle' hn
      refine ⟨e, y, ?_, hc, hs⟩
      rw [setContent, Array.getElem?_setIfInBounds_ne he, hy]

end CellTable

/-! ## Capturing -/

namespace DumpValue

variable (h : Store) (G : Value → Prop)

/-- Capturing from a table has succeeded: the table grows, and what it gives satisfies `P` there. -/
def Gives {α : Type} (x : Capture α) (t : CellTable) (P : CellTable → α → Prop) : Prop :=
  ∃ a t', x.run t = some (a, t') ∧ t'.Sound h G ∧ t.Grows h t' ∧ P t' a

/-- How deep capturing a value can go. -/
noncomputable def depth (t : CellTable) (v : Value) : Nat :=
  (h.cells.size - t.met.size) * (h.extent + 1) + h.rank h.Part v

/-- Capturing with `content` succeeds for every value of the region that goes less deep. -/
def Captures (content : Value → Capture DumpValue) (k : Nat) : Prop :=
  ∀ v t, G v → t.Sound h G → depth h t v < k → Gives h G (content v) t fun t' d => d.Shows t'.Has h v

variable {h G} {t : CellTable} {content : Value → Capture DumpValue} {k : Nat}

theorem Gives.pure {α : Type} {a : α} {P : CellTable → α → Prop} (ht : t.Sound h G) (ha : P t a) :
    Gives h G (Pure.pure a) t P := ⟨a, t, rfl, ht, .refl t, ha⟩

theorem Gives.bind {α β : Type} {x : Capture α} {f : α → Capture β} {P : CellTable → α → Prop}
    {Q : CellTable → β → Prop} (hx : Gives h G x t P)
    (hf : ∀ t' a, t'.Sound h G → t.Grows h t' → P t' a → Gives h G (f a) t' Q) : Gives h G (x >>= f) t Q := by
  obtain ⟨a, t', hr, ht', hg, ha⟩ := hx
  obtain ⟨b, t'', hr', ht'', hg', hb⟩ := hf t' a ht' hg ha
  refine ⟨b, t'', ?_, ht'', hg.trans hg', hb⟩
  rw [StateT.run_bind, hr]
  exact hr'

theorem unmet_le {t' : CellTable} (hg : t.Grows h t') :
    (h.cells.size - t'.met.size) * (h.extent + 1) ≤ (h.cells.size - t.met.size) * (h.extent + 1) :=
  Nat.mul_le_mul_right _ (by have := hg.size_le; omega)

theorem captureList_shows (hc : Captures h G content k) {r : Nat} :
    ∀ {vs : List Value} {t : CellTable}, (∀ v ∈ vs, G v ∧ h.rank h.Part v < r) → t.Sound h G →
      (h.cells.size - t.met.size) * (h.extent + 1) + r ≤ k →
      Gives h G (captureList content vs) t fun t' ds => ShowAll t'.Has h ds vs
  | [], t, _, ht, _ => .pure ht (by rw [ShowAll])
  | v :: vs, t, hvs, ht, hk => by
    obtain ⟨hv, hr⟩ := hvs v (.head _)
    refine (hc v t hv ht (by unfold depth; omega)).bind fun t1 d ht1 hg1 hd => ?_
    have hk1 := Nat.le_trans (Nat.add_le_add_right (unmet_le hg1) r) hk
    refine (captureList_shows hc (fun u hu => hvs u (.tail _ hu)) ht1 hk1).bind
      fun t2 ds ht2 hg2 hds => .pure ht2 ?_
    exact ⟨v, vs, rfl, hd.mono hg2.has (.refl h), hds⟩

theorem captureEntries_shows (hc : Captures h G content k) {r : Nat} :
    ∀ {es : List (Key × Value)} {t : CellTable}, (∀ e ∈ es, G e.2 ∧ h.rank h.Part e.2 < r) → t.Sound h G →
      (h.cells.size - t.met.size) * (h.extent + 1) + r ≤ k →
      Gives h G (captureEntries content es) t fun t' ds => ShowEntries t'.Has h ds es
  | [], t, _, ht, _ => .pure ht (by rw [ShowEntries])
  | (key, v) :: es, t, hes, ht, hk => by
    obtain ⟨hv, hr⟩ : G v ∧ h.rank h.Part v < r := hes (key, v) (.head _)
    refine (hc v t hv ht (by unfold depth; omega)).bind fun t1 d ht1 hg1 hd => ?_
    have hk1 := Nat.le_trans (Nat.add_le_add_right (unmet_le hg1) r) hk
    refine (captureEntries_shows hc (fun e he => hes e (.tail _ he)) ht1 hk1).bind
      fun t2 ds ht2 hg2 hds => .pure ht2 ?_
    exact ⟨key, v, es, rfl, rfl, hd.mono hg2.has (.refl h), hds⟩

/-- A cell that was not met: it gets a number, its content is captured, and the content is filled in. -/
theorem captureCell_shows (hG : h.Region G) (hc : Captures h G content k) {c : Nat} (hv : G (.heap c))
    (ht : t.Sound h G) (hk : depth h t (.heap c) ≤ k) (hn : c ∉ t.met) :
    Gives h G (do
      set (t.add c)
      let d ← content ((h.cell? c).getD .nil)
      modify (·.setContent t.contents.size d)
      return DumpValue.cell t.contents.size) t fun t' d => d.Shows t'.Has h (.heap c) := by
  have hlt : c < h.cells.size := hG.named hv
  have hx : h.cell? c = some h.cells[c] := Array.getElem?_eq_getElem hlt
  have ht1 := ht.add hn hv
  have hsize := ht1.size_le hG
  have hpush : (t.add c).met.size = t.met.size + 1 := by rw [add, Array.size_push]
  -- One cell fewer is unmet, which leaves room for the whole rank of its content.
  have hdepth : depth h (t.add c) h.cells[c] < k := by
    have hrank : h.rank h.Part h.cells[c] ≤ h.extent := rank_le_extent
    have hm : h.cells.size - t.met.size = (h.cells.size - (t.add c).met.size) + 1 := by omega
    unfold depth at hk ⊢
    rw [hm, Nat.add_mul] at hk
    omega
  obtain ⟨d, t', hr, ht', hg, hd⟩ := hc _ _ (hG.closed hv (.content hx)) ht1 hdepth
  refine ⟨.cell t.contents.size, t'.setContent t.contents.size d, ?_, ht'.setContent, .cell ht ht' hg hx hd, ?_⟩
  · rw [hx, Option.getD_some, StateT.run_bind, StateT.run_set, pure_bind, StateT.run_bind, hr]
    rfl
  · simp only [Shows]
    refine ⟨c, rfl, ?_⟩
    rw [ht.size]
    exact hg.has _ _ add_has_self

mutual

/-- A captured value shows its original. -/
theorem captureWith_shows (hG : h.Region G) (hc : Captures h G content k) : ∀ (v : Value) (t : CellTable), G v →
    t.Sound h G → depth h t v ≤ k → Gives h G (captureWith h content v) t fun t' d => d.Shows t'.Has h v
  | .nil, _, _, ht, _ | .bool _, _, _, ht, _ | .int _, _, _, ht, _ | .float _, _, _, ht, _ | .str _, _, _, ht, _
  | .ref _, _, _, ht, _ | .func _, _, _, ht, _ => by
    exact .pure ht (by rw [Shows])
  | .slice w, t, hv, ht, hk => by
    have hitems : ∀ x ∈ h.items w, G x ∧ h.rank h.Part x < h.rank h.Part (.slice w) := fun x hx =>
      have hx' := hG.closed hv (.part (.item hx))
      ⟨hx', rank_lt (.single (.item hx)) (mem_values_of_item hx) (hG.acyclic hx')⟩
    refine (captureList_shows hc hitems ht hk).bind fun t' ds ht' _ hds => .pure ht' ?_
    exact ⟨w, rfl, hG.named hv, hds⟩
  | .map m, t, hv, ht, hk => by
    rw [captureWith]
    have hentries : ∀ e ∈ h.entries m, G e.2 ∧ h.rank h.Part e.2 < h.rank h.Part (.map m) := fun e he =>
      have he' := hG.closed hv (.part (.entry he))
      ⟨he', rank_lt (.single (.entry he)) (mem_values_of_entry he) (hG.acyclic he')⟩
    refine (captureEntries_shows hc hentries ht hk).bind fun t' ds ht' _ hds => .pure ht' ?_
    rw [Shows]
    exact ⟨m, rfl, hG.named hv, hds⟩
  | .struct fs, t, hv, ht, hk => by
    have hfields : ∀ x ∈ fs, G x ∧ h.rank h.Part x ≤ h.rank h.Part (.struct fs) := fun x hx =>
      ⟨hG.closed hv (.part (.field hx)), rank_le (.field hx)⟩
    refine (captureFields_shows hG hc fs hfields ht hk).bind fun t' ds ht' _ hds => .pure ht' ?_
    exact ⟨fs, rfl, hds⟩
  | .heap c, t, hv, ht, hk => by
    rw [captureWith]
    cases hn : t.number? c with
    | some n =>
      refine ⟨.cell n, t, ?_, ht, .refl t, ?_⟩
      · rw [StateT.run_bind, StateT.run_get, pure_bind, hn]
        rfl
      · simp only [Shows]
        exact ⟨c, rfl, number?_eq_some hn⟩
    | none =>
      obtain ⟨d, t', hr, hd⟩ := captureCell_shows hG hc hv ht hk (number?_eq_none hn)
      refine ⟨d, t', ?_, hd⟩
      rw [StateT.run_bind, StateT.run_get, pure_bind, hn]
      exact hr
  | .host _, _, hv, _, _ | .items _, _, hv, _, _ | .count .., _, hv, _, _ | .type _, _, hv, _, _ =>
    absurd (hG.keepable hv) Bool.false_ne_true

theorem captureFields_shows (hG : h.Region G) (hc : Captures h G content k) {r : Nat} :
    ∀ (vs : List Value) {t : CellTable}, (∀ v ∈ vs, G v ∧ h.rank h.Part v ≤ r) → t.Sound h G →
      (h.cells.size - t.met.size) * (h.extent + 1) + r ≤ k →
      Gives h G (captureFields h content vs) t fun t' ds => ShowAll t'.Has h ds vs
  | [], t, _, ht, _ => by
    exact .pure ht (by rw [ShowAll])
  | v :: vs, t, hvs, ht, hk => by
    rw [captureFields]
    obtain ⟨hv, hr⟩ := hvs v (.head _)
    refine (captureWith_shows hG hc v t hv ht (by unfold depth; omega)).bind fun t1 d ht1 hg1 hd => ?_
    have hk1 := Nat.le_trans (Nat.add_le_add_right (unmet_le hg1) r) hk
    refine (captureFields_shows hG hc vs (fun u hu => hvs u (.tail _ hu)) ht1 hk1).bind
      fun t2 ds ht2 hg2 hds => .pure ht2 ?_
    exact ⟨v, vs, rfl, hd.mono hg2.has (.refl h), hds⟩

end

/-- So do the cells met on the way, by depth. -/
theorem captureTo_shows (hG : h.Region G) : ∀ n : Nat, Captures h G (captureTo h n) (n + 1)
  | 0 => fun v t hv ht hk =>
    captureWith_shows hG (fun _ _ _ _ hk => absurd hk (Nat.not_lt_zero _)) v t hv ht (Nat.lt_succ_iff.mp hk)
  | n + 1 => fun v t hv ht hk => captureWith_shows hG (captureTo_shows hG n) v t hv ht (Nat.lt_succ_iff.mp hk)

/-- Every value of the region is captured, whatever was captured before. -/
theorem capture_shows (hG : h.Region G) {v : Value} (hv : G v) (ht : t.Sound h G) :
    Gives h G (capture h v) t fun t' d => d.Shows t'.Has h v := by
  refine captureTo_shows hG h.reach v t hv ht ?_
  have hrank : h.rank h.Part v ≤ h.extent := rank_le_extent
  have hmul : (h.cells.size - t.met.size) * (h.extent + 1) ≤ h.cells.size * (h.extent + 1) :=
    Nat.mul_le_mul_right _ (Nat.sub_le _ _)
  have hle : h.cells.size * (h.extent + 1) + (h.extent + 1) ≤ h.reach := by
    rw [reach, ← Nat.succ_mul]
    exact Nat.mul_le_mul_left _ (by omega)
  unfold depth
  omega

end DumpValue

end Goblet
