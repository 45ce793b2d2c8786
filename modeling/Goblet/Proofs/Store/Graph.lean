import Goblet.Store.Tree
import Mathlib.Logic.Relation
import Mathlib.Data.List.Forall2
import Mathlib.Data.Set.Function

/-!
# The graph of values

What a value leads to: its parts (elements of a slice, values of a map, fields of a struct), and through a pointer the
content of a heap cell. `Store.Reaches` is any number of such steps. A value and another in another store are alike
(`Store.Alike`) under a renaming of heap cells if they are the same tree of parts with pointers renamed.

A value has a rank (`Store.rank`), the number of things in the store that are somewhere below it. It is less for what is
found below unless that contains itself (`rank_lt`), and never more than there is in the store (`rank_le_extent`). So a
value that does not lead to one that contains itself has a text (`text_error`).
-/

namespace Goblet

open List

open Relation

namespace Store

/-- The second value is an element, an entry or a field of the first. -/
inductive Part (h : Store) : Value → Value → Prop
  | item {w : Window} {x : Value} (hx : x ∈ h.items w) : Part h (.slice w) x
  | entry {m : Nat} {e : Key × Value} (he : e ∈ h.entries m) : Part h (.map m) e.2
  | field {fs : List Value} {x : Value} (hx : x ∈ fs) : Part h (.struct fs) x

/-- The second value is a part of the first or the content of the heap cell that the first points to. -/
inductive Leads (h : Store) : Value → Value → Prop
  | part {v x : Value} (hx : h.Part v x) : Leads h v x
  | content {c : Nat} {x : Value} (hc : h.cell? c = some x) : Leads h (.heap c) x

/-- The second value is found from the first by any number of steps. -/
def Reaches (h : Store) : Value → Value → Prop := ReflTransGen h.Leads

/-- Values in two stores are the same up to a renaming of heap cells: scalars, functions and pointers into memory are
equal, slices have like elements, maps have like values at equal keys, structs have like fields, and pointers to heap
cells are renamed. -/
inductive Alike (φ : Nat → Nat) (h h' : Store) : Value → Value → Prop
  | nil : Alike φ h h' .nil .nil
  | bool (b : Bool) : Alike φ h h' (.bool b) (.bool b)
  | int (n : Int64) : Alike φ h h' (.int n) (.int n)
  | float (x : Double) : Alike φ h h' (.float x) (.float x)
  | str (s : String) : Alike φ h h' (.str s) (.str s)
  | slice {w w' : Window} (hs : List.Forall₂ (Alike φ h h') (h.items w) (h'.items w')) :
    Alike φ h h' (.slice w) (.slice w')
  | map {m m' : Nat}
    (hk : (h.entries m).map Prod.fst = (h'.entries m').map Prod.fst)
    (hs : List.Forall₂ (Alike φ h h') ((h.entries m).map Prod.snd) ((h'.entries m').map Prod.snd)) :
    Alike φ h h' (.map m) (.map m')
  | struct {fs fs' : List Value} (hs : List.Forall₂ (Alike φ h h') fs fs') : Alike φ h h' (.struct fs) (.struct fs')
  | ref (a : Nat) : Alike φ h h' (.ref a) (.ref a)
  | heap (c : Nat) : Alike φ h h' (.heap c) (.heap (φ c))
  | func (e : Nat) : Alike φ h h' (.func e) (.func e)

variable {h : Store} {x : Value}

/-! ## Ranks -/

/-- The contents of cells, the elements of arrays and the values of maps. -/
def values (h : Store) : List Value :=
  h.cells.toList ++ (h.arrays.toList.flatMap Array.toList ++ h.maps.toList.flatMap (List.map Prod.snd))

theorem length_values : h.values.length = h.extent := by
  have sum {α : Type} (f : α → Nat) : ∀ (l : List α) (n : Nat),
      l.foldl (fun n a => n + f a) n = n + (l.map f).sum := by
    intro l
    induction l with
    | nil => intro n; simp
    | cons a l ih => intro n; rw [foldl_cons, ih, map_cons, sum_cons, Nat.add_assoc]
  unfold values extent
  rw [← Array.foldl_toList, ← Array.foldl_toList, sum, sum, length_append, length_append, length_flatMap,
    length_flatMap]
  simp [Nat.add_assoc]

theorem mem_values_of_item {w : Window} (hx : x ∈ h.items w) : x ∈ h.values := by
  have hb : x ∈ h.backing w := by
    rw [items, Array.mem_toList_iff, Array.mem_extract_iff_getElem] at hx
    obtain ⟨i, hi, rfl⟩ := hx
    exact Array.getElem_mem _
  unfold backing at hb
  by_cases hw : w.array < h.arrays.size
  · rw [Array.getD_eq_getD_getElem?, Array.getElem?_eq_getElem hw] at hb
    exact mem_append_right _ (mem_append_left _ (mem_flatMap.mpr ⟨_, Array.mem_toList_iff.mpr (Array.getElem_mem hw),
      Array.mem_toList_iff.mpr hb⟩))
  · rw [Array.getD_eq_getD_getElem?, Array.getElem?_eq_none (by omega)] at hb
    simp at hb

theorem mem_values_of_entry {m : Nat} {e : Key × Value} (he : e ∈ h.entries m) : e.2 ∈ h.values := by
  unfold entries at he
  by_cases hm : m < h.maps.size
  · rw [Array.getD_eq_getD_getElem?, Array.getElem?_eq_getElem hm] at he
    exact mem_append_right _ (mem_append_right _ (mem_flatMap.mpr ⟨_, Array.mem_toList_iff.mpr (Array.getElem_mem hm),
      mem_map_of_mem he⟩))
  · rw [Array.getD_eq_getD_getElem?, Array.getElem?_eq_none (by omega)] at he
    simp at he

theorem mem_values_of_cell {c : Nat} (hc : h.cell? c = some x) : x ∈ h.values :=
  mem_append_left _ (Array.mem_toList_iff.mpr (Array.mem_of_getElem? hc))

variable {R : Value → Value → Prop} {v : Value}

open Classical in
/-- The number of things in the store that are below a value, as a relation says. -/
noncomputable def rank (h : Store) (R : Value → Value → Prop) (v : Value) : Nat :=
  h.values.countP fun x => TransGen R v x

theorem rank_le_extent : h.rank R v ≤ h.extent := by
  rw [← length_values]
  exact countP_le_length

open Classical in
theorem rank_le (hx : R v x) : h.rank R x ≤ h.rank R v := by
  refine countP_mono_left fun y _ hy => ?_
  rw [decide_eq_true_eq] at hy ⊢
  exact .head hx hy

theorem countP_lt_of_mem {α : Type} {p q : α → Bool} {l : List α} (hpq : ∀ a ∈ l, p a = true → q a = true) {a : α}
    (ha : a ∈ l) (hp : p a = false) (hq : q a = true) : l.countP p < l.countP q := by
  obtain ⟨l1, l2, rfl⟩ := append_of_mem ha
  have h1 : l1.countP p ≤ l1.countP q := countP_mono_left fun b hb => hpq b (by simp [hb])
  have h2 : l2.countP p ≤ l2.countP q := countP_mono_left fun b hb => hpq b (by simp [hb])
  rw [countP_append, countP_append, countP_cons, countP_cons, hp, hq]
  simp only [Bool.false_eq_true, if_false, if_true]
  omega

open Classical in
/-- What is below a value and not below itself is of lower rank. -/
theorem rank_lt (hx : TransGen R v x) (hm : x ∈ h.values) (ha : ¬TransGen R x x) : h.rank R x < h.rank R v := by
  refine countP_lt_of_mem (fun y _ hy => ?_) hm (decide_eq_false ha) (decide_eq_true hx)
  rw [decide_eq_true_eq] at hy ⊢
  exact hx.trans hy

/-! ## Texts -/

/-- The value leads to one that contains itself. -/
def Endless (h : Store) (v : Value) : Prop := ∃ x, h.Reaches v x ∧ TransGen h.Leads x x

section Texts

variable {content : Value → Tree}

theorem texts?_map : ∀ {vs : List Value}, (∀ x ∈ vs, (content x).text?.isSome) → (Tree.texts? (vs.map content)).isSome
  | [], _ => rfl
  | v :: vs, hs => by
    obtain ⟨s, hv⟩ := Option.isSome_iff_exists.mp (hs v (.head _))
    obtain ⟨ss, hvs⟩ := Option.isSome_iff_exists.mp (texts?_map fun x hx => hs x (.tail _ hx))
    rw [map_cons, Tree.texts?, hv, hvs]
    rfl

theorem entryTexts?_map : ∀ {es : List (Key × Value)}, (∀ e ∈ es, (content e.2).text?.isSome) →
    (Tree.entryTexts? (es.map fun (k, v) => (k, content v))).isSome
  | [], _ => rfl
  | (k, v) :: es, hs => by
    obtain ⟨s, hv⟩ := Option.isSome_iff_exists.mp (hs (k, v) (.head _))
    obtain ⟨ss, hes⟩ := Option.isSome_iff_exists.mp (entryTexts?_map fun e he => hs e (.tail _ he))
    rw [map_cons, Tree.entryTexts?, hv, hes]
    rfl

mutual

/-- A value has a text if all things of the store below it have. -/
theorem treeWith_text (hnil : (content .nil).text?.isSome) : ∀ (v : Value),
    (∀ x ∈ h.values, TransGen h.Leads v x → (content x).text?.isSome) → (h.treeWith content v).text?.isSome
  | .slice w, hs => by
    have hall := texts?_map fun x hx => hs x (mem_values_of_item hx) (.single (.part (.item hx)))
    obtain ⟨ss, hss⟩ := Option.isSome_iff_exists.mp hall
    rw [treeWith, Tree.text?, hss]
    rfl
  | .map m, hs => by
    have hall := entryTexts?_map fun e he => hs e.2 (mem_values_of_entry he) (.single (.part (.entry he)))
    obtain ⟨ss, hss⟩ := Option.isSome_iff_exists.mp hall
    rw [treeWith, Tree.text?, hss]
    rfl
  | .struct fs, hs => by
    have hall := treesWith_texts hnil fs fun f hf x hx hl => hs x hx (.head (.part (.field hf)) hl)
    obtain ⟨ss, hss⟩ := Option.isSome_iff_exists.mp hall
    rw [treeWith, Tree.text?, hss]
    rfl
  | .heap c, hs => by
    have hc : (content ((h.cell? c).getD .nil)).text?.isSome := by
      cases hc : h.cell? c with
      | none => exact hnil
      | some x => exact hs x (mem_values_of_cell hc) (.single (.content hc))
    obtain ⟨s, hs⟩ := Option.isSome_iff_exists.mp hc
    rw [treeWith, Tree.text?, hs]
    rfl
  | .nil, _ | .bool _, _ | .int _, _ | .float _, _ | .str _, _ | .ref _, _ | .func _, _ | .host _, _ | .items _, _
  | .count .., _ | .type _, _ => by
    rw [treeWith] <;> first | rfl | exact nofun

theorem treesWith_texts (hnil : (content .nil).text?.isSome) : ∀ (fs : List Value),
    (∀ f ∈ fs, ∀ x ∈ h.values, TransGen h.Leads f x → (content x).text?.isSome) →
    (Tree.texts? (h.treesWith content fs)).isSome
  | [], _ => rfl
  | f :: fs, hs => by
    obtain ⟨s, hf⟩ := Option.isSome_iff_exists.mp (treeWith_text hnil f (hs f (.head _)))
    obtain ⟨ss, hfs⟩ := Option.isSome_iff_exists.mp (treesWith_texts hnil fs fun g hg => hs g (.tail _ hg))
    rw [treesWith, Tree.texts?, hf, hfs]
    rfl

end

/-- So many levels are enough for a value that does not lead to one that contains itself. -/
theorem tree_text : ∀ {n : Nat} {v : Value}, ¬h.Endless v → h.rank h.Leads v < n → (h.tree (n + 1) v).text?.isSome
  | n + 1, v, hv, hn => by
    rw [tree]
    refine treeWith_text rfl v fun x hx hl => ?_
    have hx' : ¬h.Endless x := fun ⟨y, hy, hc⟩ => hv ⟨y, hl.to_reflTransGen.trans hy, hc⟩
    have := rank_lt hl hx fun hc => hx' ⟨x, .refl, hc⟩
    exact tree_text hx' (by omega)

end Texts

/-- Only a value that leads to one that contains itself has no text. -/
theorem text_error {c : Crash} (hc : h.text v = .error c) : c = .endless v ∧ h.Endless v := by
  unfold text at hc
  split at hc
  · cases hc
  · next hn =>
    cases hc
    refine ⟨rfl, by_contra fun hv => ?_⟩
    have := tree_text hv (Nat.lt_succ_of_le rank_le_extent)
    rw [hn] at this
    exact nomatch this

end Store

end Goblet
