import Goblet.Proofs.Effect
import Goblet.Machine.Aggregate

/-!
# What values refer to

A value is sound if whatever it refers to, at any depth inside structs and ranges, may be referred to (`Refs`): cells of
memory, instructions at which functions begin, and, where this is asked for, only things that the store holds, so that a
slice has all its elements. A store is sound if all values in it are.

Stores only grow (`Store.Grows`), so a sound value stays sound (`Value.Sound.grow`). Whatever is made from sound values
is sound: one lemma for each operation on the store (`newMap_sound`, `append_sound`, ...) and each function from
values to values (`range_sound`, `convert_sound`, `storeInto_sound`, ...).
-/

namespace Goblet

open List Entries Value

/-- What values may refer to. -/
structure Refs where
  /-- Cells of memory that a pointer may point to. -/
  cell : Nat → Prop
  /-- Instructions at which a function may begin. -/
  entry : Nat → Prop
  /-- Whether the store must hold what a value refers to. -/
  held : Prop

/-- A value without parts refers only to what it may. -/
def Refs.Leaf (R : Refs) (h : Store) : Value → Prop
  | .ref a => R.cell a
  | .func e => R.entry e
  | .struct _ | .items _ => False
  | v => R.held → h.holds v = true

/-- All that a value refers to, at any depth, may be referred to. -/
inductive Value.Sound (R : Refs) (h : Store) : Value → Prop
  | leaf {v : Value} (hv : R.Leaf h v) : Sound R h v
  | struct {fs : List Value} (hfs : ∀ v ∈ fs, Sound R h v) : Sound R h (.struct fs)
  | items {es : List (Key × Value)} (hes : ∀ e ∈ es, Sound R h e.2) : Sound R h (.items es)

/-- Every value in the store is sound. -/
structure Store.Sound (R : Refs) (h : Store) : Prop where
  cells : ∀ v ∈ h.cells, v.Sound R h
  arrays : ∀ a ∈ h.arrays, ∀ v ∈ a, v.Sound R h
  maps : ∀ es ∈ h.maps, ∀ e ∈ es, e.2.Sound R h

/-- The store holds all that it held. -/
def Store.Grows (h h' : Store) : Prop := ∀ v, h.holds v = true → h'.holds v = true

variable {R : Refs} {h h' : Store} {v : Value} {r : Value} {vs : List Value} {fs : List Value} {k : Key}
  {f : List (Key × Value) → List (Key × Value)} {es : List (Key × Value)}

/-! ## Values -/

namespace Value

/-- The value refers to nothing. -/
def Plain (v : Value) : Prop := ∀ (R : Refs) (h : Store), v.Sound R h

theorem plain_nil : Plain .nil := fun _ _ => .leaf fun _ => rfl
theorem plain_bool (b : Bool) : Plain (.bool b) := fun _ _ => .leaf fun _ => rfl
theorem plain_int (n : Int64) : Plain (.int n) := fun _ _ => .leaf fun _ => rfl
theorem plain_float (x : Double) : Plain (.float x) := fun _ _ => .leaf fun _ => rfl
theorem plain_str (s : String) : Plain (.str s) := fun _ _ => .leaf fun _ => rfl
theorem plain_count (i n : Int64) : Plain (.count i n) := fun _ _ => .leaf fun _ => rfl

namespace Sound

theorem holds (hv : v.Sound R h) (hR : R.held) : h.holds v = true := by
  cases hv with
  | leaf hl => cases v <;> first | exact hl hR | rfl
  | struct _ => rfl
  | items _ => rfl

theorem fields (hv : (Value.struct fs).Sound R h) : ∀ f ∈ fs, f.Sound R h := by
  cases hv with
  | leaf hl => exact hl.elim
  | struct hfs => exact hfs

theorem entries (hv : (Value.items es).Sound R h) : ∀ e ∈ es, e.2.Sound R h := by
  cases hv with
  | leaf hl => exact hl.elim
  | items hes => exact hes

theorem grow (hg : h.Grows h') (hv : v.Sound R h) : v.Sound R h' := by
  induction hv with
  | @leaf v hl =>
    refine .leaf ?_
    cases v <;> first | exact hl | exact fun hR => hg _ (hl hR)
  | struct _ ih => exact .struct ih
  | items _ ih => exact .items ih

theorem trivial (hc : ∀ a, R.cell a) (he : ∀ e, R.entry e) (hh : ¬R.held) : ∀ v : Value, v.Sound R h
  | .struct fs => .struct fun f hf =>
    have := sizeOf_lt_of_mem hf
    Sound.trivial hc he hh f
  | .items es => .items fun e hm =>
    have := sizeOf_lt_of_mem hm
    have : sizeOf e.2 < sizeOf e := by cases e; simp only [Prod.mk.sizeOf_spec]; omega
    Sound.trivial hc he hh e.2
  | .ref a => .leaf (hc a)
  | .func e => .leaf (he e)
  | .nil | .bool _ | .int _ | .float _ | .str _ | .slice _ | .map _ | .heap _ | .host _ | .count _ _ =>
      .leaf (absurd · hh)
  | .type _ => .leaf (absurd · hh)
termination_by v => sizeOf v

end Sound

theorem plain_key (k : Key) : Plain k.value := by
  cases k
  · exact plain_bool _
  · exact plain_int _
  · exact plain_str _

/-- No binary operator makes a reference. -/
theorem binary_plain {op : BinOp} {a b : Value} (hv : a.binary op b = .ok v) : Plain v := by
  have ofBool {r : Except ValueError Bool} (hr : r.map bool = .ok v) : Plain v := by
    cases r with
    | error e => cases hr
    | ok b => cases hr; exact plain_bool b
  have ofInt {r : Except ValueError Int64} (hr : r.map int = .ok v) : Plain v := by
    cases r with
    | error e => cases hr
    | ok n => cases hr; exact plain_int n
  unfold binary at hv
  split at hv
  · exact ofBool hv
  · split at hv
    · exact ofInt hv
    · split at hv
      · cases hv; exact plain_str _
      · cases hv
    · split at hv
      · split at hv
        · cases hv; exact plain_float _
        · cases hv
      · cases hv

theorem unary_plain {op : UnOp} {a : Value} (hv : a.unary op = .ok v) : Plain v := by
  unfold unary at hv
  split at hv
  · cases hv; exact plain_int _
  · cases hv; exact plain_float _
  · cases hv; exact plain_bool _
  · cases hv; exact plain_int _
  · cases hv

/-- What a range loop draws was in the range. -/
theorem next?_sound {r rest k x : Value} (hr : r.Sound R h) (hn : r.next? = some ((k, x), rest)) :
    k.Sound R h ∧ x.Sound R h ∧ rest.Sound R h := by
  unfold next? at hn
  split at hn
  · next key val es =>
    cases hn
    exact ⟨plain_key _ _ _, hr.entries _ (.head _), .items fun e he => hr.entries e (.tail _ he)⟩
  · split at hn
    · cases hn
      exact ⟨plain_int _ _ _, plain_nil _ _, plain_count _ _ _ _⟩
    · cases hn
  · cases hn

end Value

namespace Ty

mutual

/-- A type's zero value refers to nothing. -/
theorem zero_plain : ∀ t : Ty, t.zero.Plain
  | .struct _ fs => fun R h => by rw [zero]; exact .struct fun v hv => zeros_plain fs v hv R h
  | .bool => plain_bool _
  | .int => plain_int _
  | .float => plain_float _
  | .string => plain_str _
  | .unknown | .nil | .slice _ | .map _ _ | .ptr _ | .func _ _ _ | .any => plain_nil

theorem zeros_plain : ∀ fs : List (String × Ty), ∀ v ∈ zeros fs, v.Plain
  | [], _, hv => nomatch hv
  | (_, t) :: fs, v, hv => by
    rw [zeros, mem_cons] at hv
    rcases hv with rfl | hv
    · exact zero_plain t
    · exact zeros_plain fs v hv

end

end Ty

/-! ## The store -/

namespace Store

theorem Grows.refl (h : Store) : h.Grows h := fun _ hv => hv

variable {w : Window}

theorem holds_slice : h.holds (.slice w) = true ↔ w.array < h.arrays.size ∧ w.off + w.len ≤ (h.backing w).size := by
  simp only [holds, Bool.and_eq_true, decide_eq_true_eq]

/-- A store that grows holds as many things, and its arrays are no shorter. -/
theorem grows_of_sizes (hc : h.cells.size ≤ h'.cells.size) (hm : h.maps.size ≤ h'.maps.size)
    (ha : h.arrays.size ≤ h'.arrays.size)
    (hb : ∀ i < h.arrays.size, (h.arrays.getD i #[]).size ≤ (h'.arrays.getD i #[]).size) : h.Grows h' := by
  intro v hv
  cases v with
  | slice w =>
    rw [holds_slice] at hv ⊢
    exact ⟨Nat.lt_of_lt_of_le hv.1 ha, Nat.le_trans hv.2 (hb w.array hv.1)⟩
  | map m | heap c => simp only [holds, decide_eq_true_eq] at hv ⊢; omega
  | _ => rfl

/-- A store that has grown is sound if what is in it was sound before. -/
theorem Sound.change (hg : h.Grows h') (hc : ∀ v ∈ h'.cells, v.Sound R h) (ha : ∀ a ∈ h'.arrays, ∀ v ∈ a, v.Sound R h)
    (hm : ∀ es ∈ h'.maps, ∀ e ∈ es, e.2.Sound R h) : h'.Sound R :=
  ⟨fun v hv => (hc v hv).grow hg, fun a hm v hv => (ha a hm v hv).grow hg, fun es he e hv => (hm es he e hv).grow hg⟩

/-! ### What the store holds -/

theorem newCell_grows (v : Value) : h.Grows (h.newCell v).2 :=
  grows_of_sizes (by simp [newCell]) (Nat.le_refl _) (Nat.le_refl _) fun _ _ => Nat.le_refl _

theorem newCell_holds : (h.newCell v).2.holds (.heap (h.newCell v).1) = true := by simp [newCell, holds]

theorem setCell_grows (c : Nat) (v : Value) : h.Grows (h.setCell c v) :=
  grows_of_sizes (by simp [setCell]) (Nat.le_refl _) (Nat.le_refl _) fun _ _ => Nat.le_refl _

theorem push_grows (a : Array Value) : h.Grows { h with arrays := h.arrays.push a } := by
  refine grows_of_sizes (Nat.le_refl _) (Nat.le_refl _) (by simp) fun i hi => ?_
  simp [Array.getD_eq_getD_getElem?, Array.getElem?_push, Nat.ne_of_lt hi]

theorem newSlice_holds (a : Array Value) : (h.newSlice a).2.holds (.slice (h.newSlice a).1) = true := by
  simp [newSlice, holds, backing]

theorem makeSlice_holds (z : Value) (len cap : Nat) :
    (h.makeSlice z len cap).2.holds (.slice (h.makeSlice z len cap).1) = true := by
  have hle : len ≤ max cap len := Nat.le_max_right cap len
  simp [makeSlice, holds, backing, hle]

theorem modify_grows {i : Nat} {f : Array Value → Array Value} (hf : ∀ a, a.size ≤ (f a).size) :
    h.Grows { h with arrays := h.arrays.modify i f } := by
  refine grows_of_sizes (Nat.le_refl _) (Nat.le_refl _) (by simp) fun j hj => ?_
  simp only [Array.getD_eq_getD_getElem?, Array.getElem?_modify, Array.getElem?_eq_getElem hj]
  split
  · exact hf _
  · exact Nat.le_refl _

theorem put_grows (w : Window) (i : Nat) (v : Value) : h.Grows (h.put w i v) := modify_grows fun a => by simp

theorem size_writeFrom (vs : List Value) : ∀ (a : Array Value) (i : Nat), a.size ≤ (writeFrom a i vs).size := by
  induction vs with
  | nil => exact fun a _ => Nat.le_refl _
  | cons v vs ih =>
    intro a i
    refine Nat.le_trans ?_ (ih _ _)
    split <;> simp

theorem le_size_writeFrom (vs : List Value) : ∀ (a : Array Value) (i : Nat), i ≤ a.size →
    i + vs.length ≤ (writeFrom a i vs).size := by
  induction vs with
  | nil => exact fun a i hi => hi
  | cons v vs ih =>
    intro a i hi
    rw [writeFrom]
    have := ih (if i < a.size then a.setIfInBounds i v else a.push v) (i + 1) (by split <;> simp <;> omega)
    simp only [length_cons]
    omega

theorem mem_writeFrom (vs : List Value) : ∀ (a : Array Value) (i : Nat), ∀ u ∈ writeFrom a i vs, u ∈ a ∨ u ∈ vs := by
  induction vs with
  | nil => exact fun a _ u hu => .inl hu
  | cons v vs ih =>
    intro a i u hu
    rcases ih _ _ u hu with hu | hu
    · split at hu
      · rcases Array.mem_or_eq_of_mem_setIfInBounds hu with hu | rfl
        · exact .inl hu
        · exact .inr (.head _)
      · rcases Array.mem_push.mp hu with hu | rfl
        · exact .inl hu
        · exact .inr (.head _)
    · exact .inr (.tail _ hu)

theorem append_grows (w : Window) (vs : List Value) : h.Grows (h.append w vs).2 :=
  modify_grows fun a => size_writeFrom vs a _

/-- An append to a held window gives a held one. -/
theorem append_holds (vs : List Value) (hw : h.holds (.slice w) = true) :
    (h.append w vs).2.holds (.slice (h.append w vs).1) = true := by
  rw [holds_slice] at hw ⊢
  refine ⟨by simpa [append] using hw.1, ?_⟩
  have hroom := le_size_writeFrom vs (h.backing w) (w.off + w.len) hw.2
  simp only [append, backing, Array.getD_eq_getD_getElem?, Array.getElem?_modify, Array.getElem?_eq_getElem hw.1]
    at hroom ⊢
  simpa [Nat.add_assoc] using hroom

/-- A part of a held window is held. -/
theorem subslice?_holds {u : Window} {low high : Nat} (hw : h.holds (.slice w) = true)
    (hu : h.subslice? w low high = some u) : h.holds (.slice u) = true := by
  unfold subslice? at hu
  split at hu
  · next hb =>
    cases hu
    rw [holds_slice] at hw ⊢
    refine ⟨hw.1, ?_⟩
    show w.off + low + (high - low) ≤ (h.backing w).size
    unfold cap at hb
    omega
  · cases hu

theorem newMap_grows (es : List (Key × Value)) : h.Grows (h.newMap es).2 :=
  grows_of_sizes (Nat.le_refl _) (by simp [newMap]) (Nat.le_refl _) fun _ _ => Nat.le_refl _

theorem newMap_holds (es : List (Key × Value)) : (h.newMap es).2.holds (.map (h.newMap es).1) = true := by
  simp [newMap, holds]

theorem modifyMap_grows {m : Nat} :
    h.Grows { h with maps := h.maps.modify m f } :=
  grows_of_sizes (Nat.le_refl _) (by simp) (Nat.le_refl _) fun _ _ => Nat.le_refl _

end Store

/-! ### What is in the store -/

theorem Entries.get?_mem : ∀ {es : List (Key × Value)}, get? k es = some v → (k, v) ∈ es := by
  intro es
  induction es with
  | nil => exact nofun
  | cons e es ih =>
    intro he
    rw [get?] at he
    split at he
    · next hk => cases he; rw [← hk]; exact .head _
    · exact .tail _ (ih he)

theorem Entries.mem_insert {e : Key × Value} : ∀ {es : List (Key × Value)}, e ∈ insert k v es →
    e = (k, v) ∨ e ∈ es := by
  intro es
  induction es with
  | nil => exact fun he => .inl (mem_singleton.mp he)
  | cons d es ih =>
    intro he
    rw [insert] at he
    split at he
    · exact (mem_cons.mp he).imp_right (mem_cons_of_mem _)
    · split at he
      · exact mem_cons.mp he
      · rcases mem_cons.mp he with rfl | he
        · exact .inr (.head _)
        · exact (ih he).imp_right (mem_cons_of_mem _)

namespace Store

theorem mem_numbered : ∀ (vs : List Value) (i : Nat), ∀ e ∈ numbered i vs, e.2 ∈ vs := by
  intro vs
  induction vs with
  | nil => exact nofun
  | cons v vs ih =>
    intro i e he
    rcases mem_cons.mp he with rfl | he
    · exact .head _
    · exact .tail _ (ih _ e he)

theorem characters_plain : ∀ (cs : List Char) (i : Nat), ∀ e ∈ characters i cs, e.2.Plain := by
  intro cs
  induction cs with
  | nil => exact nofun
  | cons c cs ih =>
    intro i e he
    rcases mem_cons.mp he with rfl | he
    · exact plain_int _
    · exact ih _ e he

section

variable (hs : h.Sound R) {w : Window} {i m : Nat}
include hs

theorem cell?_sound {c : Nat} (hv : h.cell? c = some v) : v.Sound R h := hs.cells v (Array.mem_of_getElem? hv)

theorem newCell_sound (hv : v.Sound R h) : (h.newCell v).2.Sound R := by
  refine .change (newCell_grows v) (fun w hw => ?_) hs.arrays hs.maps
  rcases Array.mem_push.mp hw with hw | rfl
  · exact hs.cells w hw
  · exact hv

theorem setCell_sound {c : Nat} (hv : v.Sound R h) : (h.setCell c v).Sound R := by
  refine .change (setCell_grows c v) (fun w hw => ?_) hs.arrays hs.maps
  rcases Array.mem_or_eq_of_mem_setIfInBounds hw with hw | rfl
  · exact hs.cells w hw
  · exact hv

theorem backing_sound (w : Window) : ∀ v ∈ h.backing w, v.Sound R h := by
  intro v hv
  unfold backing at hv
  rw [Array.getD_eq_getD_getElem?] at hv
  cases ha : h.arrays[w.array]? with
  | none => rw [ha] at hv; simp at hv
  | some a => rw [ha] at hv; exact hs.arrays a (Array.mem_of_getElem? ha) v hv

theorem items_sound (w : Window) : ∀ v ∈ h.items w, v.Sound R h := by
  intro v hv
  refine backing_sound hs w v ?_
  obtain ⟨k, hk, rfl⟩ := Array.mem_extract_iff_getElem.mp (Array.mem_toList_iff.mp hv)
  exact Array.getElem_mem _

theorem get?_sound (hv : h.get? w i = some v) : v.Sound R h := by
  unfold get? at hv
  split at hv
  · exact backing_sound hs w v (Array.mem_of_getElem? hv)
  · cases hv

theorem push_sound {a : Array Value} (ha : ∀ v ∈ a, v.Sound R h) : Sound R { h with arrays := h.arrays.push a } := by
  refine .change (push_grows a) hs.cells (fun b hb => ?_) hs.maps
  rcases Array.mem_push.mp hb with hb | rfl
  · exact hs.arrays b hb
  · exact ha

theorem modify_sound {f : Array Value → Array Value} (hf : ∀ a, a.size ≤ (f a).size)
    (hv : ∀ a, ∀ v ∈ f a, v ∈ a ∨ v.Sound R h) : Sound R { h with arrays := h.arrays.modify i f } := by
  refine .change (modify_grows hf) hs.cells (fun a ha v hm => ?_) hs.maps
  obtain ⟨j, hj⟩ := Array.getElem?_of_mem ha
  rw [Array.getElem?_modify] at hj
  cases hold : h.arrays[j]? with
  | none => simp [hold] at hj
  | some b =>
    have hb := hs.arrays b (Array.mem_of_getElem? hold)
    rw [hold] at hj
    split at hj
    · cases hj
      exact (hv b v hm).elim (hb v) id
    · cases hj
      exact hb v hm

theorem put_sound (hv : v.Sound R h) : (h.put w i v).Sound R := by
  refine modify_sound hs (fun a => by simp) fun a u hu => ?_
  rcases Array.mem_or_eq_of_mem_setIfInBounds hu with hu | rfl
  · exact .inl hu
  · exact .inr hv

theorem append_sound (hvs : ∀ v ∈ vs, v.Sound R h) : (h.append w vs).2.Sound R :=
  modify_sound hs (fun a => size_writeFrom vs a _) fun a u hu => (mem_writeFrom vs a _ u hu).imp_right (hvs u)

theorem entries_sound (m : Nat) : ∀ e ∈ h.entries m, e.2.Sound R h := by
  intro e he
  unfold entries at he
  rw [Array.getD_eq_getD_getElem?] at he
  cases hm : h.maps[m]? with
  | none => rw [hm] at he; cases he
  | some es => rw [hm] at he; exact hs.maps es (Array.mem_of_getElem? hm) e he

theorem newMap_sound (hes : ∀ e ∈ es, e.2.Sound R h) : (h.newMap es).2.Sound R := by
  have hall : ∀ (es m : List (Key × Value)), (∀ e ∈ es, e.2.Sound R h) → (∀ e ∈ m, e.2.Sound R h) →
      ∀ e ∈ es.foldl (fun m e => insert e.1 e.2 m) m, e.2.Sound R h := by
    intro es
    induction es with
    | nil => exact fun m _ hm => hm
    | cons d es ih =>
      intro m hes hm
      refine ih _ (fun e he => hes e (.tail _ he)) fun e he => ?_
      rcases mem_insert he with rfl | he
      · exact hes d (.head _)
      · exact hm e he
  refine .change (newMap_grows es) hs.cells hs.arrays fun m hm e he => ?_
  rcases Array.mem_push.mp hm with hm | rfl
  · exact hs.maps m hm e he
  · exact hall es [] hes (nofun) e he

theorem modifyMap_sound
    (hf : ∀ es, ∀ e ∈ f es, e ∈ es ∨ e.2.Sound R h) : Sound R { h with maps := h.maps.modify m f } := by
  refine .change modifyMap_grows hs.cells hs.arrays fun es hes e he => ?_
  obtain ⟨j, hj⟩ := Array.getElem?_of_mem hes
  rw [Array.getElem?_modify] at hj
  cases hold : h.maps[j]? with
  | none => simp [hold] at hj
  | some b =>
    have hb := hs.maps b (Array.mem_of_getElem? hold)
    rw [hold] at hj
    split at hj
    · cases hj
      exact (hf b e he).elim (hb e) id
    · cases hj
      exact hb e he

theorem setEntry_sound (hv : v.Sound R h) : (h.setEntry m k v).Sound R :=
  modifyMap_sound hs fun _ _ he => (mem_insert he).elim (fun he => .inr (he ▸ hv)) .inl

theorem eraseEntry_sound : (h.eraseEntry m k).Sound R :=
  modifyMap_sound hs fun _ _ he => .inl (mem_filter.mp he).1

theorem range_sound (hr : h.range v = .ok r) : r.Sound R h := by
  unfold range at hr
  split at hr
  · cases hr; exact .items nofun
  · cases hr; exact plain_count _ _ _ _
  · cases hr; exact .items fun e he => items_sound hs _ _ (mem_numbered _ _ e he)
  · cases hr; exact .items (entries_sound hs _)
  · cases hr; exact .items fun e he => characters_plain _ _ e he _ _
  · cases hr

/-- A conversion keeps the store sound, and so is its result. -/
theorem convert_sound {dst : Ty} (hv : v.Sound R h) (hr : h.convert v dst = .ok (r, h')) :
    h.Grows h' ∧ h'.Sound R ∧ r.Sound R h' := by
  have plain {w : Value} (hw : w.Plain) (hr : (Except.ok (w, h) : Except ValueError _) = .ok (r, h')) :
      h.Grows h' ∧ h'.Sound R ∧ r.Sound R h' := by
    cases hr; exact ⟨.refl h, hs, hw _ _⟩
  have same {w : Value} (hw : w.Sound R h) (hr : (Except.ok (w, h) : Except ValueError _) = .ok (r, h')) :
      h.Grows h' ∧ h'.Sound R ∧ r.Sound R h' := by
    cases hr; exact ⟨.refl h, hs, hw⟩
  unfold convert at hr
  split at hr
  case h_10 =>
    split at hr
    · exact plain (plain_str _) hr
    · cases hr
  case h_12 s =>
    cases hr
    refine ⟨push_grows _, push_sound hs fun v hv => ?_, .leaf fun _ => newSlice_holds _⟩
    obtain ⟨b, -, rfl⟩ := mem_map.mp (mem_toArray.mp hv)
    exact plain_int _ _ _
  case h_4 => exact plain (plain_int _) hr
  case h_5 => exact plain (plain_float _) hr
  case h_9 => exact plain (plain_str _) hr
  case h_11 => exact plain (plain_str _) hr
  case h_23 =>
    split at hr
    · exact same hv hr
    · cases hr
  case h_24 => cases hr
  -- what is left converts to itself
  all_goals exact same hv hr

end

end Store

/-! ## Aggregates -/

namespace Machine

/-- What an index reads is sound. -/
theorem element_sound {c i : Value} (hs : h.Sound R) (hv : element h c i = .ok v) : v.Sound R h := by
  unfold element at hv
  split at hv
  · split at hv
    · next hget =>
      cases hv
      split at hget
      · cases hget
      · exact Store.get?_sound hs hget
    · cases hv
  · split at hv
    · cases hv; exact plain_int _ _ _
    · cases hv
  · split at hv
    · cases hv
      cases hget : get? _ (h.entries _) with
      | none => exact plain_nil _ _
      | some u => exact Store.entries_sound hs _ _ (get?_mem hget)
    · cases hv
  · cases hv
  · cases hv

/-- A slice of a sound value is sound. -/
theorem slice_sound {c : Value} {low : Int64} {high : Option Int64} (hc : c.Sound R h)
    (hv : slice h c low high = .ok v) : v.Sound R h := by
  unfold slice at hv
  split at hv
  · obtain ⟨⟨lo, hi⟩, -, hv⟩ := bind_ok.mp hv
    dsimp only at hv
    split at hv
    · next hu => cases hv; exact .leaf fun hR => Store.subslice?_holds (hc.holds hR) hu
    · cases hv
  · obtain ⟨b, -, hv⟩ := bind_ok.mp hv
    cases hv
    exact plain_str _ _ _
  · obtain ⟨b, -, hv⟩ := bind_ok.mp hv
    cases hv
    exact plain_nil _ _
  · cases hv

/-- What a store along a path gives is sound if what it is made of is. -/
def PathStore.Sound (R : Refs) (h : Store) : PathStore → Prop
  | .stored v => v.Sound R h
  | .follow p _ => p.Sound R h

theorem set_sound {i : Nat} (hfs : ∀ f ∈ fs, f.Sound R h) (hv : v.Sound R h) :
    ∀ f ∈ fs.set i v, f.Sound R h := fun f hf => (mem_or_eq_of_mem_set hf).elim (hfs f) fun he => he ▸ hv

/-- A store along a field path brings in only the new value. -/
theorem storeInto_sound {path : List Nat} {target : Value} {r : PathStore} (hv : v.Sound R h) (ht : target.Sound R h)
    (hr : storeInto v path target = .ok r) : r.Sound R h := by
  fun_induction storeInto v path target generalizing r with
  | case1 => cases hr
  | case2 => cases hr
  | case3 fs i field hf => cases hr; exact .struct (set_sound ht.fields hv)
  | case4 i fs a k rest hf | case5 i fs a k rest hf => cases hr; exact ht.fields _ (mem_of_getElem? hf)
  | case6 => cases hr
  | case7 i fs k path field _ _ _ stored hstored hf ih =>
    rw [hstored] at hr
    cases hr
    exact .struct (set_sound ht.fields (ih (ht.fields _ (mem_of_getElem? hf)) hstored))
  | case8 i fs k path field _ _ _ hf hne ih =>
    refine ih (ht.fields _ (mem_of_getElem? hf)) ?_
    cases hs : storeInto v (k :: path) field with
    | error e => rw [hs] at hr; cases hr
    | ok q =>
      cases q with
      | stored u => exact (hne u hs).elim
      | follow p path => rw [hs] at hr; exact hr
  | case9 => cases hr

theorem fit_sound {t : Ty} (hv : v.Sound R h) : (fit t v).Sound R h := by
  unfold fit
  split
  · exact plain_float _ _ _
  · exact hv

theorem setFields_sound {types : List (String × Ty)} : ∀ {is : List Nat} {vs fs : List Value},
    (∀ v ∈ vs, v.Sound R h) → (∀ f ∈ fs, f.Sound R h) → ∀ f ∈ setFields types is vs fs, f.Sound R h := by
  intro is vs fs hvs hfs
  fun_induction setFields types is vs fs with
  | case1 i is v vs fs ih =>
    refine ih (fun u hu => hvs u (.tail _ hu)) ?_
    split
    · exact set_sound hfs (fit_sound (hvs v (.head _)))
    · exact hfs
  | case2 => exact hfs

/-- The entries of a map literal are sound. -/
theorem pairs_sound {key val : Ty} (hvs : ∀ v ∈ vs, v.Sound R h)
    (hes : pairs key val vs = .ok es) : ∀ e ∈ es, e.2.Sound R h := by
  fun_induction pairs key val vs generalizing es with
  | case1 k v rest ih =>
    obtain ⟨k', -, hes⟩ := bind_ok.mp hes
    obtain ⟨es', hr, hes⟩ := bind_ok.mp hes
    cases hes
    intro e he
    rcases mem_cons.mp he with rfl | he
    · exact fit_sound (hvs v (by simp))
    · exact ih (fun u hu => hvs u (by simp [hu])) hr e he
  | case2 => cases hes; exact nofun

end Machine

end Goblet
