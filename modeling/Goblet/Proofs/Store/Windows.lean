import Goblet.Proofs.Store.Sound

/-!
# Slices that share arrays

Slices are made, extended, cut and written one after the other (`Slices.step`), and any number of them may be windows
onto one array. Every slice stays within its array (`Slices.step_kept`), an operation gives what it should
(`Slices.Answers`), and it changes no place of an array but those it writes (`Slices.Writes`), so that the other slices
show what they showed (`Slices.run_windows`).

A slice is extended in its own array even where it is full: of two slices that extend the same one, the second
overwrites what the first has there (`Store.append_twice`).
-/

namespace Goblet

open List Store

namespace Store

variable {h : Store} {w u : Window} {a i k : Nat} {v : Value} {vs : List Value}

/-- The value at a place of an array. -/
def slot? (h : Store) (a k : Nat) : Option Value := (h.arrays.getD a #[])[k]?

theorem get?_of_lt (hk : k < w.len) : h.get? w k = h.slot? w.array (w.off + k) := if_pos hk

theorem get?_of_le (hk : w.len ≤ k) : h.get? w k = none := if_neg (Nat.not_lt.mpr hk)

theorem getElem?_items (h : Store) (w : Window) (k : Nat) : (h.items w)[k]? = h.get? w k := by
  simp only [items, get?, Array.getElem?_toList, Array.getElem?_extract]
  split <;> split <;> first | rfl | omega | exact (Array.getElem?_eq_none (by omega)).symm

theorem length_items (hw : h.holds (.slice w) = true) : (h.items w).length = w.len := by
  have := (holds_slice.mp hw).2
  simp only [items, Array.length_toList, Array.size_extract]
  omega

theorem get?_isSome (hw : h.holds (.slice w) = true) (hk : k < w.len) : (h.get? w k).isSome := by
  rw [← getElem?_items, getElem?_eq_getElem (by rwa [length_items hw])]
  rfl

theorem items_eq {l : List Value} (he : ∀ k, h.get? w k = l[k]?) : h.items w = l :=
  ext_getElem? fun k => (getElem?_items h w k).trans (he k)

/-! ## What an operation writes -/

theorem getElem?_writeFrom (vs : List Value) : ∀ (b : Array Value) (i k : Nat), i ≤ b.size →
    (writeFrom b i vs)[k]? = if i ≤ k ∧ k < i + vs.length then vs[k - i]? else b[k]? := by
  induction vs with
  | nil => intro b i k _; rw [if_neg (by simp only [length_nil]; omega)]; rfl
  | cons v vs ih =>
    intro b i k hi
    have hone : (if i < b.size then b.setIfInBounds i v else b.push v)[k]? = if k = i then some v else b[k]? := by
      split
      · rw [Array.getElem?_setIfInBounds]; grind
      · rw [Array.getElem?_push]; grind
    rw [writeFrom, ih _ _ _ (by split <;> simp <;> omega), hone]
    rcases Nat.lt_trichotomy k i with hk | rfl | hk
    · rw [if_neg (by omega), if_neg (by omega), if_neg (by omega)]
    · rw [if_neg (by omega), if_pos rfl, if_pos (by simp), Nat.sub_self, getElem?_cons_zero]
    · obtain ⟨j, rfl⟩ := Nat.exists_eq_add_of_lt hk
      rw [show i + j + 1 - (i + 1) = j by omega, show i + j + 1 - i = j + 1 by omega, getElem?_cons_succ,
        length_cons, if_neg (show ¬i + j + 1 = i by omega)]
      exact ite_congr (by simp only [eq_iff_iff]; omega) (fun _ => rfl) fun _ => rfl

theorem slot?_append (hw : h.holds (.slice w) = true) (vs : List Value) (a k : Nat) :
    (h.append w vs).2.slot? a k =
      if a = w.array ∧ w.off + w.len ≤ k ∧ k < w.off + w.len + vs.length then vs[k - (w.off + w.len)]?
      else h.slot? a k := by
  obtain ⟨hlt, hle⟩ := holds_slice.mp hw
  simp only [slot?, append, backing, Array.getD_eq_getD_getElem?, Array.getElem?_modify] at hle ⊢
  by_cases ha : w.array = a
  · subst ha
    rw [Array.getElem?_eq_getElem hlt] at hle ⊢
    simpa using getElem?_writeFrom vs _ _ k hle
  · rw [if_neg ha, if_neg fun hc => ha hc.1.symm]

theorem slot?_put (hi : h.has w i = true) (v : Value) (a k : Nat) :
    (h.put w i v).slot? a k = if a = w.array ∧ k = w.off + i then some v else h.slot? a k := by
  simp only [has, backing, Bool.and_eq_true, decide_eq_true_eq, Array.getD_eq_getD_getElem?] at hi
  simp only [slot?, put, Array.getD_eq_getD_getElem?, Array.getElem?_modify]
  by_cases ha : w.array = a
  · subst ha
    cases harr : h.arrays[w.array]? with
    | none => simp [harr] at hi
    | some b =>
      simp only [harr, Option.getD_some] at hi
      simp only [if_true, true_and, Option.map_some, Option.getD_some, Array.getElem?_setIfInBounds]
      split
      · next he => rw [if_pos he.symm, if_pos hi.2]
      · next he => rw [if_neg (Ne.symm he)]
  · rw [if_neg ha, if_neg fun hc => ha hc.1.symm]

theorem slot?_push (b : Array Value) (ha : a < h.arrays.size) :
    slot? { h with arrays := h.arrays.push b } a k = h.slot? a k := by
  simp [slot?, Array.getD_eq_getD_getElem?, Array.getElem?_push, Nat.ne_of_lt ha]

theorem has_of_lt (hw : h.holds (.slice w) = true) (hi : i < w.len) : h.has w i = true := by
  have := (holds_slice.mp hw).2
  simp only [has, Bool.and_eq_true, decide_eq_true_eq]
  omega

/-! ## What slices show -/

theorem items_append (hw : h.holds (.slice w) = true) (vs : List Value) :
    (h.append w vs).2.items (h.append w vs).1 = h.items w ++ vs := by
  refine items_eq fun k => ?_
  have hlen := length_items hw
  by_cases hk : k < w.len
  · rw [getElem?_append_left (by omega), getElem?_items, get?_of_lt hk,
      get?_of_lt (show k < w.len + vs.length by omega), slot?_append hw, if_neg (by simp only [append]; omega)]
    rfl
  · rw [getElem?_append_right (by omega)]
    by_cases hk' : k < w.len + vs.length
    · rw [get?_of_lt hk', slot?_append hw, if_pos ⟨rfl, by simp only [append]; omega⟩]
      congr 1
      simp only [append]
      omega
    · rw [get?_of_le (show w.len + vs.length ≤ k by omega), getElem?_eq_none (by omega)]

theorem items_put (hi : h.has w i = true) (hu : h.holds (.slice u) = true) (ha : u.array = w.array)
    (ho : u.off = w.off) (v : Value) : (h.put w i v).items u = (h.items u).set i v := by
  refine items_eq fun k => ?_
  rw [getElem?_set, getElem?_items, length_items hu]
  by_cases hk : k < u.len
  · rw [get?_of_lt hk, get?_of_lt hk, slot?_put hi]
    grind
  · rw [get?_of_le (by omega), get?_of_le (by omega)]
    grind

/-- Two slices that extend the same slice `w` share all of it, also where `w` was full: the second overwrites what the
first has behind `w`, and an element of `w` that is written through one of the three is written for all of them. -/
theorem append_twice (h : Store) (w : Window) (x y : List Value) (hw : h.holds (.slice w) = true) :
    let b := h.append w x
    let c := b.2.append w y
    c.2.items c.1 = h.items w ++ y ∧ c.2.items b.1 = h.items w ++ (y.take x.length ++ x.drop y.length) ∧
      ∀ s ∈ [w, b.1, c.1], ∀ t ∈ [w, b.1, c.1], ∀ i < w.len, ∀ v,
        (c.2.put s i v).items t = (c.2.items t).set i v := by
  intro b c
  have hw' : b.2.holds (.slice w) = true := append_grows w x _ hw
  have hwb : b.2.items w = h.items w := by
    refine items_eq fun k => ?_
    rw [getElem?_items]
    by_cases hk : k < w.len
    · rw [get?_of_lt hk, get?_of_lt hk, slot?_append hw, if_neg fun hc => by omega]
    · rw [get?_of_le (by omega), get?_of_le (by omega)]
  have hlen := length_items hw
  refine ⟨(items_append hw' y).trans (by rw [hwb]), items_eq fun k => ?_, fun s hs t ht i hi v => ?_⟩
  · by_cases hk : k < w.len + x.length
    · rw [get?_of_lt hk, slot?_append hw', slot?_append hw]
      simp only [show b.1 = ⟨w.array, w.off, w.len + x.length⟩ from rfl, true_and, getElem?_append,
        length_take, hlen, getElem?_items, getElem?_take, getElem?_drop]
      by_cases hkw : k < w.len
      · rw [if_neg (by omega), if_neg (by omega), if_pos hkw, get?_of_lt hkw]
      · obtain ⟨j, rfl⟩ := Nat.exists_eq_add_of_le (Nat.not_lt.mp hkw)
        rw [if_neg hkw, show w.off + (w.len + j) - (w.off + w.len) = j by omega, Nat.add_sub_cancel_left]
        by_cases hj : j < y.length
        · rw [if_pos (by omega), if_pos (by omega), if_pos (by omega)]
        · rw [if_neg (by omega), if_pos (by omega), if_neg (by omega),
            show y.length + (j - min x.length y.length) = j by omega]
    · rw [get?_of_le (show w.len + x.length ≤ k by omega), getElem?_eq_none]
      simp only [length_append, length_take, length_drop]
      omega
  · have hheld : ∀ u ∈ [w, b.1, c.1],
        c.2.holds (.slice u) = true ∧ u.array = w.array ∧ u.off = w.off ∧ w.len ≤ u.len := by
      intro u hu
      simp only [mem_cons, not_mem_nil, or_false] at hu
      rcases hu with rfl | rfl | rfl
      · exact ⟨append_grows _ y _ hw', rfl, rfl, Nat.le_refl _⟩
      · exact ⟨append_grows _ y _ (append_holds x hw), rfl, rfl, Nat.le_add_right ..⟩
      · exact ⟨append_holds y hw', rfl, rfl, Nat.le_add_right ..⟩
    obtain ⟨hsh, hsa, hso, hsl⟩ := hheld s hs
    obtain ⟨hth, hta, hto, -⟩ := hheld t ht
    exact items_put (has_of_lt hsh (by omega)) hth (hta.trans hsa.symm) (hto.trans hso.symm) v

/-- A full slice of one element, extended twice: the first extension shows the element of the second. -/
theorem append_twice_full :
    let h : Store := ⟨#[], #[#[.int 1]], #[]⟩
    let w : Window := ⟨0, 0, 1⟩
    h.cap w = w.len ∧ h.holds (.slice w) = true ∧
      ((h.append w [.int 2]).2.append w [.int 3]).2.items (h.append w [.int 2]).1 = [.int 1, .int 3] :=
  ⟨rfl, rfl, (append_twice _ _ [.int 2] [.int 3] rfl).2.1⟩

end Store

/-! ## Histories -/

/-- An operation on slices. The slice that it is applied to is given by its number among those made so far. -/
inductive SliceOp where
  | new (items : Array Value)
  | make (zero : Value) (len cap : Nat)
  | append (on : Nat) (vs : List Value)
  | cut (on low high : Nat)
  | set (on i : Nat) (v : Value)

/-- A store with all slices made in it so far. -/
structure Slices where
  store : Store
  made : List Window

namespace Slices

/-- A slice more. -/
def add (s : Slices) (r : Window × Store) : Slices := ⟨r.2, s.made ++ [r.1]⟩

/-- Carries out an operation. One that fails changes nothing. -/
def step (s : Slices) : SliceOp → Slices
  | .new items => s.add (s.store.newSlice items)
  | .make zero len cap => s.add (s.store.makeSlice zero len cap)
  | .append on vs => s.made[on]?.elim s fun w => s.add (s.store.append w vs)
  | .cut on low high => (s.made[on]?.bind (s.store.subslice? · low high)).elim s fun u => s.add (u, s.store)
  | .set on i v => s.made[on]?.elim s fun w => { s with store := (s.store.set w i v).2 }

/-- What there is after operations that begin with nothing. -/
def run (ops : List SliceOp) : Slices := ops.foldl step ⟨.empty, []⟩

/-- What the slice shows that an operation makes, or the one that it writes. -/
def Answers (s : Slices) (op : SliceOp) : Prop :=
  let t := s.step op
  match op with
  | .new items => ∃ w, t.made = s.made ++ [w] ∧ t.store.items w = items.toList
  | .make zero len cap =>
    ∃ w, t.made = s.made ++ [w] ∧ t.store.items w = List.replicate len zero ∧ t.store.cap w = max cap len
  | .append on vs => ∀ w, s.made[on]? = some w →
    ∃ u, t.made = s.made ++ [u] ∧ t.store.items u = s.store.items w ++ vs
  | .cut on low high => ∀ w, s.made[on]? = some w → t.store = s.store ∧
    if low ≤ high ∧ high ≤ s.store.cap w then
      ∃ u, t.made = s.made ++ [u] ∧
        s.store.items u = ((s.store.backing w).toList.drop (w.off + low)).take (high - low)
    else t.made = s.made
  | .set on i v => ∀ w, s.made[on]? = some w → t.made = s.made ∧ t.store.items w = (s.store.items w).set i v

/-- The places of arrays that an operation writes: those just behind a slice that is extended, or the one place of the
element that is set. -/
def Writes (s : Slices) (a k : Nat) : SliceOp → Prop
  | .append on vs => ∃ w, s.made[on]? = some w ∧ a = w.array ∧
    w.off + w.len ≤ k ∧ k < w.off + w.len + vs.length
  | .set on i _ => ∃ w, s.made[on]? = some w ∧ a = w.array ∧ i < w.len ∧ k = w.off + i
  | _ => False

/-- Every slice lies within its array. -/
def InRange (s : Slices) : Prop := ∀ w ∈ s.made, s.store.holds (.slice w) = true

/-- What an operation that writes certain places leaves as it is. -/
structure Kept (s t : Slices) (writes : Nat → Nat → Prop) : Prop where
  made : s.made <+: t.made
  inRange : t.InRange
  slot : ∀ a < s.store.arrays.size, ∀ k, ¬writes a k → t.store.slot? a k = s.store.slot? a k

variable {s : Slices} {writes : Nat → Nat → Prop}

theorem InRange.kept (hs : s.InRange) : s.Kept s writes := ⟨prefix_rfl, hs, fun _ _ _ _ => rfl⟩

theorem InRange.add (hs : s.InRange) {r : Window × Store} (hg : s.store.Grows r.2) (hr : r.2.holds (.slice r.1) = true)
    (hslot : ∀ a < s.store.arrays.size, ∀ k, ¬writes a k → r.2.slot? a k = s.store.slot? a k) :
    s.Kept (s.add r) writes := by
  refine ⟨prefix_append .., fun w hw => ?_, hslot⟩
  rcases mem_append.mp hw with hw | hw
  · exact hg _ (hs w hw)
  · rwa [mem_singleton.mp hw]

theorem step_kept (hs : s.InRange) (op : SliceOp) : s.Kept (s.step op) (s.Writes · · op) := by
  cases op with
  | new items =>
    exact hs.add (push_grows _) (newSlice_holds items) fun _ ha _ _ => slot?_push _ ha
  | make zero len cap =>
    exact hs.add (push_grows _) (makeSlice_holds zero len cap) fun _ ha _ _ => slot?_push _ ha
  | append on vs =>
    rw [step]
    cases hw : s.made[on]? with
    | none => exact hs.kept
    | some w =>
      have hheld := hs w (mem_of_getElem? hw)
      refine hs.add (append_grows w vs) (append_holds vs hheld) fun a _ k hk => ?_
      rw [slot?_append hheld, if_neg fun hc => hk ⟨w, hw, hc⟩]
  | cut on low high =>
    rw [step]
    cases hu : s.made[on]?.bind (s.store.subslice? · low high) with
    | none => exact hs.kept
    | some u =>
      obtain ⟨w, hw, hu⟩ := Option.bind_eq_some_iff.mp hu
      exact hs.add (Store.Grows.refl _) (subslice?_holds (hs w (mem_of_getElem? hw)) hu) fun _ _ _ _ => rfl
  | set on i v =>
    rw [step]
    cases hw : s.made[on]? with
    | none => exact hs.kept
    | some w =>
      rw [Option.elim_some, Store.set]
      split
      · next hi =>
        refine ⟨prefix_rfl, fun u hu => put_grows w i v _ (hs u hu), fun a _ k hk => ?_⟩
        have hlt : i < w.len := by simp_all [has]
        exact (slot?_put hi v a k).trans (if_neg fun hc => hk ⟨w, hw, hc.1, hlt, hc.2⟩)
      · exact hs.kept

theorem run_inRange (ops : List SliceOp) : (run ops).InRange :=
  List.foldlRecOn ops step (fun _ hw => by cases hw) fun _ hs op _ => (step_kept hs op).inRange

theorem step_answers (hs : s.InRange) (op : SliceOp) : s.Answers op := by
  cases op with
  | new items => exact ⟨_, rfl, by simp [step, add, Store.newSlice, Store.items, Store.backing]⟩
  | make zero len cap =>
    refine ⟨_, rfl, ?_, ?_⟩
    · simp only [step, add, Store.makeSlice, Store.items, Store.backing, Array.getD_eq_getD_getElem?, Array.size_push,
        Nat.lt_add_one, getElem?_pos, Array.getElem_push_eq, Option.getD_some, Nat.zero_add, Array.extract_replicate,
        Nat.sub_zero, Array.toList_replicate, Nat.min_eq_left (Nat.le_max_right cap len)]
    · simp [step, add, Store.makeSlice, Store.cap, Store.backing]
  | append on vs =>
    intro w hw
    simp only [step, hw, Option.elim_some]
    exact ⟨_, rfl, Store.items_append (hs w (mem_of_getElem? hw)) vs⟩
  | cut on low high =>
    intro w hw
    simp only [step, hw, Option.bind_some, Store.subslice?]
    split
    · refine ⟨rfl, _, rfl, ?_⟩
      simp [Store.items, Store.backing]
    · exact ⟨rfl, rfl⟩
  | set on i v =>
    intro w hw
    have hheld := hs w (mem_of_getElem? hw)
    simp only [step, hw, Option.elim_some, Store.set]
    split
    · next hi => exact ⟨trivial, Store.items_put hi hheld rfl rfl v⟩
    · next hi =>
      refine ⟨trivial, (set_eq_of_length_le (l := s.store.items w) ?_).symm⟩
      rw [Store.length_items hheld]
      exact Nat.not_lt.mp fun hlt => hi (Store.has_of_lt hheld hlt)

/-- Whatever operations have been carried out: every slice lies within its array and shows as many elements as it is
long, and the next operation gives what it should, keeps all slices as they are, and changes only the places that it
writes, so that no slice shows anything else elsewhere. -/
theorem run_windows (ops : List SliceOp) (op : SliceOp) :
    let s := run ops
    (∀ w ∈ s.made, w.off + w.len ≤ (s.store.backing w).size ∧ (s.store.items w).length = w.len ∧
        ∀ k < w.len, (s.store.get? w k).isSome) ∧
      s.Answers op ∧ s.made <+: (s.step op).made ∧
      (∀ a < s.store.arrays.size, ∀ k, ¬s.Writes a k op → (s.step op).store.slot? a k = s.store.slot? a k) ∧
      ∀ w ∈ s.made, ∀ k, ¬s.Writes w.array (w.off + k) op → (s.step op).store.get? w k = s.store.get? w k := by
  intro s
  have hs : s.InRange := run_inRange ops
  have hkept := step_kept hs op
  refine ⟨fun w hw => ?_, step_answers hs op, hkept.made, hkept.slot, fun w hw k hk => ?_⟩
  · exact ⟨(holds_slice.mp (hs w hw)).2, length_items (hs w hw), fun k => get?_isSome (hs w hw)⟩
  · by_cases hlt : k < w.len
    · rw [get?_of_lt hlt, get?_of_lt hlt, hkept.slot _ (holds_slice.mp (hs w hw)).1 _ hk]
    · rw [get?_of_le (by omega), get?_of_le (by omega)]

end Slices

end Goblet
