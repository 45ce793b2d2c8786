import Goblet.Compile.Chunk
import Goblet.Proofs.Code
import Goblet.Proofs.Symbol

/-!
# Code as instructions and labels

What a chunk has added so far is a list of items: instructions, jumps to labels, and labels. `Assembled b items d` says
that the code from index `b` on is these items, where a jump has its distance or is still open. Adding an instruction
or a label adds an item; when in the end the open jumps get their distances, every jump leads to its label
(`closeJumps_ok`).
-/

namespace Goblet

open List SymbolTable

/-- A part of code before its jumps have their distances. -/
inductive Item where
  | op (o : Op)
  /-- An instruction that jumps to a label; the distance it has here does not count. -/
  | jump (o : Op) (label : String)
  | label (name : String)

namespace Item

/-- The number of instructions. -/
def size : Item → Nat
  | .op _ | .jump _ _ => 1
  | .label _ => 0

/-- The number of instructions of items. -/
def sizes : List Item → Nat
  | [] => 0
  | it :: items => it.size + sizes items

@[simp] theorem sizes_nil : sizes [] = 0 := rfl

@[simp] theorem sizes_cons (it : Item) (items : List Item) : sizes (it :: items) = it.size + sizes items := rfl

@[simp] theorem sizes_append (xs ys : List Item) : sizes (xs ++ ys) = sizes xs + sizes ys := by
  induction xs with
  | nil => simp
  | cons x xs ih => simp [ih, Nat.add_assoc]

@[simp] theorem size_op (o : Op) : (op o).size = 1 := rfl

@[simp] theorem size_jump (o : Op) (l : String) : (jump o l).size = 1 := rfl

@[simp] theorem size_label (l : String) : (label l).size = 0 := rfl

/-- The index before which the last label stands. -/
def lastLabel (n : Nat) : List Item → Option Nat
  | [] => none
  | .label _ :: items => some ((lastLabel n items).getD n)
  | it :: items => lastLabel (n + it.size) items

/-- Whether the last item is a label. -/
def endsAtLabel (items : List Item) : Bool :=
  match items.getLast? with
  | some (.label _) => true
  | _ => false

theorem endsAtLabel_append {xs ys : List Item} (h : ys ≠ []) :
    endsAtLabel (xs ++ ys) = endsAtLabel ys := by
  have hy : (xs ++ ys).getLast? = ys.getLast? := by
    rw [getLast?_append, getLast?_eq_some_getLast h, Option.some_or]
  rw [endsAtLabel, endsAtLabel, hy]

theorem lastLabel_append_op (o : Op) : ∀ (n : Nat) (items : List Item),
    lastLabel n (items ++ [.op o]) = lastLabel n items
  | _, [] => rfl
  | n, .label _ :: items => by simp only [cons_append, lastLabel, lastLabel_append_op o n items]
  | n, .op _ :: items | n, .jump _ _ :: items => lastLabel_append_op o (n + 1) items

theorem lastLabel_append_jump (o : Op) (l : String) : ∀ (n : Nat) (items : List Item),
    lastLabel n (items ++ [.jump o l]) = lastLabel n items
  | _, [] => rfl
  | n, .label _ :: items => by simp only [cons_append, lastLabel, lastLabel_append_jump o l n items]
  | n, .op _ :: items | n, .jump _ _ :: items => lastLabel_append_jump o l (n + 1) items

theorem lastLabel_append_label (l : String) : ∀ (n : Nat) (items : List Item),
    lastLabel n (items ++ [.label l]) = some (n + sizes items)
  | _, [] => rfl
  | n, .label _ :: items => by
    simp only [cons_append, lastLabel, lastLabel_append_label l n items, sizes_cons, size_label, Nat.zero_add,
      Option.getD_some]
  | n, .op _ :: items => by
    simp only [cons_append, lastLabel, lastLabel_append_label l, sizes_cons, size_op, Nat.add_assoc]
  | n, .jump _ _ :: items => by
    simp only [cons_append, lastLabel, lastLabel_append_label l, sizes_cons, size_jump, Nat.add_assoc]

theorem lastLabel_le : ∀ {n i : Nat} {items : List Item}, lastLabel n items = some i → i ≤ n + sizes items
  | n, i, .label _ :: items, h => by
    simp only [lastLabel, Option.some.injEq] at h
    simp only [sizes_cons, size_label, Nat.zero_add]
    cases hl : lastLabel n items with
    | none =>
      rw [hl] at h
      have h : n = i := h
      omega
    | some k =>
      rw [hl] at h
      have h : k = i := h
      have := lastLabel_le hl
      omega
  | n, i, .op _ :: items, h => by
    have h : lastLabel (n + 1) items = some i := h
    have := lastLabel_le h
    simp only [sizes_cons, size_op]
    omega
  | n, i, .jump _ _ :: items, h => by
    have h : lastLabel (n + 1) items = some i := h
    have := lastLabel_le h
    simp only [sizes_cons, size_jump]
    omega

/-- A label stands before the index behind items just if it is the last item. -/
theorem lastLabel_eq_end (n : Nat) (items : List Item) :
    lastLabel n items = some (n + sizes items) ↔ endsAtLabel items = true := by
  rcases eq_nil_or_concat items with rfl | ⟨init, it, rfl⟩
  · simp [lastLabel, endsAtLabel]
  · cases it with
    | label l => simp [concat_eq_append, lastLabel_append_label, endsAtLabel]
    | op o =>
      simp only [concat_eq_append, lastLabel_append_op, sizes_append, sizes_cons, size_op, sizes_nil,
        endsAtLabel, getLast?_append, getLast?_singleton, Option.some_or, Bool.false_eq_true, iff_false]
      intro h
      have := lastLabel_le h
      omega
    | jump o l =>
      simp only [concat_eq_append, lastLabel_append_jump, sizes_append, sizes_cons, size_jump, sizes_nil,
        endsAtLabel, getLast?_append, getLast?_singleton, Option.some_or, Bool.false_eq_true, iff_false]
      intro h
      have := lastLabel_le h
      omega

end Item

/-! ## Code that holds items -/

namespace Item

variable {code code' : Array Instr} {opens opens' : List OpenJump} {at? at?' : String → Option Nat} {i n : Nat}

/-- The item stands at an index of code with these open jumps and labels. -/
def Fits (code : Array Instr) (opens : List OpenJump) (at? : String → Option Nat) (i : Nat) : Item → Prop
  | .op o => OpAt code i o ∧ ∀ j ∈ opens, j.site ≠ i
  | .jump o l =>
    o.offset?.isSome ∧ (∀ j ∈ opens, j.site = i → j.target = .label l) ∧
      ∃ o', OpAt code i o' ∧ (∀ rel, o'.withOffset? rel = o.withOffset? rel) ∧
        ((∃ j ∈ opens, j.site = i) ∨ ∃ t : Nat, at? l = some t ∧ o.withOffset? ((t : Int) - i) = some o')
  | .label l => at? l = some i

/-- The items stand one after another from an index on. -/
def Stand (code : Array Instr) (opens : List OpenJump) (at? : String → Option Nat) : (n : Nat) → List Item → Prop
  | _, [] => True
  | n, it :: items => it.Fits code opens at? n ∧ Stand code opens at? (n + it.size) items

/-- Code stands piece by piece. -/
theorem stand_append {xs ys : List Item} : Stand code opens at? n (xs ++ ys) ↔
    Stand code opens at? n xs ∧ Stand code opens at? (n + sizes xs) ys := by
  induction xs generalizing n with
  | nil => simp [Stand]
  | cons x xs ih => simp only [cons_append, Stand, ih, sizes_cons, and_assoc, Nat.add_assoc]

variable {it : Item}

theorem stand_singleton : Stand code opens at? n [it] ↔ it.Fits code opens at? n := by
  simp only [Stand, and_true]

theorem Stand.imp : ∀ {items : List Item} {n : Nat}, Stand code opens at? n items →
    (∀ (i : Nat) (it : Item), n ≤ i → i + it.size ≤ n + sizes items → it.Fits code opens at? i →
    it.Fits code' opens' at?' i) →
    Stand code' opens' at?' n items
  | [], _, _, _ => trivial
  | it :: items, n, h, hf => by
    refine ⟨hf n it (Nat.le_refl n) ?_ h.1, h.2.imp fun i jt hi hs => hf i jt ?_ ?_⟩
    · simp
    · omega
    · simp only [sizes_cons]
      omega

theorem Fits.of_code (h : it.Fits code opens at? i) (hc : it.size = 1 → code'[i]? = code[i]?) :
    it.Fits code' opens at? i := by
  cases it with
  | label l => exact h
  | op o => exact ⟨by rw [OpAt, hc rfl]; exact h.1, h.2⟩
  | jump o l =>
    obtain ⟨ho, ht, o', hat, hr⟩ := h
    exact ⟨ho, ht, o', by rw [OpAt, hc rfl]; exact hat, hr⟩

theorem Fits.of_opens {j : OpenJump} (h : it.Fits code opens at? i) (hj : it.size = 1 → j.site ≠ i) :
    it.Fits code (opens ++ [j]) at? i := by
  have hm : ∀ k ∈ opens ++ [j], k ∈ opens ∨ k = j := fun k hk => by simpa using hk
  cases it with
  | label l => exact h
  | op o =>
    refine ⟨h.1, fun k hk => ?_⟩
    rcases hm k hk with hk | rfl
    · exact h.2 k hk
    · exact hj rfl
  | jump o l =>
    obtain ⟨ho, ht, o', hat, hl, hr⟩ := h
    refine ⟨ho, fun k hk hs => ?_, o', hat, hl, hr.imp_left fun ⟨k, hk, hs⟩ => ⟨k, mem_append_left _ hk, hs⟩⟩
    rcases hm k hk with hk | rfl
    · exact ht k hk hs
    · exact absurd hs (hj rfl)

theorem Fits.of_labels (h : it.Fits code opens at? i) (ha : ∀ l t, at? l = some t → at?' l = some t) :
    it.Fits code opens at?' i := by
  cases it with
  | label l => exact ha l i h
  | op o => exact h
  | jump o l =>
    obtain ⟨ho, ht, o', hat, hl, hr⟩ := h
    exact ⟨ho, ht, o', hat, hl, hr.imp_right fun ⟨t, hat, hr⟩ => ⟨t, ha l t hat, hr⟩⟩

end Item

/-! ## What a chunk has added -/

/-- The part of the state of the compiler that code is made in. -/
structure Draft where
  code : Array Instr
  jumps : List OpenJump
  labels : List String
  symbols : SymbolTable
  lastLabel : Option Nat

namespace Draft

/-- The index a label of this chunk stands at. -/
def labelAt (d : Draft) (name : String) : Option Nat := if d.labels.contains name then d.symbols.label? name else none

end Draft

def CompileState.draft (s : CompileState) : Draft := ⟨s.program.code, s.jumps, s.labels, s.symbols, s.lastLabel⟩

/-- The code from an index on is these items. -/
structure Assembled (b : Nat) (items : List Item) (d : Draft) : Prop where
  size : d.code.size = b + Item.sizes items
  stand : Item.Stand d.code d.jumps d.labelAt b items
  sites : ∀ j ∈ d.jumps, j.site < d.code.size
  targets : ∀ j ∈ d.jumps, ∃ o l, j.target = .label l ∧ .jump o l ∈ items
  labels : ∀ l ∈ d.labels, .label l ∈ items
  lastLabel : d.lastLabel = Item.lastLabel b items

namespace Assembled

open Item

variable {b : Nat} {items : List Item} {d : Draft} {o o' : Op} {p : Pos} {l : String} {rel : Int} {j : OpenJump}

theorem opAt_push {code : Array Instr} : OpAt (code.push ⟨o, p⟩) code.size o := ⟨p, by simp⟩

theorem stand_push (h : Assembled b items d) (x : Instr) : Stand (d.code.push x) d.jumps d.labelAt b items := by
  refine h.stand.imp fun i it _ hi hf => hf.of_code fun hs => ?_
  rw [Array.getElem?_push_lt (by have := h.size; omega)]
  exact (Array.getElem?_eq_getElem _).symm

theorem sites_push (h : Assembled b items d) (x : Instr) (hj : j ∈ d.jumps) :
    j.site < (d.code.push x).size := by
  rw [Array.size_push]
  exact Nat.lt_succ_of_lt (h.sites j hj)

theorem targets_append (h : Assembled b items d) (more : List Item) (hj : j ∈ d.jumps) :
    ∃ o l, j.target = .label l ∧ .jump o l ∈ items ++ more := by
  obtain ⟨o, l, hl, hm⟩ := h.targets j hj
  exact ⟨o, l, hl, mem_append_left _ hm⟩

/-- An instruction is appended. -/
theorem emit (h : Assembled b items d) (o : Op) (p : Pos) :
    Assembled b (items ++ [.op o]) { d with code := d.code.push ⟨o, p⟩ } where
  size := by simp [h.size]; omega
  stand := by
    refine stand_append.mpr ⟨h.stand_push _, stand_singleton.mpr ⟨?_, fun j hj => ?_⟩⟩
    · rw [← h.size]
      exact opAt_push
    · rw [← h.size]
      exact Nat.ne_of_lt (h.sites j hj)
  sites j hj := h.sites_push _ hj
  targets j hj := h.targets_append _ hj
  labels l hl := mem_append_left _ (h.labels l hl)
  lastLabel := h.lastLabel.trans (lastLabel_append_op o b items).symm

/-- A jump ahead stays open until its label. -/
theorem jumpOpen (h : Assembled b items d) (ho : o.offset?.isSome) (p q : Pos) (l : String) :
    Assembled b (items ++ [.jump o l])
      { d with code := d.code.push ⟨o, p⟩, jumps := d.jumps ++ [⟨d.code.size, .label l, q⟩] } where
  size := by simp [h.size]; omega
  stand := by
    refine stand_append.mpr ⟨(h.stand_push _).imp fun i it _ hi hf => hf.of_opens fun hs => ?_,
      stand_singleton.mpr ⟨ho, fun j hj hs => ?_, o, ?_, fun _ => rfl,
        .inl ⟨_, mem_append_right _ (mem_singleton_self _), h.size⟩⟩⟩
    · have := h.size
      simp only
      omega
    · rcases mem_append.mp hj with hj | hj
      · have := h.sites j hj
        have := h.size
        omega
      · rw [mem_singleton.mp hj]
    · rw [← h.size]
      exact opAt_push
  sites j hj := by
    rcases mem_append.mp hj with hj | hj
    · exact h.sites_push _ hj
    · rw [mem_singleton.mp hj, Array.size_push]
      exact Nat.lt_succ_self _
  targets j hj := by
    rcases mem_append.mp hj with hj | hj
    · exact h.targets_append _ hj
    · rw [mem_singleton.mp hj]
      exact ⟨o, l, rfl, by simp⟩
  labels l hl := mem_append_left _ (h.labels l hl)
  lastLabel := h.lastLabel.trans (lastLabel_append_jump o l b items).symm

theorem withOffset?_withOffset? (h : o.withOffset? rel = some o') (r : Int) :
    o'.withOffset? r = o.withOffset? r := by
  cases o <;> cases h <;> rfl

theorem withOffset?_of_isSome (h : o.offset?.isSome) (rel : Int) : ∃ o', o.withOffset? rel = some o' := by
  cases o <;> first | exact ⟨_, rfl⟩ | cases h

theorem isSome_of_withOffset? (h : o.withOffset? rel = some o') : o.offset?.isSome := by
  cases o <;> first | rfl | cases h

/-- A jump back is patched at once. -/
theorem jumpBack (h : Assembled b items d) {t : Nat} (ht : d.labelAt l = some t)
    (ho : o.withOffset? ((t : Int) - d.code.size) = some o') (p : Pos) :
    Assembled b (items ++ [.jump o l]) { d with code := d.code.push ⟨o', p⟩ } where
  size := by simp [h.size]; omega
  stand := by
    refine stand_append.mpr ⟨h.stand_push _, stand_singleton.mpr ⟨isSome_of_withOffset? ho, fun j hj hs => ?_, o', ?_,
      withOffset?_withOffset? ho, .inr ⟨t, ht, by rw [← h.size]; exact ho⟩⟩⟩
    · have := h.sites j hj
      have := h.size
      omega
    · rw [← h.size]
      exact opAt_push
  sites j hj := h.sites_push _ hj
  targets j hj := h.targets_append _ hj
  labels l hl := mem_append_left _ (h.labels l hl)
  lastLabel := h.lastLabel.trans (lastLabel_append_jump o l b items).symm

/-- A new label stands where it is put, and those before it where they were. -/
theorem labelAt_addLabel (d : Draft) (l : String) (i : Nat) (m : String) :
    Draft.labelAt { d with labels := l :: d.labels, symbols := d.symbols.addLabel l i } m =
      if m = l then some i else d.labelAt m := by
  have hs : (d.symbols.addLabel l i).label? m = if m = l then some i else d.symbols.label? m := by
    simp only [label?, addLabel, lookup?_add]
    by_cases hm : m = l
    · simp [hm]
    · have hk : labelKey m ≠ labelKey l := fun hk => hm (labelKey_inj hk)
      simp [hm, hk]
  simp only [Draft.labelAt, hs]
  by_cases hm : m = l
  · simp [hm]
  · simp [hm]

/-- A label is put where the code ends. -/
theorem label (h : Assembled b items d) (hl : l ∉ d.labels) : Assembled b (items ++ [.label l])
    { d with labels := l :: d.labels, symbols := d.symbols.addLabel l d.code.size, lastLabel := some d.code.size } where
  size := by simpa using h.size
  stand := by
    have ha := labelAt_addLabel d l d.code.size
    refine stand_append.mpr ⟨h.stand.imp fun i it _ _ hf => hf.of_labels fun m t hm => ?_, stand_singleton.mpr ?_⟩
    · have hne : m ≠ l := by
        rintro rfl
        simp [Draft.labelAt, hl] at hm
      exact (ha m).trans ((if_neg hne).trans hm)
    · exact (ha l).trans ((if_pos rfl).trans (congrArg some h.size))
  sites := h.sites
  targets j hj := h.targets_append _ hj
  labels m hm := by
    rcases mem_cons.mp hm with rfl | hm
    · simp
    · exact mem_append_left _ (h.labels m hm)
  lastLabel := by rw [lastLabel_append_label, ← h.size]

theorem replace (h : Assembled b (items ++ [.op o]) d) (o' : Op) : Assembled b (items ++ [.op o'])
    { d with code := d.code.modify (b + sizes items) fun x => { x with op := o' } } where
  size := by simpa using h.size
  stand := by
    obtain ⟨hs, hl⟩ := stand_append.mp h.stand
    obtain ⟨⟨q, hq⟩, hj⟩ := stand_singleton.mp hl
    refine stand_append.mpr ⟨hs.imp fun i it _ hi hf => hf.of_code fun h1 => ?_, stand_singleton.mpr ⟨⟨q, ?_⟩, hj⟩⟩
    · rw [Array.getElem?_modify, if_neg (by omega)]
    · rw [Array.getElem?_modify, if_pos rfl, hq]
      rfl
  sites := by simpa using h.sites
  targets j hj := by
    obtain ⟨o, l, hl, hm⟩ := h.targets j hj
    exact ⟨o, l, hl, by simpa using hm⟩
  labels l hl := by
    have := h.labels l hl
    simpa using this
  lastLabel := by rw [h.lastLabel, lastLabel_append_op, lastLabel_append_op]

/-- The last instruction can be taken back. -/
theorem cut (h : Assembled b (items ++ [.op o]) d) :
    Assembled b items { d with code := d.code.take (b + sizes items) } where
  size := by
    have := h.size
    simp only [sizes_append, sizes_cons, size_op, sizes_nil] at this
    simp only [Array.take_eq_extract, Array.size_extract]
    omega
  stand := by
    obtain ⟨hs, hl⟩ := stand_append.mp h.stand
    refine hs.imp fun i it _ hi hf => hf.of_code fun h1 => ?_
    rw [Array.take_eq_extract, Array.getElem?_extract]
    have := h.size
    simp only [sizes_append, sizes_cons, size_op, sizes_nil] at this
    rw [if_pos (by omega), Nat.zero_add]
  sites j hj := by
    obtain ⟨-, hl⟩ := stand_append.mp h.stand
    have hne := (stand_singleton.mp hl).2 j hj
    have hlt := h.sites j hj
    have := h.size
    simp only [sizes_append, sizes_cons, size_op, sizes_nil] at this
    simp only [Array.take_eq_extract, Array.size_extract]
    omega
  targets j hj := by
    obtain ⟨o, l, hl, hm⟩ := h.targets j hj
    exact ⟨o, l, hl, by simpa using hm⟩
  labels l hl := by
    have := h.labels l hl
    simpa using this
  lastLabel := by rw [h.lastLabel, lastLabel_append_op]

theorem symbols (h : Assembled b items d) {t : SymbolTable}
    (ht : ∀ l, t.lookup? (labelKey l) = d.symbols.lookup? (labelKey l)) :
    Assembled b items { d with symbols := t } where
  size := h.size
  stand := h.stand.imp fun i it _ _ hf => hf.of_labels fun m k hm => by
    simp only [Draft.labelAt, label?] at hm ⊢
    rw [ht m]
    exact hm
  sites := h.sites
  targets := h.targets
  labels := h.labels
  lastLabel := h.lastLabel

end Assembled

/-! ## Open jumps get their distances -/

namespace Compile

open Item

variable {s s' : CompileState} {b : Nat} {items : List Item} {j : OpenJump} {js : List OpenJump} {t : Nat} {l : String}

theorem patch_eq (site t : Nat) (s : CompileState) : ∃ code, patch site t s = .ok () { s with program.code := code } ∧
    code.size = s.program.code.size ∧ (∀ i, i ≠ site → code[i]? = s.program.code[i]?) ∧
    ∀ x o, s.program.code[site]? = some x → x.op.withOffset? ((t : Int) - site) = some o → OpAt code site o := by
  cases h : s.program.setOffset? site ((t : Int) - site) with
  | none =>
    refine ⟨s.program.code, ?_, rfl, fun _ _ => rfl, fun x o hx ho => ?_⟩
    · rw [patch, modify_run]
      simp only [h]
    · simp [Program.setOffset?, hx, ho] at h
  | some r =>
    refine ⟨r.code, ?_, ?_, fun i hi => ?_, fun x o hx ho => ?_⟩
    · rw [patch, modify_run]
      simp only [h]
      obtain ⟨x, o, -, -, rfl⟩ := Program.setOffset?_eq h
      rfl
    · obtain ⟨x, o, -, -, rfl⟩ := Program.setOffset?_eq h
      simp
    · obtain ⟨x, o, -, -, rfl⟩ := Program.setOffset?_eq h
      simp [Ne.symm hi]
    · obtain ⟨y, o', hy, ho', rfl⟩ := Program.setOffset?_eq h
      obtain rfl : x = y := Option.some.inj (hx.symm.trans hy)
      obtain rfl : o = o' := Option.some.inj (ho.symm.trans ho')
      refine ⟨x.pos, ?_⟩
      have hlt : site < s.program.code.size := (Array.getElem?_eq_some_iff.mp hx).1
      simp [hlt]

theorem destination_label (hl : j.target = .label l) (ht : s.draft.labelAt l = some t) :
    destination j s = .ok t s := by
  have ha : labelAt? l s = .ok (some t) s := congrArg (EStateM.Result.ok · s) ht
  simp only [destination, hl]
  show EStateM.bind (labelAt? l) _ s = _
  simp only [EStateM.bind, ha]
  rfl

theorem destination_ok (hl : j.target = .label l) (h : destination j s = .ok t s') :
    s' = s ∧ s.draft.labelAt l = some t := by
  cases ha : s.draft.labelAt l with
  | some i =>
    rw [destination_label hl ha] at h
    cases h
    exact ⟨rfl, rfl⟩
  | none =>
    have ha : labelAt? l s = .ok none s := congrArg (EStateM.Result.ok · s) ha
    simp only [destination, hl] at h
    have h : EStateM.bind (labelAt? l) _ s = _ := h
    simp only [EStateM.bind, ha] at h
    cases h

/-- The items still stand when an open jump gets the distance to its label. -/
theorem fits_patch {it : Item} {i : Nat} {code code' : Array Instr} {at? : String → Option Nat}
    (h : it.Fits code (j :: js) at? i) (hl : j.target = .label l) (ht : at? l = some t)
    (hne : ∀ i, i ≠ j.site → code'[i]? = code[i]?)
    (heq : ∀ x o, code[j.site]? = some x → x.op.withOffset? ((t : Int) - j.site) = some o → OpAt code' j.site o) :
    it.Fits code' js at? i := by
  cases it with
  | label m => exact h
  | op o =>
    refine ⟨?_, fun k hk => h.2 k (.tail _ hk)⟩
    rw [OpAt, hne i (Ne.symm (h.2 j mem_cons_self))]
    exact h.1
  | jump o m =>
    obtain ⟨ho, htg, o', ⟨p, hat⟩, hw, hr⟩ := h
    refine ⟨ho, fun k hk => htg k (.tail _ hk), ?_⟩
    by_cases hs : j.site = i
    · obtain rfl : l = m := by
        have := hl.symm.trans (htg j (.head _) hs)
        cases this
        rfl
      obtain ⟨o1, h1⟩ := Assembled.withOffset?_of_isSome ho ((t : Int) - i)
      subst hs
      exact ⟨o1, heq _ _ hat ((hw _).trans h1), Assembled.withOffset?_withOffset? h1, .inr ⟨t, ht, h1⟩⟩
    · refine ⟨o', ⟨p, by rw [hne i (Ne.symm hs)]; exact hat⟩, hw, hr.imp_left fun ⟨k, hk, hki⟩ => ?_⟩
      rcases mem_cons.mp hk with rfl | hk
      · exact absurd hki hs
      · exact ⟨k, hk, hki⟩

/-- Once the open jumps have their distances, every jump leads to its label. -/
theorem closeJumps_ok : ∀ {js : List OpenJump} {s s' : CompileState}, (∀ j ∈ js, ∃ l, j.target = .label l) →
    Stand s.program.code js s.draft.labelAt b items → closeJumps js s = .ok () s' →
    Stand s'.program.code [] s.draft.labelAt b items ∧
      ∃ code, s' = { s with program.code := code } ∧ code.size = s.program.code.size
  | [], s, s', _, h, hc => by
    cases hc
    exact ⟨h, s.program.code, rfl, rfl⟩
  | j :: js, s, s', hj, h, hc => by
    obtain ⟨l, hl⟩ := hj j (.head _)
    obtain ⟨t, s1, ⟨rfl, ht⟩, hc1⟩ := seq_by (destination_ok hl) hc
    obtain ⟨⟨⟩, s2, hp, hc2⟩ := seq_ok.mp hc1
    obtain ⟨code, hpe, hsz, hne, heq⟩ := patch_eq j.site t s1
    cases hp.symm.trans hpe
    have hs : Stand code js s1.draft.labelAt b items := h.imp fun i it _ _ hf => fits_patch hf hl ht hne heq
    obtain ⟨hst, code', rfl, hsz'⟩ := closeJumps_ok
      (fun k hk => hj k (.tail _ hk)) hs hc2
    exact ⟨hst, code', rfl, hsz'.trans hsz⟩

theorem labelAt_of_mem : ∀ {items : List Item} {n : Nat} {code : Array Instr} {opens : List OpenJump}
    {at? : String → Option Nat}, Stand code opens at? n items → .label l ∈ items → ∃ t, at? l = some t
  | it :: items, n, code, opens, at?, h, hm => by
    rcases mem_cons.mp hm with rfl | hm
    · exact ⟨n, h.1⟩
    · exact labelAt_of_mem h.2 hm

/-- Every open jump whose label is placed is closed. -/
theorem closeJumps_total : ∀ {js : List OpenJump} {s : CompileState},
    (∀ j ∈ js, ∃ l t, j.target = .label l ∧ s.draft.labelAt l = some t) → ∃ s', closeJumps js s = .ok () s'
  | [], s, _ => ⟨s, rfl⟩
  | j :: js, s, hj => by
    obtain ⟨l, t, hl, ht⟩ := hj j (.head _)
    obtain ⟨code, hpe, -⟩ := patch_eq j.site t s
    obtain ⟨s', hs⟩ : ∃ s', closeJumps js { s with program.code := code } = .ok () s' :=
      closeJumps_total fun k hk => hj k (.tail _ hk)
    refine ⟨s', ?_⟩
    show EStateM.bind (destination j) _ s = _
    simp only [EStateM.bind, destination_label hl ht]
    show EStateM.bind (patch j.site t) _ s = _
    simp only [EStateM.bind, hpe]
    exact hs

end Compile

end Goblet
