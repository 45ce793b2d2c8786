import Goblet.Machine.Run
import Goblet.Proofs.Effect
import Goblet.Proofs.Host

/-!
# Safety of the machine

Whatever an instruction does, also one that no compiler emits and one that fails, memory keeps at least the size it had
when the run began, all values stay sound, and nothing stays lent (`perform_takes`). Where values refer only to what the
store holds, no instruction breaches memory or the store, and the machine crashes only with reason: more bytes are
needed in a row than there are, or the text of a value that contains itself. What holds of an instruction holds of a
run, by induction on its steps (`execute_takes`). So a run gives back memory of the size it was given (`run_size`) and,
where it begins with sound values, never commits a breach (`run_safe`).

The values that an instruction has taken and not yet put back are its hand: they are sound as well (`Safe.hand`).
-/

namespace Goblet

open List Store Triple Value

/-- The fault is not an error of the program that runs. -/
def Fault.Severe : Fault → Prop
  | .breach _ | .crash _ => True
  | _ => False

/-- The fault is no breach, and a crash has a reason. -/
def Fault.Tame (h : Store) : Fault → Prop
  | .breach _ => False
  | .crash c => c.Due h
  | _ => True

theorem Fault.tame {f : Fault} (hf : ¬f.Severe) (h : Store) : f.Tame h := by
  cases f <;> first | exact trivial | exact absurd trivial hf

/-- Values may refer to any cell and any instruction; `q` says whether the store holds what they refer to. -/
def Refs.any (q : Prop) : Refs := ⟨fun _ => True, fun _ => True, q⟩

namespace Machine

/-- What holds of a machine at any time of a run that began with memory of size `b`, while `l` is lent and an
instruction has the values `C` in its hand. -/
structure Safe (q : Prop) (b : Nat) (l : List Handle) (C : List Value) (m : Machine) : Prop where
  base : m.base = b
  floor : b ≤ m.mem.size
  mem : ∀ v ∈ m.mem, v.Sound (.any q) m.store
  store : m.store.Sound (.any q)
  lent : m.lent = l
  hand : ∀ v ∈ C, v.Sound (.any q) m.store

/-- What holds after a failure. -/
def Failed (q : Prop) (b : Nat) (l : List Handle) (f : Fault) (m : Machine) : Prop :=
  Safe q b l [] m ∧ (q → f.Tame m.store)

/-- Something is done with the values `C` in hand; afterwards `D` says what is in hand. -/
def Takes (q : Prop) (b : Nat) (l : List Handle) (C : List Value) (x : Exec α)
    (D : α → List Value := fun _ => C) : Prop :=
  Triple (Safe q b l C) x (fun a => Safe q b l (D a)) (Failed q b l)

variable {q : Prop} {b : Nat} {l : List Handle} {C C' : List Value} {m : Machine} {α β : Type} {i : Value} {low : Int64}
  {path : List Nat}
variable {h : Store} {v p c : Value} {vs : List Value} {e : Fault} {s : Setting} {mem : Array Value}
  {D : α → List Value} {f : Store → α} {g : α → Exec β} {Q : β → Machine → Prop} {high : Option Int64}
  {next : Option Nat}

namespace Safe

variable (hm : Safe q b l C m)
include hm

/-- Values may be put down. -/
theorem fewer (h : ∀ v ∈ C', v ∈ C) : Safe q b l C' m :=
  ⟨hm.base, hm.floor, hm.mem, hm.store, hm.lent, fun v hv => hm.hand v (h v hv)⟩

theorem drop : Safe q b l [] m := hm.fewer nofun

theorem more {vs : List Value} (h : ∀ v ∈ vs, v.Sound (.any q) m.store) : Safe q b l (vs ++ C) m :=
  ⟨hm.base, hm.floor, hm.mem, hm.store, hm.lent, fun v hv => (mem_append.mp hv).elim (h v) (hm.hand v)⟩

theorem cons {v : Value} (h : v.Sound (.any q) m.store) : Safe q b l (v :: C) m :=
  hm.more fun u hu => by rw [mem_singleton.mp hu]; exact h

theorem failed {f : Fault} (hf : ¬f.Severe) : Failed q b l f m := ⟨hm.drop, fun _ => Fault.tame hf m.store⟩

theorem crashed {c : Crash} (hc : q → c.Due m.store) : Failed q b l (.crash c) m := ⟨hm.drop, hc⟩

/-- Memory may change as long as it keeps its floor and its values are sound. -/
theorem setMem (hb : b ≤ mem.size) (h : ∀ v ∈ mem, v.Sound (.any q) m.store) : Safe q b l C { m with mem := mem } :=
  ⟨hm.base, hb, h, hm.store, hm.lent, hm.hand⟩

/-- Another store in which all sound values are sound. -/
theorem setStore (hg : ∀ v : Value, v.Sound (.any q) m.store → v.Sound (.any q) h) (hs : h.Sound (.any q)) :
    Safe q b l C { m with store := h } :=
  ⟨hm.base, hm.floor, fun v hv => hg v (hm.mem v hv), hs, hm.lent, fun v hv => hg v (hm.hand v hv)⟩

end Safe

namespace Takes

variable {x : Exec α} {D : α → List Value} {E : β → List Value}

/-- A result for which values are left in hand. -/
theorem ret {a : α} (h : ∀ v ∈ D a, v ∈ C) : Takes q b l C (pure a) D := fun _ hm => hm.fewer h

/-- An error of the program may be thrown anywhere. -/
theorem raise {f : Fault} (hf : ¬f.Severe) : Takes q b l C (throw f : Exec α) D := fun _ hm => hm.failed hf

theorem raise_seq {f : Fault} {g : α → Exec β} (hf : ¬f.Severe) : Takes q b l C (throw f >>= g) E :=
  fun _ hm => hm.failed hf

theorem seq {f : α → Exec β} (hx : Takes q b l C x D) (hf : ∀ a, Takes q b l (D a) (f a) E) :
    Takes q b l C (x >>= f) E := Triple.seq hx hf

theorem ite {c : Prop} [Decidable c] {y : Exec α} (hx : c → Takes q b l C x D) (hy : ¬c → Takes q b l C y D) :
    Takes q b l C (if c then x else y) D := Triple.ite hx hy

theorem weaken (hx : Takes q b l C' x D) (h : ∀ v ∈ C', v ∈ C) : Takes q b l C x D :=
  fun m hm => hx m (hm.fewer h)

/-- A value that is sound in every such store may be taken in hand. -/
theorem hold {v : Value} (hx : Takes q b l (v :: C) x D)
    (h : ∀ h : Store, h.Sound (.any q) → (∀ u ∈ C, u.Sound (.any q) h) → v.Sound (.any q) h) : Takes q b l C x D :=
  fun m hm => hx m (hm.cons (h m.store hm.store hm.hand))

theorem read {f : Machine → Exec α} (h : ∀ m, Takes q b l C (f m) D) : Takes q b l C (get >>= f) D :=
  fun m hm => h m m hm

theorem idle {a : α} : Takes q b l C (pure a) := .ret fun _ hv => hv

end Takes

/-! ## The stack -/

/-- Asking for room fails only if there is none. -/
theorem room_takes (n : Nat) : Takes q b l C (room n) :=
  .ite (fun hn _ hm => hm.crashed fun _ => hn) fun _ => .idle

theorem less_takes {n k : Nat} (h : k ≤ n) : Takes q b l C (less n k) := by
  unfold less
  rw [if_pos h]
  exact .idle

theorem push_takes (hv : v ∈ C) : Takes q b l C (push v) :=
  update fun m hm => hm.setMem (by simp only [Array.size_push]; have := hm.floor; omega) fun u hu =>
    (Array.mem_push.mp hu).elim (hm.mem u) fun he => he ▸ hm.hand v hv

theorem push_plain (hv : v.Plain) : Takes q b l C (push v) :=
  fun m hm => (push_takes (.head _) m (hm.cons (hv _ _))).fewer fun _ hu => .tail _ hu

theorem pushAll_takes (hvs : ∀ v ∈ vs, v ∈ C) : Takes q b l C (pushAll vs) := by
  refine update fun m hm => ?_
  rw [foldl_push_eq_append']
  refine hm.setMem (by simp only [Array.size_append]; have := hm.floor; omega) fun u hu => ?_
  exact (Array.mem_append.mp hu).elim (hm.mem u) fun hu => hm.hand u (hvs u (mem_toArray.mp hu))

/-- What is popped comes to hand. -/
theorem pop_takes (op : String) : Takes q b l C (pop op) fun v => v :: C := by
  refine seq (Q := fun v? => Safe q b l (v?.toList ++ C)) (.exchange fun m hm => ?_) fun v? => ?_
  · split
    · next hlt =>
      have hb := hm.base
      refine (hm.more fun v hv => ?_).setMem (by simp only [Array.size_pop]; omega) fun v hv => ?_
      · exact hm.mem v (Array.mem_of_back? (Option.mem_toList.mp hv))
      · obtain ⟨i, hi, rfl⟩ := Array.mem_iff_getElem.mp hv
        rw [Array.getElem_pop]
        exact hm.mem _ (Array.getElem_mem _)
    · exact hm
  · cases v? with
    | some v => exact Takes.ret fun _ hu => hu
    | none => exact Takes.raise id

/-- Several values, in the order in which they were pushed. -/
theorem popN_takes (n : Nat) (op : String) : Takes q b l C (popN n op) fun vs => vs ++ C := by
  refine read fun m hm => .ite (fun _ => .raise_seq fun _ hs => hs ▸ hm.failed id) fun hn => ?_
  have hle : n ≤ m.mem.size := by omega
  unfold less
  rw [if_pos hle]
  refine seq (Q := fun k s => k = m.mem.size - n ∧ s = m) (.ret fun s hs => ⟨rfl, hs⟩) fun k =>
    exchange fun s ⟨hk, hs⟩ => ?_
  subst hk hs
  have hb := hm.base
  refine (hm.more fun v hv => ?_).setMem (by simp only [Array.size_shrink]; omega) fun v hv => ?_
  · obtain ⟨k, hk, rfl⟩ := Array.mem_extract_iff_getElem.mp (Array.mem_toList_iff.mp hv)
    exact hm.mem _ (Array.getElem_mem _)
  · rw [Array.shrink_eq_take] at hv
    obtain ⟨k, hk, rfl⟩ := Array.mem_extract_iff_getElem.mp hv
    exact hm.mem _ (Array.getElem_mem _)

theorem popInt_takes (op : String) : Takes q b l C (popInt op) := by
  refine .seq (pop_takes op) fun v => ?_
  split
  · exact .ret fun _ hv => .tail _ hv
  · exact .raise id

theorem popBool_takes (op : String) : Takes q b l C (popBool op) := by
  refine .seq (pop_takes op) fun v => ?_
  split
  · exact .ret fun _ hv => .tail _ hv
  · exact .raise id

theorem peekBool_takes (op : String) : Takes q b l C (peekBool op) := by
  refine .read fun m => ?_
  split
  · split
    · exact .idle
    · exact .raise id
    · exact .raise id
  · exact .raise id

/-! ## Memory -/

/-- The place of a slot is a cell of memory. -/
theorem address_takes (s : Slot) :
    Triple (Safe q b l C) (address s) (fun a m => Safe q b l C m ∧ a < m.mem.size) (Failed q b l) := by
  refine read fun m hm => ?_
  split
  · exact .ite (fun ha => .ret fun s hs => by subst hs; exact ⟨hm, by omega⟩) fun _ => .raise fun s hs =>
      hs ▸ hm.failed id
  · exact .ite (fun ha => .ret fun s hs => by subst hs; exact ⟨hm, by omega⟩) fun _ => .raise fun s hs =>
      hs ▸ hm.failed id

theorem cell_takes (a : Nat) :
    Triple (fun m => Safe q b l C m ∧ a < m.mem.size) (cell a) (fun v => Safe q b l (v :: C)) (Failed q b l) := by
  refine read fun m ⟨hm, ha⟩ => ?_
  rw [Array.getElem?_eq_getElem ha]
  refine Triple.ret fun s hs => ?_
  subst hs
  exact hm.cons (hm.mem _ (Array.getElem_mem _))

/-- A cell of memory gets a value in hand. -/
theorem write_takes {a : Nat} (hv : v ∈ C) :
    Triple (fun m => Safe q b l C m ∧ a < m.mem.size) (write a v) (fun _ => Safe q b l C) (Failed q b l) := by
  refine seq (Q := fun done m => Safe q b l C m ∧ done = true) (.exchange fun m ⟨hm, ha⟩ => ?_) fun done => ?_
  · simp only [ha, ↓reduceIte, and_true]
    exact hm.setMem (by simp only [Array.size_setIfInBounds]; exact hm.floor) fun u hu =>
      (Array.mem_or_eq_of_mem_setIfInBounds hu).elim (hm.mem u) fun he => he ▸ hm.hand v hv
  · cases done with
    | true => exact .ret fun _ hs => hs.1
    | false => exact .raise fun _ hs => nomatch hs.2

theorem value_takes {r : Except ValueError α} (h : ∀ a, r = .ok a → ∀ v ∈ D a, v ∈ C) : Takes q b l C (value r) D := by
  cases r with
  | ok a => exact .ret (h a rfl)
  | error e => exact .raise id

theorem value_plain {r : Except ValueError Value} (h : ∀ v, r = .ok v → v.Plain) :
    Takes q b l C (value r) fun v => v :: C := by
  cases r with
  | ok v => exact fun m hm => hm.cons (h v rfl _ _)
  | error e => exact .raise id

/-! ## The store -/

/-- What makes new storage keeps what there is. -/
theorem storing_takes {f : Store → α × Store} {g : α → Value}
    (h : ∀ h : Store, h.Sound (.any q) → (∀ v ∈ C, v.Sound (.any q) h) →
      h.Grows (f h).2 ∧ (f h).2.Sound (.any q) ∧ (g (f h).1).Sound (.any q) (f h).2) :
    Takes q b l C (storing f) fun a => g a :: C :=
  exchange fun m hm =>
    have ⟨hg, hs, hv⟩ := h m.store hm.store hm.hand
    (hm.setStore (fun _ hv => hv.grow hg) hs).cons hv

theorem newSlice_takes (hvs : ∀ v ∈ vs, v ∈ C) :
    Takes q b l C (storing fun h => h.newSlice vs.toArray) fun w => .slice w :: C :=
  storing_takes fun _ hs hC => ⟨push_grows _, push_sound hs fun v hv => hC v (hvs v (mem_toArray.mp hv)),
    .leaf fun _ => newSlice_holds _⟩

/-- What changes the store keeps sound values sound. -/
theorem modifyStore_takes {f : Store → Store}
    (h : ∀ h : Store, h.Sound (.any q) → (∀ v ∈ C, v.Sound (.any q) h) → h.Grows (f h) ∧ (f h).Sound (.any q)) :
    Takes q b l C (modify fun m => { m with store := f m.store }) :=
  update fun m hm =>
    have ⟨hg, hs⟩ := h m.store hm.store hm.hand
    hm.setStore (fun _ hv => hv.grow hg) hs

/-- Walking along a value is no breach while nothing is lent. -/
theorem reach_takes (hv : v ∈ C) : Triple (fun s => s = m ∧ Safe q b [] C s) (reach v) (fun _ s => s = m)
    (Failed q b []) := by
  unfold reach
  split
  · refine read fun s ⟨he, hs⟩ => ?_
    subst he
    refine .ite (fun hno => .raise_seq fun t ht => ?_) fun _ => .ite (fun hmem => ?_) fun _ => .ret fun _ ht => ht
    · subst ht
      refine ⟨hs.drop, fun hq => ?_⟩
      rw [(hs.hand v hv).holds hq] at hno
      exact nomatch hno
    · rw [hs.lent] at hmem
      exact nomatch hmem
  · exact .ret fun _ hs => hs.1

/-- Looking at what a value in hand refers to fixes the state for what follows. -/
theorem looking_seq {P : Machine → Prop} (hP : ∀ m, P m → Safe q b [] C m) (hv : v ∈ C)
    (h : ∀ m, P m → Triple (· = m) (g (f m.store)) Q (Failed q b [])) :
    Triple P (looking v f >>= g) Q (Failed q b []) := by
  intro m hm
  refine seq (Q := fun a s => a = f m.store ∧ s = m)
    (seq (reach_takes hv) fun _ => read fun s hs => .ret fun t ht => ?_) (fun a => ?_) m ⟨rfl, hP m hm⟩
  · subst hs ht
    exact ⟨rfl, rfl⟩
  · intro s ⟨ha, hs⟩
    subst ha hs
    exact h s hm s rfl

/-- What is lent for an action is given back, however the action ends. -/
theorem lending_takes {act : Exec α} (hv : v ∈ C)
    (h : ∀ l, Takes q b l C act D) : Takes q b [] C (lending v act) D := by
  unfold lending
  split
  · next x _ =>
    intro m hm
    refine seq (reach_takes hv) (fun _ => ?_) m ⟨rfl, hm⟩
    refine seq (Q := fun _ => Safe q b [x] C) (.update fun s hs => ?_) fun _ s hs => ?_
    · subst hs
      exact ⟨hm.base, hm.floor, hm.mem, hm.store, by rw [hm.lent], hm.hand⟩
    · have hact := h [x] s hs
      cases hr : act s with
      | ok a t =>
        rw [hr] at hact
        exact ⟨hact.base, hact.floor, hact.mem, hact.store, by rw [hact.lent]; rfl, hact.hand⟩
      | error e t =>
        rw [hr] at hact
        obtain ⟨ht, he⟩ := hact
        exact ⟨⟨ht.base, ht.floor, ht.mem, ht.store, by rw [ht.lent]; rfl, ht.hand⟩, he⟩
  · exact h []

theorem target_takes (rel : Int) : Takes q b l C (target rel) :=
  .read fun _ => .ite (fun _ => .idle) fun _ => .raise id

theorem typeAt_takes (p : Program) (slot : Nat) : Takes q b l C (typeAt p slot) := by
  unfold typeAt
  split
  · exact .idle
  · exact .raise id

/-! ## Pointers -/

/-- What a pointer leads to, read with the pointer lent or not. -/
theorem content_takes (hp : p ∈ C) : Takes q b l C (content p) fun v => v :: C := by
  unfold content
  split
  · refine read fun m hm => ?_
    split
    · next hv => exact .ret fun s hs => hs ▸ hm.cons (hm.mem _ (Array.mem_of_getElem? hv))
    · exact .raise fun s hs => hs ▸ hm.failed id
  · next c =>
    refine read fun m hm => .ret fun s hs => ?_
    subst hs
    refine hm.cons ?_
    cases hv : s.store.cell? c with
    | none => exact plain_nil _ _
    | some v => exact cell?_sound hm.store hv
  · exact .raise id
  · exact .raise id

theorem setContent_takes (hv : v ∈ C) : Takes q b l C (setContent p v) := by
  unfold setContent
  split
  · refine read fun m hm => .ite (fun ha => ?_) fun _ => .raise fun s hs => hs ▸ hm.failed id
    exact fixed (write_takes hv) ⟨hm, ha⟩
  · exact modifyStore_takes fun h hs hC => ⟨setCell_grows _ _, setCell_sound hs (hC v hv)⟩
  · exact .raise id
  · exact .raise id

theorem load_takes (hp : p ∈ C) : Takes q b [] C (load p) fun v => v :: C := fun m hm =>
  seq (reach_takes hp)
    (fun _ s hs => by subst hs; exact content_takes hp s hm) m ⟨rfl, hm⟩

theorem storeAt_takes (hp : p ∈ C) (hv : v ∈ C) : Takes q b [] C (storeAt p v) :=
  lending_takes hp fun _ => setContent_takes hv

/-! ## Aggregates -/

/-- Reading an element of a value that is held commits no breach. -/
theorem element_tame (he : element h c i = .error e) : ¬e.Severe := by
  unfold element at he
  split at he
  · split at he <;> cases he; exact id
  · split at he <;> cases he; exact id
  · split at he <;> cases he; exact id
  · cases he; exact id
  · cases he; exact id

/-- Bounds that do not fit are an error of the program. -/
theorem bounds_tame {len cap : Nat} (he : bounds low high len cap = .error e) : ¬e.Severe := by
  unfold bounds at he
  dsimp only at he
  split at he
  · cases he; exact id
  · split at he
    · cases he; exact id
    · cases he

/-- Slicing commits no breach. -/
theorem slice_tame (he : slice h c low high = .error e) : ¬e.Severe := by
  unfold slice at he
  split at he
  · cases hb : bounds low high _ (h.cap _) with
    | error e => rw [hb] at he; cases he; exact bounds_tame hb
    | ok r =>
      rw [hb] at he
      simp only [bind, Except.bind] at he
      split at he
      · cases he
      · cases he; exact id
  · cases hb : bounds low high _ _ with
    | error e => rw [hb] at he; cases he; exact bounds_tame hb
    | ok r => rw [hb] at he; cases he
  · cases hb : bounds low high 0 0 with
    | error e => rw [hb] at he; cases he; exact bounds_tame hb
    | ok r => rw [hb] at he; cases he
  · cases he; exact id

theorem length_tame (he : length h v = .error e) : ¬e.Severe := by
  unfold length at he
  split at he <;> cases he
  exact id

/-- Storing below a struct commits no breach. -/
theorem storeInto_tame {target : Value} (he : storeInto v path target = .error e) : ¬e.Severe := by
  fun_induction storeInto v path target with
  | case1 | case2 => cases he; exact id
  | case3 => cases he
  | case4 => cases he
  | case5 => cases he
  | case6 => cases he; exact id
  | case7 i fs k path field _ _ _ stored hstored => rw [hstored] at he; cases he
  | case8 i fs k path field _ _ _ hf hne ih =>
    refine ih ?_
    cases hs : storeInto v (k :: path) field with
    | error e' => rw [hs] at he; exact he
    | ok r =>
      cases r with
      | stored u => exact (hne u hs).elim
      | follow p path => rw [hs] at he; cases he
  | case9 => cases he; exact id

theorem size?_tame {v : Option Value} (he : size? v = .error e) : ¬e.Severe := by
  unfold size? at he
  split at he
  · cases he
  · split at he <;> cases he; exact id
  · cases he; exact id
  · cases he

/-- An element or entry gets a value in hand. -/
theorem setElement_takes {isMap : Bool} (hc : c ∈ C) (hv : v ∈ C) :
    Takes q b [] C (setElement isMap c i v) := by
  unfold setElement
  split
  · next w n =>
    have finish (done : Bool) : Takes q b [] C (do if !done then throw (.indexRange n w.len) : Exec Unit) :=
      .ite (fun _ => .raise id) fun _ => .idle
    refine .ite (fun _ => finish false) fun _ => .seq (lending_takes hc fun l => exchange fun m hm => ?_) finish
    dsimp only [Store.set]
    split
    · exact hm.setStore (fun _ hu => hu.grow (put_grows _ _ _)) (put_sound hm.store (hm.hand v hv))
    · exact hm
  · refine lending_takes hc fun l => .seq (value_takes fun _ _ _ hv => hv) fun k => ?_
    exact modifyStore_takes fun h hs hC => ⟨modifyMap_grows, setEntry_sound hs (hC v hv)⟩
  · refine .ite (fun _ => .raise_seq id) fun _ => ?_
    split
    · exact .raise id
    · exact .raise id
  · exact .raise id

/-- The value stored, or the pointer to follow. -/
def PathStore.value : PathStore → Value
  | .stored v | .follow v _ => v

/-- One stretch of a path: up to the next pointer, or to its end. -/
theorem storeBelow_takes (hv : v ∈ C) (hp : p ∈ C) :
    Takes q b [] C (storeBelow v p path) fun r => (r.map (·.1)).toList ++ C := by
  refine lending_takes hp fun l => .seq (content_takes hp) fun target => ?_
  -- what is stored is made of the value and of what was there
  refine .seq (D := fun r => r.value :: target :: C) ?_ fun r => ?_
  · intro m hm
    cases hr : storeInto v path target with
    | error e => exact hm.failed (storeInto_tame hr)
    | ok r =>
      refine hm.cons ?_
      have := storeInto_sound (hm.hand v (.tail _ hv)) (hm.hand target (.head _)) hr
      cases r with
      | stored u | follow u _ => exact this
  · cases r with
    | stored u =>
      exact .seq (setContent_takes (.head _)) fun _ => .ret fun _ hu =>
        .tail _ (.tail _ hu)
    | follow u rest =>
      refine .ret fun w hw => ?_
      rcases mem_append.mp hw with hw | hw
      · rw [show w = u by simpa using hw]
        exact .head _
      · exact .tail _ (.tail _ hw)

/-- A value is stored along a path, stretch by stretch. -/
theorem storePath_takes : ∀ (n : Nat) {p : Value} (path : List Nat) {D : List Value}, v ∈ D → p ∈ D →
    (∀ u ∈ C, u ∈ D) → Takes q b [] D (storePath v n p path) fun _ => C := by
  intro n
  induction n with
  | zero =>
    intro p path D hv hp hD
    unfold storePath
    refine .seq (storeBelow_takes hv hp) fun r => ?_
    split
    · exact .ret fun u hu => mem_append_right _ (hD u hu)
    · exact .raise id
  | succ n ih =>
    intro p path D hv hp hD
    unfold storePath
    refine .seq (storeBelow_takes hv hp) fun r => ?_
    split
    · exact .ret fun u hu => mem_append_right _ (hD u hu)
    · exact ih _ (mem_append_right _ hv) (mem_append_left _ (by simp)) fun u hu => mem_append_right _ (hD u hu)

theorem mem_cons_append {u : Value} (hu : u ∈ v :: C) : u ∈ v :: (vs ++ C) := by
  rcases mem_cons.mp hu with rfl | hu
  · exact .head _
  · exact .tail _ (mem_append_right _ hu)

/-- A composite value takes its parts from the stack. -/
theorem composite_takes (ty : Ty) (len : Nat) (layout : Layout) :
    Takes q b l C (composite ty len layout) fun v => v :: C := by
  unfold composite
  split
  · refine .seq (popN_takes _ _) fun vs => .seq (storing_takes fun h hs hC => ?_) fun _ =>
      .ret fun _ => mem_cons_append
    refine ⟨push_grows _, push_sound hs fun v hv => ?_, .leaf fun _ => newSlice_holds _⟩
    obtain ⟨u, hu, rfl⟩ := mem_map.mp (mem_toArray.mp hv)
    exact fit_sound (hC u (mem_append_left _ hu))
  · refine .ite (fun _ => ?_) fun _ => .seq (popN_takes _ _) fun vs =>
      .hold (.ret fun _ => mem_cons_append) fun h _ hC => ?_
    · exact .hold (.ret fun _ hu => hu) fun h _ _ => Ty.zero_plain _ _ h
    · refine .struct fun f hf => ?_
      obtain ⟨⟨⟨n, t⟩, u⟩, hz, rfl⟩ := mem_map.mp hf
      exact fit_sound (hC u (mem_append_left _ (of_mem_zip hz).2))
  · refine .seq (popN_takes _ _) fun vs => .hold (.ret fun _ => mem_cons_append) fun h _ hC => ?_
    exact .struct (setFields_sound (fun v hv => hC v (mem_append_left _ hv)) fun f hf => Ty.zeros_plain _ f hf _ h)
  · next key val =>
    refine .seq (popN_takes _ _) fun vs => ?_
    -- the entries are made of what was taken
    cases hes : pairs key val vs with
    | error e => exact .raise_seq id
    | ok es =>
      show Takes q b l (vs ++ C) (do return map (← storing fun h => h.newMap es)) _
      refine .seq (storing_takes fun h hs hC => ?_) fun _ => .ret fun _ => mem_cons_append
      refine ⟨newMap_grows _, newMap_sound hs ?_, .leaf fun _ => newMap_holds _⟩
      exact pairs_sound (fun v hv => hC v (mem_append_left _ hv)) hes
  · exact .raise id

theorem makeSize_takes (v : Option Value) : Takes q b l C (make.size v) := by
  unfold make.size
  split
  · exact .idle
  · next he => exact .raise (size?_tame he)

/-- What `make` makes is new, with room for it. -/
theorem make_takes (ty : Ty) (sizes : List Value) : Takes q b l C (make ty sizes) fun v => v :: C := by
  unfold make
  split
  · refine .seq (makeSize_takes _) fun len => .seq (makeSize_takes _) fun cap => ?_
    refine .ite (fun _ => .raise_seq id) fun _ => .ite (fun _ => .raise_seq id) fun _ => .seq (room_takes _) fun _ =>
      .seq (storing_takes fun h hs _ => ⟨push_grows _, push_sound hs fun v hv => ?_, ?_⟩) fun _ =>
        .ret fun _ hu => hu
    · rw [Array.mem_replicate] at hv
      rw [hv.2]
      exact Ty.zero_plain _ _ h
    · exact .leaf fun _ => makeSlice_holds _ _ _
  · refine .seq (storing_takes (g := .map) fun h hs _ => ⟨newMap_grows _, ?_, .leaf fun _ => newMap_holds _⟩)
      fun _ => .ret fun _ hu => hu
    exact newMap_sound hs nofun
  · exact .raise id

/-! ## Calls -/

theorem enter_takes (limits : Limits) : Takes q b l C (enter limits) := by
  refine .read fun m => .ite (fun _ => .raise_seq id) fun _ => update fun m hm => ?_
  refine ⟨hm.base, ?_, fun v hv => ?_, hm.store, hm.lent, hm.hand⟩
  · simp only [Array.size_push]
    have := hm.floor
    omega
  · rcases Array.mem_push.mp hv with hv | rfl
    · rcases Array.mem_push.mp hv with hv | rfl
      · exact hm.mem v hv
      · exact plain_int _ _ _
    · exact plain_int _ _ _

/-- The last argument of a call is spread out. -/
theorem spreadLast_takes {args : List Value} (hargs : ∀ v ∈ args, v ∈ C) :
    Takes q b [] C (spreadLast args) fun vs => vs ++ C := by
  have hdrop : ∀ v ∈ args.dropLast ++ C, v ∈ C := fun v hv =>
    (mem_append.mp hv).elim (fun hv => hargs v ((dropLast_sublist args).mem hv)) id
  unfold spreadLast
  split
  · next w hlast =>
    refine looking_seq (fun _ hm => hm) (hargs _ (mem_of_getLast? hlast)) fun m hm => .ret fun s hs => ?_
    subst hs
    refine hm.more fun v hv => ?_
    rcases mem_append.mp hv with hv | hv
    · exact hm.hand v (hargs v ((dropLast_sublist args).mem hv))
    · exact items_sound hm.store w v hv
  · exact .ret hdrop
  · exact .ret hdrop
  · exact .raise id

/-- A look at the store, which changes nothing. -/
theorem lookingAround_seq (h : ∀ m, Safe q b [] C m → Triple (· = m) (g (f m.store)) Q (Failed q b [])) :
    Triple (Safe q b [] C) (lookingAround f >>= g) Q (Failed q b []) := by
  intro m hm
  have hlook : lookingAround f m = .ok (f m.store) m := by
    rw [lookingAround, get_seq]
    simp only [hm.lent]
    rfl
  rw [seq_eq hlook]
  exact h m hm m rfl

/-- What is left of a call of a host function once its arguments are known. -/
def askHost (f : HostFn) (args : List Value) (results : Nat) : Exec Unit := do
  let arity := f.sig.params.length
  let fits := if f.sig.variadic then arity ≤ args.length + 1 else args.length = arity
  if !fits then throw (.hostArguments f.name args.length arity)
  match ← lookingAround fun h => f.call h args with
  | .error (.message e) => throw (.hostFailed f.name e)
  | .error (.crash c) => throw (.crash c)
  | .ok reply =>
    modify fun m => { m with store := reply.store, printed := m.printed ++ reply.printed }
    if reply.results.length ≠ results then throw (.hostReturned f.name reply.results.length results)
    pushAll reply.results

/-- A host function that is honest takes arguments and leaves results. -/
theorem callHost_takes {f : HostFn} (hf : f.Honest (.any q)) (argc results : Nat) (spread : Bool) :
    Takes q b [] C (callHost f argc results spread) := by
  have finish {D : List Value} (args : List Value) (hargs : ∀ v ∈ args, v ∈ D) (hD : ∀ v ∈ C, v ∈ D) :
      Takes q b [] D (askHost f args results) fun _ => C := by
    refine .ite (fun _ => .raise_seq id) fun _ => lookingAround_seq fun m hm => ?_
    have hreply := hf m.store args hm.store fun v hv => hm.hand v (hargs v hv)
    split
    · exact .raise fun s hs => hs ▸ hm.failed id
    · next c hr =>
      rw [hr] at hreply
      exact .raise fun s hs => hs ▸ hm.crashed hreply
    · next reply hr =>
      rw [hr] at hreply
      obtain ⟨hsound, hstore, hres⟩ := hreply
      refine seq (Q := fun _ => Safe q b [] (reply.results ++ C)) (.update fun s hs => ?_) fun _ => ?_
      · subst hs
        have h' := ((hm.setStore hsound hstore).fewer hD).more hres
        exact ⟨h'.base, h'.floor, h'.mem, h'.store, h'.lent, h'.hand⟩
      · exact Takes.ite (fun _ => .raise_seq id) fun _ =>
          fun s hs => (pushAll_takes (fun v hv => mem_append_left _ hv) s hs).fewer fun v hv =>
            mem_append_right _ hv
  refine .ite (fun _ => .raise_seq id) fun _ => .seq (popN_takes _ _) fun args => ?_
  refine .ite (fun _ => .seq (spreadLast_takes fun v hv => mem_append_left _ hv) fun args' => ?_) fun _ => ?_
  · exact finish args' (fun v hv => mem_append_left _ hv) fun v hv => mem_append_right _ (mem_append_right _ hv)
  · exact finish args (fun v hv => mem_append_left _ hv) fun v hv => mem_append_right _ hv

/-- Calling whatever value commits no breach. -/
theorem callValue_takes (hs : s.registry.Honest (.any q)) (callee : Value) (argc results : Nat)
    (variadic : Option Nat) (spread : Bool) :
    Takes q b [] C (callValue s callee argc results variadic spread) := by
  unfold callValue
  split
  · split
    · refine .seq (popN_takes _ _) fun rest => .seq (newSlice_takes fun v hv => mem_append_left _ hv) fun _ =>
        .seq (push_takes (.head _)) fun _ => .seq (enter_takes _) fun _ => .ret fun v hv => ?_
      exact .tail _ (mem_append_right _ hv)
    · exact .seq (enter_takes _) fun _ => .idle
  · split
    · next f hf => exact .seq (callHost_takes (hs _ f hf) _ _ _) fun _ => .idle
    · exact .raise id
  · exact .raise id
  · exact .raise id

/-- A frame pointer that `ret` accepts lies above the floor, so that what it takes away lies above it too. -/
theorem ret_takes (results params : Nat) : Takes q b l C (ret results params) := by
  refine .seq (popN_takes _ _) fun values => read fun m hm => ?_
  refine ite (fun _ => .raise_seq fun _ hs => hs ▸ hm.failed id) fun hfp => ?_
  refine seq (Q := fun _ => Safe q b l (values ++ C)) (.update fun s hs => ?_) fun _ => ?_
  · subst hs
    have hb := hm.base
    refine hm.setMem (by simp only [Array.size_shrink]; omega) fun v hv => ?_
    rw [Array.shrink_eq_take] at hv
    obtain ⟨k, hk, rfl⟩ := Array.mem_extract_iff_getElem.mp hv
    exact hm.mem _ (Array.getElem_mem _)
  · refine Takes.seq (popInt_takes _) fun _ => .seq (popInt_takes _) fun _ => .seq (popN_takes _ _) fun _ =>
      .seq (pushAll_takes fun v hv => mem_append_right _ (mem_append_left _ hv)) fun _ =>
        .seq (update fun s hs => ?_) fun _ => .idle
    have h' := hs.fewer fun v hv => mem_append_right _ (mem_append_right _ hv)
    exact ⟨h'.base, h'.floor, h'.mem, h'.store, h'.lent, h'.hand⟩

/-! ## Instructions -/

theorem immediate_takes (op : BinOp) (name : String) (k : Int64) : Takes q b l C (immediate op name k) :=
  .seq (pop_takes _) fun _ => .seq (value_plain fun _ hv => binary_plain hv) fun _ =>
    fun m hm => (push_takes (.head _) m hm).fewer fun _ hv => .tail _ (.tail _ hv)

theorem appended_takes (count : Nat) (spread : Bool) : Takes q b [] C (appended count spread) fun vs => vs ++ C := by
  refine .ite (fun _ => .seq (pop_takes _) fun v => ?_) fun _ => popN_takes _ _
  split
  · next w =>
    rw [← bind_pure (looking _ _)]
    refine looking_seq (fun _ hm => hm) (.head _) fun m hm => .ret fun s hs => ?_
    subst hs
    exact (hm.fewer fun _ hv => .tail _ hv).more (items_sound hm.store w)
  · next t =>
    refine fun m hm => (hm.fewer fun _ hv => .tail _ hv).more fun v hv => ?_
    obtain ⟨c, -, rfl⟩ := mem_map.mp hv
    exact plain_int _ _ _
  · exact .ret fun _ hv => .tail _ hv
  · exact .raise id

/-- What a range gives, in hand. -/
def itemHand (C : List Value) : Option (Value × Value) → List Value
  | some (k, x) => k :: x :: C
  | none => C

/-- An iterator gives its next item and stays on the stack. -/
theorem nextItem_takes : Takes q b l C nextItem (itemHand C) := by
  refine read fun m hm => ?_
  -- the range is on top of memory, and the rest of it takes its place
  have advance {r rest : Value} {item : Value × Value} (hback : m.mem.back? = some r)
      (hn : r.next? = some (item, rest)) : Triple (· = m) (do
        write (← less m.mem.size 1) rest
        return some item : Exec (Option (Value × Value))) (fun item => Safe q b l (itemHand C item))
          (Failed q b l) := by
    obtain ⟨hk, hx, hrest⟩ := next?_sound (hm.mem r (Array.mem_of_back? hback)) hn
    have hpos : 1 ≤ m.mem.size := by
      rw [Array.back?_eq_getElem?, Array.getElem?_eq_some_iff] at hback
      have := hback.1
      omega
    have hm' : Safe q b l (rest :: item.1 :: item.2 :: C) m := ((hm.cons hx).cons hk).cons hrest
    unfold less
    rw [if_pos hpos]
    refine seq
      (.ret fun s hs => ?_) fun a => seq (write_takes (.head _)) fun _ =>
        Takes.ret fun _ hv => .tail _ hv
    subst hs
    exact ⟨hm', by omega⟩
  split
  · next rest hback =>
    split
    · next hn => exact advance hback hn
    · exact .ret fun s hs => hs ▸ hm
  · next hback =>
    split
    · next hn => exact advance hback hn
    · exact .ret fun s hs => hs ▸ hm
  · exact .raise fun s hs => hs ▸ hm.failed id

theorem setSlot_takes (hv : v ∈ C) (s : Option Slot) : Takes q b l C (setSlot s v) := by
  cases s with
  | some s => exact seq (address_takes s) fun _ => write_takes hv
  | none => exact .idle

/-- An operand deep in the stack is converted in place. -/
theorem convertAt_takes (dst : Ty) (depth : Nat) : Takes q b [] C (convertAt dst depth) := by
  refine read fun m hm => .ite (fun _ => .raise_seq fun _ hs => hs ▸ hm.failed id) fun hn => ?_
  have hle : depth + 1 ≤ m.mem.size := by omega
  unfold less
  rw [if_pos hle]
  refine seq (Q := fun a s => Safe q b [] C s ∧ a < s.mem.size) (.ret fun s hs => ?_) fun a => ?_
  · subst hs
    exact ⟨hm, by omega⟩
  refine seq (Q := fun v s => Safe q b [] (v :: C) s ∧ a < s.mem.size) ?_ fun v => ?_
  · refine read fun s ⟨hs, ha⟩ => ?_
    rw [Array.getElem?_eq_getElem ha]
    refine .ret fun t ht => ?_
    subst ht
    exact ⟨hs.cons (hs.mem _ (Array.getElem_mem _)), ha⟩
  refine looking_seq (fun _ hs => hs.1) (.head _) fun s ⟨hs, ha⟩ => ?_
  cases hr : s.store.convert v dst with
  | error e => exact .raise_seq fun t ht => ht ▸ hs.failed id
  | ok r =>
    obtain ⟨w, h⟩ := r
    obtain ⟨hg, hstore, hw⟩ := convert_sound hs.store (hs.hand v (.head _)) hr
    show Triple (· = s) (do modify fun m => { m with store := h }; write a w : Exec Unit) _ _
    refine seq (Q := fun _ s => Safe q b [] (w :: C) s ∧ a < s.mem.size) (.update fun t ht => ?_) fun _ => ?_
    · subst ht
      have h' := hs.setStore (fun _ hu => hu.grow hg) hstore
      exact ⟨(h'.fewer fun _ hu => .tail _ hu).cons hw, ha⟩
    · exact weaken (write_takes (.head _)) (fun _ hs => hs)
        (fun _ _ hs => hs.fewer fun _ hu => .tail _ hu) fun _ _ hs => hs

/-- What is left of `mapElement` once the entry is looked up. -/
def foundOrZero (p : Program) (ty : Nat) (found : Option Value) : Exec Value := do
  match found with
  | some v => return v
  | none => return (← typeAt p ty).zero

/-- The value of a key, or the zero value of the map's type. -/
theorem mapElement_takes {m : Value} (p : Program) (ty : Nat) (k : Value) (hm : m ∈ C) :
    Takes q b [] C (mapElement p ty m k) fun v => v :: C := by
  have finish (found : Option Value) : Takes q b [] (found.toList ++ C) (foundOrZero p ty found) fun v => v :: C := by
    cases found with
    | some v => exact .ret fun _ hu => hu
    | none => exact .seq (typeAt_takes _ _) fun t => .hold (.ret fun _ hu => hu) fun h _ _ => Ty.zero_plain t _ h
  refine .seq (value_takes fun _ _ _ hv => hv) fun key => ?_
  split
  · next i =>
    refine looking_seq (fun _ hm => hm) hm fun s hs t ht => ?_
    subst ht
    refine finish _ t (hs.more fun v hv => ?_)
    exact entries_sound hs.store i _ (Entries.get?_mem (Option.mem_toList.mp hv))
  · exact fun s hs => finish none s hs
  · exact .raise_seq id

/-- What is left of `fieldOf` once pointers are followed. -/
def fieldIn (i : Nat) (v : Value) : Exec Value :=
  match v with
  | .struct fs =>
    match fs[i]? with
    | some f => return f
    | none => throw (.typeError "struct" "struct")
  | v => throw (.typeError "struct" v.typeName)

/-- A field of a struct, or of one that a pointer leads to. -/
theorem fieldOf_takes (i : Nat) (hv : v ∈ C) : Takes q b [] C (fieldOf i v) fun f => f :: C := by
  have finish (v : Value) : Takes q b [] (v :: C) (fieldIn i v) fun f => f :: C := by
    unfold fieldIn
    split
    · split
      · next fs f hf =>
        refine fun m hm => (hm.fewer fun _ hu => .tail _ hu).cons ?_
        exact (hm.hand _ (.head _)).fields f (mem_of_getElem? hf)
      · exact .raise id
    · exact .raise id
  unfold fieldOf
  split
  · exact .seq (load_takes hv) finish
  · exact .seq (load_takes hv) finish
  · exact .seq (load_takes hv) finish
  · exact (finish v).weaken fun u hu => (mem_cons.mp hu).elim (fun he => he ▸ hv) id

/-- A look at the store that gives values, all of them sound. -/
theorem lookingGiven_seq {f : Store → Except Fault α} {g : α → List Value} {k : α → Exec β}
    {D : β → List Value} (hc : c ∈ C) (he : ∀ h e, f h = .error e → ¬e.Severe)
    (hv : ∀ h : Store, h.Sound (.any q) → (∀ u ∈ C, u.Sound (.any q) h) → ∀ a, f h = .ok a →
      ∀ v ∈ g a, v.Sound (.any q) h)
    (hk : ∀ a, Takes q b [] (g a ++ C) (k a) D) : Takes q b [] C (looking c f >>= fun r => given r >>= k) D := by
  refine looking_seq (fun _ hm => hm) hc fun m hm => ?_
  cases hr : f m.store with
  | error e => exact .raise_seq fun s hs => hs ▸ hm.failed (he _ e hr)
  | ok a => exact fixed (hk a) (hm.more (hv m.store hm.store hm.hand a hr))

theorem Takes.done {D : List Value} (h : ∀ v ∈ C, v ∈ D) :
    Takes q b l D (pure next : Exec (Option Nat)) fun _ => C := .ret h

theorem Takes.pushed {D : List Value} (h : ∀ u ∈ C, u ∈ D) :
    Takes q b l (v :: D) (push v >>= fun _ => pure none : Exec (Option Nat)) fun _ => C :=
  .seq (push_takes (.head _)) fun _ => .done fun u hu => .tail _ (h u hu)

/-- **What an instruction keeps.** The values `C` are those that the program holds. -/
theorem perform_takes (hs : s.registry.Honest (.any q)) {op : Op} (hop : ∀ v, op = .push v → v ∈ C) :
    Takes q b [] C (perform s op) := by
  cases op with
  | exit => exact .idle
  | push v => exact .seq (push_takes (hop v rfl)) fun _ => .idle
  | pop n => exact .seq (popN_takes _ _) fun _ => .done fun _ hv => mem_append_right _ hv
  | grow n =>
    refine .read fun _ => .seq (room_takes _) fun _ => .seq (update fun m hm => hm.setMem ?_ fun v hv => ?_) fun _ =>
      .idle
    · have := hm.floor
      simp only [Array.size_append]
      omega
    · rcases Array.mem_append.mp hv with hv | hv
      · exact hm.mem v hv
      · rw [(Array.mem_replicate.mp hv).2]
        exact plain_nil _ _
  | get slot =>
    exact seq (address_takes _) fun _ => seq (cell_takes _) fun _ =>
      Takes.pushed fun _ hv => hv
  | set slot =>
    exact .seq (pop_takes _) fun _ => seq (address_takes _) fun _ =>
      seq (write_takes (.head _)) fun _ => Takes.done fun _ hv => .tail _ hv
  | addr slot =>
    refine seq (weaken (address_takes slot) (fun _ hm => hm) (fun a m hm => ?_) fun _ _ hm => hm) fun a =>
      Takes.pushed fun _ hv => hv
    exact hm.1.cons (.leaf trivial)
  | deref =>
    exact .seq (pop_takes _) fun _ => .seq (load_takes (.head _)) fun _ =>
      .pushed fun _ hv => by simp [hv]
  | derefSet =>
    exact .seq (pop_takes _) fun _ => .seq (pop_takes _) fun _ =>
      .seq (storeAt_takes (.head _) (by simp)) fun _ => .done fun _ hv => by simp [hv]
  | new ty => exact .seq (typeAt_takes _ _) fun t => .seq (push_plain t.zero_plain) fun _ => .idle
  | box =>
    refine .seq (pop_takes _) fun v => .seq (storing_takes fun h hh hC => ?_) fun _ =>
      .pushed fun _ hv => by simp [hv]
    exact ⟨newCell_grows v, newCell_sound hh (hC v (.head _)), .leaf fun _ => newCell_holds⟩
  | binary op =>
    exact .seq (pop_takes _) fun _ => .seq (pop_takes _) fun _ => .seq (value_plain fun _ hv => binary_plain hv)
      fun _ => .pushed fun _ hv => by simp [hv]
  | unary op =>
    exact .seq (pop_takes _) fun _ => .seq (value_plain fun _ hv => unary_plain hv) fun _ =>
      .pushed fun _ hv => by simp [hv]
  | addi k | subi k | loweri k => exact .seq (immediate_takes _ _ _) fun _ => .idle
  | convert ty depth => exact .seq (typeAt_takes _ _) fun _ => .seq (convertAt_takes _ _) fun _ => .idle
  | jump rel => exact .seq (target_takes _) fun _ => .idle
  | jumpTrue rel =>
    exact .seq (popBool_takes _) fun _ => .ite (fun _ => .seq (target_takes _) fun _ => .idle) fun _ =>
      .idle
  | jumpFalse rel =>
    exact .seq (popBool_takes _) fun _ => .ite (fun _ => .idle) fun _ =>
      .seq (target_takes _) fun _ => .idle
  | jumpSetTrue rel =>
    exact .seq (peekBool_takes _) fun _ => .ite (fun _ => .seq (target_takes _) fun _ => .idle) fun _ =>
      .seq (pop_takes _) fun _ => .done fun _ hv => .tail _ hv
  | jumpSetFalse rel =>
    exact .seq (peekBool_takes _) fun _ => .ite (fun _ => .seq (pop_takes _) fun _ => .done fun _ hv =>
      .tail _ hv) fun _ => .seq (target_takes _) fun _ => .idle
  | call rel => exact .seq (target_takes _) fun _ => .seq (enter_takes _) fun _ => .idle
  | callX argc results variadic spread =>
    exact .seq (pop_takes _) fun v m hm => callValue_takes hs v _ _ _ _ m (hm.fewer fun _ hv => .tail _ hv)
  | ret results params => exact .seq (ret_takes _ _) fun _ => .idle
  | missingReturn => exact .raise id
  | index =>
    refine .seq (pop_takes _) fun i => .seq (pop_takes _) fun c => lookingGiven_seq (g := fun v => [v])
      (.head _) (fun _ _ => element_tame) (fun h hh _ v hv u hu => ?_) fun v =>
        .pushed fun _ hv => by simp [hv]
    rw [mem_singleton.mp hu]
    exact element_sound hh hv
  | mapIndex ty =>
    exact .seq (pop_takes _) fun _ => .seq (pop_takes _) fun _ => .seq (mapElement_takes _ _ _ (.head _)) fun _ =>
      .pushed fun _ hv => by simp [hv]
  | indexSet | mapSet =>
    exact .seq (pop_takes _) fun _ => .seq (pop_takes _) fun _ => .seq (pop_takes _) fun _ =>
      .seq (setElement_takes (.head _) (by simp)) fun _ => .done fun _ hv => by simp [hv]
  | slice low high =>
    -- what is left once the bounds are taken
    have finish (hi : Option Int64) (lo : Int64) : Takes q b [] C (do
        let c ← pop "SLICE"
        push (← given (← looking c fun h => Machine.slice h c lo hi))
        return none : Exec (Option Nat)) := by
      refine .seq (pop_takes _) fun c => lookingGiven_seq (g := fun v => [v]) (.head _) (fun _ _ => slice_tame)
        (fun h _ hC v hv u hu => ?_) fun v => .pushed fun _ hv => by simp [hv]
      rw [mem_singleton.mp hu]
      exact slice_sound (hC c (.head _)) hv
    have lower (hi : Option Int64) : Takes q b [] C (do
        let lo ← if low then popInt "SLICE" else pure 0
        let c ← pop "SLICE"
        push (← given (← looking c fun h => Machine.slice h c lo hi))
        return none : Exec (Option Nat)) :=
      .ite (fun _ => .seq (popInt_takes _) (finish hi)) fun _ => finish hi 0
    exact .ite (fun _ => .seq (D := fun _ => C) (map (popInt_takes _)) lower) fun _ => lower none
  | field i =>
    exact .seq (pop_takes _) fun _ => .seq (fieldOf_takes _ (.head _)) fun _ =>
      .pushed fun _ hv => by simp [hv]
  | fieldSet path =>
    exact .seq (pop_takes _) fun _ => .seq (pop_takes _) fun _ => .seq (storePath_takes _ _ (by simp) (.head _)
      fun u hu => by simp [hu]) fun _ => .idle
  | composite ty len layout =>
    exact .seq (typeAt_takes _ _) fun _ => .seq (composite_takes _ _ _) fun _ =>
      .pushed fun _ hv => by simp [hv]
  | len =>
    exact .seq (pop_takes _) fun v => lookingGiven_seq (g := fun _ => []) (.head _) (fun _ _ => length_tame)
      (nofun) fun _ => .seq (push_plain (plain_int _)) fun _ =>
        .done fun _ hv => by simp [hv]
  | cap =>
    refine .seq (pop_takes _) fun v => ?_
    split
    · refine looking_seq (fun _ hm => hm) (.head _) fun m hm => fixed ?_ hm
      exact Takes.seq (push_plain (plain_int _)) fun _ => .done fun _ hv => .tail _ hv
    · exact .seq (push_plain (plain_int _)) fun _ => .done fun _ hv => .tail _ hv
    · exact .raise_seq id
  | append count spread =>
    refine .seq (appended_takes _ _) fun vs => .seq (pop_takes _) fun v => ?_
    split
    · next w =>
      refine .seq (lending_takes (.head _) fun l => storing_takes fun h hh hC => ?_) fun _ =>
        .pushed fun _ hv => by simp [hv]
      exact ⟨append_grows w vs, append_sound hh fun u hu => hC u (by simp [hu]),
        .leaf fun hq => append_holds vs ((hC _ (.head _)).holds hq)⟩
    · exact .seq (newSlice_takes fun u hu => by simp [hu]) fun _ => .seq (push_takes (.head _)) fun _ =>
        .done fun _ hv => by simp [hv]
    · exact .raise_seq id
  | make ty argc =>
    exact .seq (popN_takes _ _) fun _ => .seq (typeAt_takes _ _) fun _ => .seq (make_takes _ _) fun _ =>
      .pushed fun _ hv => by simp [hv]
  | delete =>
    refine .seq (pop_takes _) fun k => .seq (pop_takes _) fun v => ?_
    split
    · refine .seq (lending_takes (.head _) fun l => ?_) fun _ => .idle
      refine .seq (D := fun _ => C) (value_takes fun _ _ u hu => by simp [hu]) fun k => ?_
      exact modifyStore_takes fun h hh _ => ⟨modifyMap_grows, eraseEntry_sound hh⟩
    · exact .seq (.ret fun _ hv => by simp [hv]) fun _ => .idle
    · exact .raise_seq id
  | panic =>
    refine .seq (pop_takes _) fun v => lookingAround_seq fun m hm => ?_
    split
    · exact .raise fun s hs => hs ▸ hm.failed id
    · next hc => exact .raise fun s hs => hs ▸ hm.crashed fun _ => Format.text_ends v _ hc
  | range =>
    refine .seq (pop_takes _) fun v => looking_seq (fun _ hm => hm) (.head _) fun m hm => ?_
    cases hr : m.store.range v with
    | error e => exact .raise_seq fun s hs => hs ▸ hm.failed id
    | ok r =>
      refine fixed ?_ (hm.cons (range_sound hm.store hr))
      show Takes q b [] _ (do push r; return none) fun _ => C
      exact .pushed fun _ hv => by simp [hv]
  | next key val rel =>
    refine .seq nextItem_takes fun item => ?_
    split
    · exact .seq (target_takes _) fun _ => .idle
    · exact .seq (setSlot_takes (.head _) _) fun _ => .seq (setSlot_takes (by simp) _) fun _ =>
        .done fun _ hv => by simp [hv]

/-! ## Runs -/

/-- Limits that are hit are an error of the program. -/
theorem checkLimits_takes (limits : Limits) : Takes q b l C (checkLimits limits) := by
  refine .seq (update fun m hm => ⟨hm.base, hm.floor, hm.mem, hm.store, hm.lent, hm.hand⟩) fun _ =>
    read fun m hm => fixed (P := Safe q b l C) ?_ hm
  have finish : Takes q b l C (do
      let used ← less m.mem.size m.base
      if limits.stack < used then throw (.stackLimit limits.stack) : Exec Unit) :=
    .seq (less_takes (by rw [hm.base]; exact hm.floor)) fun _ => .ite (fun _ => .raise id) fun _ => .idle
  split
  · exact Takes.ite (fun _ => .raise_seq id) fun _ => finish
  · exact finish

/-- The values that a program pushes. -/
def constants (p : Program) : List Value := p.code.toList.filterMap fun i => match i.op with
  | .push v => some v
  | _ => none

/-- **What a step keeps.** -/
theorem step_takes (hs : s.registry.Honest (.any q)) :
    Takes q b [] (constants s.program) (step s) fun _ => constants s.program := by
  refine .seq (checkLimits_takes _) fun _ => .read fun m => ?_
  dsimp only
  split
  · exact .raise id
  · exact .idle
  · next op pos _ hop =>
    refine .seq (perform_takes hs fun v hv => ?_) fun _ => .seq
      (update fun m hm => ⟨hm.base, hm.floor, hm.mem, hm.store, hm.lent, hm.hand⟩) fun _ => .idle
    subst hv
    exact mem_filterMap.mpr ⟨_, Array.mem_toList_iff.mpr (Array.mem_of_getElem? hop), rfl⟩

/-- **A run keeps the machine safe**, by induction on its fuel. -/
theorem execute_takes (hs : s.registry.Honest (.any q)) : ∀ fuel,
    Takes q b [] (constants s.program) (execute s fuel) fun _ => constants s.program
  | 0 => .idle
  | n + 1 => .seq (step_takes hs) fun _ => .ite (fun _ => execute_takes hs n) fun _ => .idle

/-- **A run gives memory back at the size it was given**, however it ends. -/
theorem run_size (s : Setting) (fuel : Nat) (mem : Array Value) (store : Store) (ip : Nat) :
    (run s fuel mem store ip).mem.size = mem.size := by
  -- where nothing is asked of values, all of them are sound
  have hall (h : Store) (v : Value) : v.Sound (.any False) h := .trivial (fun _ => trivial) (fun _ => trivial) id v
  have hhonest : s.registry.Honest (.any False) := by
    intro _ f _ h args _ _
    cases f.call h args with
    | ok reply =>
      exact ⟨fun v _ => hall _ v, ⟨fun v _ => hall _ v, fun _ _ v _ => hall _ v, fun _ _ e _ => hall _ e.2⟩,
        fun v _ => hall _ v⟩
    | error e => cases e <;> first | exact trivial | exact False.elim
  have hstart : Safe False mem.size [] (constants s.program) (start mem store ip) :=
    ⟨rfl, Nat.le_refl _, fun v _ => hall _ v, ⟨fun v _ => hall _ v, fun _ _ v _ => hall _ v, fun _ _ e _ => hall _ e.2⟩,
      rfl, fun v _ => hall _ v⟩
  have h := execute_takes hhonest fuel _ hstart
  unfold run
  cases hr : execute s fuel (start mem store ip) with
  | ok done m =>
    rw [hr] at h
    cases done <;> (simp only [Array.size_shrink]; have := h.floor; omega)
  | error e m =>
    rw [hr] at h
    simp only [Array.size_shrink]
    have := h.1.floor
    omega

/-- The states that a run goes through between its instructions. -/
inductive Visits (s : Setting) (m0 : Machine) : Machine → Prop
  | start : Visits s m0 m0
  | step {m m' : Machine} (h : Visits s m0 m) (hs : step s m = .ok true m') : Visits s m0 m'

/-- A run begins with values that refer only to what the store holds: those in memory, in the store and in the program.
The host functions are honest. -/
structure Begins (s : Setting) (mem : Array Value) (store : Store) : Prop where
  memory : ∀ v ∈ mem, v.Sound (.any True) store
  pushed : ∀ v ∈ constants s.program, v.Sound (.any True) store
  held : store.Sound (.any True)
  hosts : s.registry.Honest (.any True)

/-- A run begins safe. -/
theorem Begins.start {store : Store} (h : Begins s mem store) (ip : Nat) :
    Safe True mem.size [] (constants s.program) (start mem store ip) :=
  ⟨rfl, Nat.le_refl _, h.memory, h.held, rfl, h.pushed⟩

/-- The machine is safe wherever a run comes. -/
theorem Visits.safe {m0 : Machine} (hs : s.registry.Honest (.any q))
    (h0 : Safe q b [] (constants s.program) m0) (h : Visits s m0 m) : Safe q b [] (constants s.program) m := by
  induction h with
  | start => exact h0
  | step _ hstep ih =>
    have := step_takes hs _ ih
    rw [hstep] at this
    exact this

/-- **The machine is safe on any program.** Whatever instructions there are, whatever memory holds and whatever the
limits: at every state that the run goes through, memory is no shorter than at the start, nothing is lent, and the
instruction leads to a next state, to the end of the run, to an error that is no breach, or to a crash, for which there
is a reason then: more bytes are needed in a row than there are, or the text of a value that leads to one that contains
itself. Memory is no shorter than at the start then either. When the run ends, memory has the length it had. -/
theorem run_safe {s : Setting} {mem : Array Value} {store : Store} (h : Begins s mem store) (ip : Nat) :
    (∀ m, Visits s (start mem store ip) m →
      mem.size ≤ m.mem.size ∧ m.lent = [] ∧
        match step s m with
        | .ok _ m' => mem.size ≤ m'.mem.size
        | .error f m' => f.Tame m'.store ∧ mem.size ≤ m'.mem.size) ∧
    ∀ fuel, (run s fuel mem store ip).mem.size = mem.size ∧
      (∀ e, (run s fuel mem store ip).ending = .error e → ¬e.fault.Severe) ∧
      ∀ c, (run s fuel mem store ip).ending = .crash c → c.Due (run s fuel mem store ip).store := by
  refine ⟨fun m hm => ?_, fun fuel => ⟨run_size s fuel mem store ip, ?_⟩⟩
  · have hsafe := hm.safe h.hosts (h.start ip)
    refine ⟨hsafe.floor, hsafe.lent, ?_⟩
    have hstep := step_takes h.hosts m hsafe
    cases hr : step s m with
    | ok more m' => rw [hr] at hstep; exact hstep.floor
    | error f m' => rw [hr] at hstep; exact ⟨hstep.2 trivial, hstep.1.floor⟩
  · have hexec := execute_takes h.hosts fuel _ (h.start ip)
    unfold run
    cases hr : execute s fuel (Machine.start mem store ip) with
    | ok done m => cases done <;> exact ⟨nofun, nofun⟩
    | error f m =>
      rw [hr] at hexec
      have hf := hexec.2 trivial
      cases f with
      | breach b => exact hf.elim
      | crash c => exact ⟨nofun, fun _ hc => Ending.crash.inj hc ▸ hf⟩
      | _ => exact ⟨fun _ he => Ending.error.inj he ▸ id, nofun⟩

/-- A function that overwrites its saved frame pointer and returns, and code that then uses the frame. -/
def forgedFrame : Setting :=
  ⟨⟨#[⟨.call 3, ⟨1, 1⟩⟩, ⟨.get (.local 0), ⟨2, 1⟩⟩, ⟨.exit, ⟨3, 1⟩⟩, ⟨.push (.int (-1)), ⟨4, 1⟩⟩,
    ⟨.set (.local (-1)), ⟨5, 1⟩⟩, ⟨.ret 0 0, ⟨6, 1⟩⟩], #[], 0, []⟩, Registry.standard, Limits.standard⟩

/-- The machine is safe where a frame pointer is forged, over memory with a slice in it. -/
theorem run_safe_forged :
    Begins forgedFrame #[.slice ⟨0, 0, 1⟩] ⟨#[], #[#[.int 7]], #[]⟩ ∧
      (∀ m, Visits forgedFrame (start #[.slice ⟨0, 0, 1⟩] ⟨#[], #[#[.int 7]], #[]⟩ 0) m → 1 ≤ m.mem.size ∧
      m.lent = []) ∧
      ∀ fuel, (run forgedFrame fuel #[.slice ⟨0, 0, 1⟩] ⟨#[], #[#[.int 7]], #[]⟩ 0).mem.size = 1 := by
  have hbegins : Begins forgedFrame #[.slice ⟨0, 0, 1⟩] ⟨#[], #[#[.int 7]], #[]⟩ := by
    refine ⟨fun v hv => ?_, fun v hv => ?_, ⟨fun v hv => ?_, fun a ha v hv => ?_, fun es he => ?_⟩,
      Registry.standard_honest⟩
    · rw [show v = .slice ⟨0, 0, 1⟩ by simpa using hv]
      exact .leaf fun _ => by decide
    · rw [show v = .int (-1) by simpa [constants, forgedFrame] using hv]
      exact plain_int _ _ _
    · simp at hv
    · rw [show a = #[.int 7] by simpa using ha] at hv
      rw [show v = .int 7 by simpa using hv]
      exact plain_int _ _ _
    · simp at he
  obtain ⟨hvisits, hrun⟩ := run_safe hbegins 0
  exact ⟨hbegins, fun m hm => ⟨(hvisits m hm).1, (hvisits m hm).2.1⟩, fun fuel => (hrun fuel).1⟩

end Machine

end Goblet
