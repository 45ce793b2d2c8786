import Goblet.Proofs.Machine.Moves
import Goblet.Proofs.Store.Sound

/-!
# Storing along a path of fields

From a pointer on, a path of fields leads through structs within a cell, and on to another cell where a field on the way
is a pointer (`Machine.Trail`). A store along the path succeeds exactly if there is such a trail. Then it replaces one
field of one struct in the last cell and changes nothing else, and a store that fails changes nothing at all. If no cell
is passed twice, the path leads to the value that was stored (`Machine.storePath_exact`).
-/

namespace Goblet

open List

namespace Value

/-- The second value is the first with the field at the end of a path of structs replaced by `v`. -/
inductive Replaces (v : Value) : List Nat → Value → Value → Prop
  | here {fs : List Value} {i : Nat} (hi : i < fs.length) : Replaces v [i] (.struct fs) (.struct (fs.set i v))
  | inside {fs : List Value} {i : Nat} {path : List Nat} {t u : Value} (hf : fs[i]? = some t)
      (h : Replaces v path t u) :
      Replaces v (i :: path) (.struct fs) (.struct (fs.set i u))

/-- A pointer to a cell of memory or of the store. -/
def isPointer : Value → Bool
  | .ref _ | .heap _ => true
  | _ => false

/-- A path of structs comes to the pointer `q` with the path `rest` still to go. -/
inductive LeadsTo (q : Value) (rest : List Nat) : List Nat → Value → Prop
  | here {fs : List Value} {i : Nat} (hf : fs[i]? = some q) (hq : q.isPointer = true) (hr : rest ≠ []) :
      LeadsTo q rest (i :: rest) (.struct fs)
  | inside {fs : List Value} {i : Nat} {path : List Nat} {t : Value} (hf : fs[i]? = some t)
      (h : LeadsTo q rest path t) :
      LeadsTo q rest (i :: path) (.struct fs)

variable {v q t u : Value} {path rest : List Nat}

theorem Replaces.shape (h : Replaces v path t u) : ∃ fs i tail, t = .struct fs ∧ path = i :: tail := by
  cases h <;> exact ⟨_, _, _, rfl, rfl⟩

theorem Replaces.target (h : Replaces v path t u) : ∃ fs i tail, u = .struct fs ∧ path = i :: tail := by
  cases h <;> exact ⟨_, _, _, rfl, rfl⟩

theorem LeadsTo.shape (h : LeadsTo q rest path t) : ∃ fs i tail, t = .struct fs ∧ path = i :: tail := by
  cases h <;> exact ⟨_, _, _, rfl, rfl⟩

theorem LeadsTo.suffix (h : LeadsTo q rest path t) : ∃ i tail, path = i :: tail ∧ rest <:+ tail := by
  induction h with
  | here => exact ⟨_, _, rfl, suffix_rfl⟩
  | inside _ _ ih =>
    obtain ⟨j, tail, rfl, h⟩ := ih
    exact ⟨_, _, rfl, h.trans (suffix_cons ..)⟩

theorem LeadsTo.length_lt (h : LeadsTo q rest path t) : rest.length < path.length := by
  obtain ⟨i, tail, rfl, htail⟩ := h.suffix
  exact Nat.lt_succ_of_le htail.length_le

end Value

namespace Machine

open Value (Replaces LeadsTo isPointer)

variable {m m' : Machine} {v w p q t u : Value} {path rest : List Nat} {ps : List Value} {e : Fault} {i n : Nat}

/-- The cells that a path of fields passes from a pointer on. -/
inductive Trail (m : Machine) : (p : Value) → (path : List Nat) → List Value → Prop
  | last {p t w u : Value} {path : List Nat} (hl : load p m = .ok t m) (h : Replaces w path t u) : Trail m p path [p]
  | next {p q t : Value} {path rest : List Nat} {ps : List Value} (hl : load p m = .ok t m) (hq : LeadsTo q rest path t)
      (h : Trail m q rest ps) : Trail m p path (p :: ps)

/-- The machine with another value where a pointer points to. -/
def put (m : Machine) (v : Value) : Value → Machine
  | .ref a => { m with mem := m.mem.setIfInBounds a v }
  | .heap c => { m with store := m.store.setCell c v }
  | _ => m

/-! ## Cells -/

/-- What a value refers to is there and not lent. -/
def Free (m : Machine) (p : Value) : Prop := ∀ x, p.handle? = some x → m.store.holds p = true ∧ x ∉ m.lent

theorem reach_cases (p : Value) (m : Machine) :
    reach p m = .ok () m ∧ m.Free p ∨ (∃ e, reach p m = .error e m) ∧ ¬m.Free p := by
  unfold reach Free
  cases p.handle? with
  | none => exact .inl ⟨rfl, fun x hx => by cases hx⟩
  | some x =>
    dsimp only
    rw [get_seq]
    by_cases hh : m.store.holds p = true
    · rw [if_neg (by simp [hh])]
      by_cases hl : x ∈ m.lent
      · rw [if_pos hl]
        exact .inr ⟨⟨_, rfl⟩, fun hf => (hf x rfl).2 hl⟩
      · rw [if_neg hl]
        exact .inl ⟨rfl, fun y hy => by cases hy; exact ⟨hh, hl⟩⟩
    · rw [if_pos (by simpa using hh)]
      exact .inr ⟨⟨_, rfl⟩, fun hf => hh (hf x rfl).1⟩

/-- What a computation gives that leaves the machine as it is. -/
def ended {α : Type} (m : Machine) : Except Fault α → EStateM.Result Fault Machine α
  | .ok a => .ok a m
  | .error e => .error e m

/-- Reading a cell does not depend on what is lent. -/
theorem content_eq (p : Value) (m : Machine) :
    ∃ r, ∀ l, content p { m with lent := l } = ended { m with lent := l } r := by
  unfold content
  cases p with
  | ref a =>
    simp only [get_seq]
    cases m.mem[a]? with
    | none => exact ⟨.error .nilPointer, fun _ => rfl⟩
    | some t => exact ⟨.ok t, fun _ => rfl⟩
  | heap c => exact ⟨.ok ((m.store.cell? c).getD .nil), fun _ => rfl⟩
  | _ => exact ⟨.error _, fun _ => rfl⟩

theorem load_of_free (h : m.Free p) : load p m = content p m :=
  (reach_cases p m).elim (fun hr => seq_eq hr.1) fun hr => absurd h hr.2

theorem free_of_load (h : load p m = .ok t m) : m.Free p := by
  rcases reach_cases p m with ⟨-, hf⟩ | ⟨⟨e, he⟩, -⟩
  · exact hf
  · rw [load, seq_error he] at h
    cases h

theorem content_ref {a : Nat} : content (.ref a) m = .ok t m ↔ m.mem[a]? = some t := by
  unfold content
  dsimp only
  rw [get_seq]
  cases m.mem[a]? with
  | none => exact iff_of_false (fun h => by cases h) fun h => by cases h
  | some x => exact ⟨fun h => congrArg some (EStateM.Result.ok.inj h).1, fun h => by cases h; rfl⟩

theorem load_eq_ok : load p m = .ok t m ↔ (∃ a, p = .ref a ∧ m.mem[a]? = some t) ∨
    ∃ c, p = .heap c ∧ m.store.cells[c]? = some t ∧ Handle.cell c ∉ m.lent := by
  constructor
  · intro h
    have hf := free_of_load h
    rw [load_of_free hf] at h
    cases p with
    | ref a => exact .inl ⟨a, rfl, content_ref.mp h⟩
    | heap c =>
      obtain ⟨hc, hl⟩ := hf _ rfl
      have hc : c < m.store.cells.size := of_decide_eq_true hc
      refine .inr ⟨c, rfl, ?_, hl⟩
      have ht : (m.store.cells[c]?).getD .nil = t := (EStateM.Result.ok.inj h).1
      rwa [Array.getElem?_eq_getElem hc, Option.getD_some, ← Option.some_inj, ← Array.getElem?_eq_getElem hc] at ht
    | _ => cases h
  · rintro (⟨a, rfl, ha⟩ | ⟨c, rfl, hc, hl⟩)
    · rw [load_of_free fun x hx => by cases hx]
      exact content_ref.mpr ha
    · have hf : m.Free (.heap c) := fun x hx => by
        cases hx
        exact ⟨decide_eq_true (Array.getElem?_eq_some_iff.mp hc).1, hl⟩
      rw [load_of_free hf]
      show EStateM.Result.ok ((m.store.cells[c]?).getD .nil) m = _
      rw [hc]
      rfl

theorem load_put_self (hl : load q m = .ok t m) : load q (m.put u q) = .ok u (m.put u q) := by
  rw [load_eq_ok] at hl ⊢
  rcases hl with ⟨a, rfl, ha⟩ | ⟨c, rfl, hc, hlent⟩
  · exact .inl ⟨a, rfl, by simp [put, (Array.getElem?_eq_some_iff.mp ha).1]⟩
  · exact .inr ⟨c, rfl, by simp [put, Store.setCell, (Array.getElem?_eq_some_iff.mp hc).1], hlent⟩

theorem load_put_ne (hne : p ≠ q) (hl : load p m = .ok t m) : load p (m.put u q) = .ok t (m.put u q) := by
  rw [load_eq_ok] at hl ⊢
  rcases hl with ⟨a, rfl, ha⟩ | ⟨c, rfl, hc, hlent⟩
  · refine .inl ⟨a, rfl, ?_⟩
    cases q with
    | ref b => rwa [put, Array.getElem?_setIfInBounds_ne fun h => hne (congrArg _ h.symm)]
    | _ => exact ha
  · refine .inr ⟨c, rfl, ?_⟩
    cases q with
    | heap d => exact ⟨by rwa [put, Store.setCell, Array.getElem?_setIfInBounds_ne fun h => hne (congrArg _ h.symm)],
        hlent⟩
    | _ => exact ⟨hc, hlent⟩

/-! ## Within a cell -/

/-- What becomes of a store into the cell that a pointer points to. -/
def settled (m : Machine) (p : Value) : Except Fault PathStore →
    EStateM.Result Fault Machine (Option (Value × List Nat))
  | .ok (.stored u) => .ok none (m.put u p)
  | .ok (.follow q rest) => .ok (some (q, rest)) m
  | .error e => .error e m

/-- What is done while something is lent is done as if it were not. -/
theorem lending_eq {α : Type} {act : Exec α} {r : Except Fault α} (hf : m.Free p) (hm : m'.lent = m.lent)
    (h : ∀ l, act { m with lent := l } = ended { m' with lent := l } r) : lending p act m = ended m' r := by
  unfold lending
  cases hh : p.handle? with
  | none => exact (h m.lent).trans (by rw [← hm])
  | some x =>
    obtain ⟨hr, -⟩ := (reach_cases p m).resolve_right fun hn => hn.2 hf
    refine (seq_eq hr).trans ?_
    refine (seq_eq (modify_run _ m)).trans ?_
    cases r <;> simp only [h, ended, tail_cons, ← hm]

theorem setContent_of_load (hl : load p m = .ok t m) (u : Value) (l : List Handle) :
    setContent p u { m with lent := l } = .ok () { m.put u p with lent := l } := by
  rcases load_eq_ok.mp hl with ⟨a, rfl, ha⟩ | ⟨c, rfl, -⟩
  · have hlt := (Array.getElem?_eq_some_iff.mp ha).1
    unfold setContent
    dsimp only
    rw [get_seq, if_pos hlt]
    exact write_eq (m := { m with lent := l }) hlt u
  · rfl

theorem put_lent (m : Machine) (u p : Value) : (m.put u p).lent = m.lent := by cases p <;> rfl

theorem storeBelow_eq (v p : Value) (path : List Nat) (m : Machine) :
    ∃ r, load p m = ended m r ∧ storeBelow v p path m = settled m p (r >>= storeInto v path) := by
  rcases reach_cases p m with ⟨-, hf⟩ | ⟨⟨e, hr⟩, hn⟩
  · obtain ⟨r, hc⟩ := content_eq p m
    have hl : load p m = ended m r := (load_of_free hf).trans (hc m.lent)
    refine ⟨r, hl, ?_⟩
    cases r with
    | error e => exact lending_eq (r := .error e) hf rfl fun l => seq_error (hc l)
    | ok t =>
      show _ = settled m p (storeInto v path t)
      cases hr : storeInto v path t with
      | error e =>
        refine lending_eq (r := .error e) hf rfl fun l => (seq_eq (hc l)).trans ?_
        rw [hr]
        rfl
      | ok r =>
        cases r with
        | stored u =>
          refine lending_eq (r := .ok none) hf (put_lent m u p) fun l => (seq_eq (hc l)).trans ?_
          rw [hr]
          exact seq_eq (setContent_of_load hl u l)
        | follow q rest =>
          refine lending_eq (r := .ok (some (q, rest))) hf rfl fun l => (seq_eq (hc l)).trans ?_
          rw [hr]
          rfl
  · refine ⟨.error e, seq_error hr, ?_⟩
    unfold storeBelow lending
    cases hh : p.handle? with
    | none => exact absurd (fun x hx => by rw [hh] at hx; cases hx) hn
    | some x => exact seq_error hr

theorem storeBelow_of_load (hl : load p m = .ok t m) : storeBelow v p path m = settled m p (storeInto v path t) := by
  obtain ⟨r, hr, he⟩ := storeBelow_eq v p path m
  cases r with
  | error e => cases hl.symm.trans hr
  | ok u =>
    cases hl.symm.trans hr
    exact he

/-- What stands in a struct is replaced, or the store goes on from a pointer. -/
theorem storeInto_ok {r : PathStore} (h : storeInto v path t = .ok r) :
    (∃ u, r = .stored u ∧ Replaces v path t u) ∨ ∃ q rest, r = .follow q rest ∧ LeadsTo q rest path t := by
  fun_induction storeInto v path t generalizing r with
  | case1 => cases h
  | case2 => cases h
  | case3 fs i field hf =>
    cases h
    exact .inl ⟨_, rfl, .here (List.getElem?_eq_some_iff.mp hf).1⟩
  | case4 i fs a k rest hf | case5 i fs a k rest hf =>
    cases h
    exact .inr ⟨_, _, rfl, .here hf rfl (cons_ne_nil _ _)⟩
  | case6 => cases h
  | case7 i fs k path field _ _ _ stored hstored hf ih =>
    rw [hstored] at h
    cases h
    obtain ⟨u, hu, hr⟩ | ⟨q, rest, hu, -⟩ := ih hstored
    · cases hu
      exact .inl ⟨_, rfl, Replaces.inside hf hr⟩
    · cases hu
  | case8 i fs k path field _ _ _ hf hne ih =>
    cases hs : storeInto v (k :: path) field with
    | error e =>
      rw [hs] at h
      cases h
    | ok r' =>
      obtain ⟨u, rfl, -⟩ | ⟨q, rest, rfl, hq⟩ := ih hs
      · exact (hne u hs).elim
      · rw [hs] at h
        cases h
        exact .inr ⟨_, _, rfl, LeadsTo.inside hf hq⟩
  | case9 => cases h

theorem storeInto_of_replaces (h : Replaces w path t u) (v : Value) : ∃ u', storeInto v path t = .ok (.stored u') := by
  induction h with
  | here hi => exact ⟨_, by rw [storeInto, getElem?_eq_getElem hi]⟩
  | @inside fs i path t u hf h ih =>
    obtain ⟨u', hu⟩ := ih
    obtain ⟨gs, j, path, rfl, rfl⟩ := h.shape
    exact ⟨.struct (fs.set i u'), by rw [storeInto, hf]; simp only [hu]⟩

theorem storeInto_of_leadsTo (h : LeadsTo q rest path t) (v : Value) : storeInto v path t = .ok (.follow q rest) := by
  induction h with
  | @here fs i hf hq hr =>
    cases rest with
    | nil => exact absurd rfl hr
    | cons j rest =>
      rw [storeInto, hf]
      cases q <;> first | rfl | cases hq
  | @inside fs i path t hf h ih =>
    obtain ⟨gs, j, path, rfl, rfl⟩ := h.shape
    rw [storeInto, hf]
    simp only [ih]

/-! ## Reading -/

/-- Reading one field after the other, a path leads from the first value to the second. -/
inductive Reads (m : Machine) (v : Value) : List Nat → Value → Prop
  | done : Reads m v [] v
  | field {i : Nat} {path : List Nat} {p t : Value} (hf : fieldOf i p m = .ok t m) (h : Reads m v path t) :
      Reads m v (i :: path) p

theorem fieldOf_struct {fs : List Value} (hf : fs[i]? = some t) : fieldOf i (.struct fs) m = .ok t m := by
  unfold fieldOf
  simp only [pure_bind, hf]
  rfl

theorem Reads.through (hl : load p m = .ok t m) (ht : ∃ fs i tail, t = .struct fs ∧ path = i :: tail)
    (h : Reads m v path t) : Reads m v path p := by
  obtain ⟨fs, i, tail, rfl, rfl⟩ := ht
  have hfield : fieldOf i p m = fieldOf i (.struct fs) m := by
    rcases load_eq_ok.mp hl with ⟨a, rfl, -⟩ | ⟨c, rfl, -⟩
    · exact seq_eq hl
    · exact seq_eq hl
  cases h with
  | field hf h => exact .field (hfield.trans hf) h

theorem Reads.of_replaces (h : Replaces v path t u) : Reads m v path u := by
  induction h with
  | here hi => exact .field (fieldOf_struct (getElem?_set_self hi)) .done
  | inside hf _ ih => exact .field (fieldOf_struct (getElem?_set_self (List.getElem?_eq_some_iff.mp hf).1)) ih

theorem Reads.of_leadsTo (h : LeadsTo q rest path t) (hr : Reads m v rest q) : Reads m v path t := by
  induction h with
  | here hf => exact .field (fieldOf_struct hf) hr
  | inside hf _ ih => exact .field (fieldOf_struct hf) ih

/-- Field instructions, one after the other. -/
def fields (s : Setting) : List Nat → Exec Unit
  | [] => pure ()
  | i :: path => do
    let _ ← perform s (.field i)
    fields s path

/-- They put the value that a path leads to in place of the value on top of the stack. -/
theorem Reads.fields (s : Setting) (hb : m.base ≤ m.mem.size) (h : Reads m v path p) :
    fields s path { m with mem := m.mem.push p } = .ok () { m with mem := m.mem.push v } := by
  induction h with
  | done => rfl
  | @field i path p t hf _ ih =>
    have hpop : pop "FIELD" { m with mem := m.mem.push p } = .ok p m :=
      pop_eq (m := { m with mem := m.mem.push p }) (b := ⟨0, m.mem, []⟩) rfl hb "FIELD"
    have hstep : perform s (.field i) { m with mem := m.mem.push p } = .ok none { m with mem := m.mem.push t } := by
      exact (seq_eq hpop).trans (seq_eq hf)
    exact (seq_eq hstep).trans ih

/-! ## From cell to cell -/

theorem storePath_stored (n : Nat) (hl : load p m = .ok t m) (hr : storeInto v path t = .ok (.stored u)) :
    storePath v n p path m = .ok () (m.put u p) := by
  unfold storePath
  exact seq_eq ((storeBelow_of_load hl).trans (by rw [hr]; rfl))

theorem storePath_follow (n : Nat) (hl : load p m = .ok t m) (hr : storeInto v path t = .ok (.follow q rest)) :
    storePath v (n + 1) p path m = storePath v n q rest m := by
  rw [storePath]
  exact seq_eq ((storeBelow_of_load hl).trans (by rw [hr]; rfl))

/-- One cell of a store: it fails there, ends there, or goes on from a pointer. -/
theorem storePath_cases (v : Value) (n : Nat) (p : Value) (path : List Nat) (m : Machine) :
    (∃ e, storePath v n p path m = .error e m) ∨
      (∃ t u, load p m = .ok t m ∧ Replaces v path t u ∧ storePath v n p path m = .ok () (m.put u p)) ∨
      ∃ t q rest k, load p m = .ok t m ∧ LeadsTo q rest path t ∧ n = k + 1 ∧
        storePath v n p path m = storePath v k q rest m := by
  obtain ⟨r, hl, he⟩ := storeBelow_eq v p path m
  cases r with
  | error e =>
    refine .inl ⟨e, ?_⟩
    unfold storePath
    exact seq_error he
  | ok t =>
    cases hr : storeInto v path t with
    | error e =>
      refine .inl ⟨e, ?_⟩
      unfold storePath
      exact seq_error (he.trans (congrArg (settled m p) hr))
    | ok r =>
      obtain ⟨u, rfl, hu⟩ | ⟨q, rest, rfl, hq⟩ := storeInto_ok hr
      · exact .inr (.inl ⟨t, u, hl, hu, storePath_stored n hl hr⟩)
      · cases n with
        | zero =>
          refine .inl ⟨.emptyPath, ?_⟩
          unfold storePath
          exact seq_eq (he.trans (congrArg (settled m p) hr))
        | succ k => exact .inr (.inr ⟨t, q, rest, k, hl, hq, rfl, storePath_follow k hl hr⟩)

/-- What a store has done: one field is replaced, in the last cell of a trail. -/
structure Stored (v p : Value) (path : List Nat) (m m' : Machine) (ps : List Value) : Prop where
  trail : Trail m p path ps
  last : ∃ q inner old new, ps.getLast? = some q ∧ inner <:+ path ∧ load q m = .ok old m ∧ Replaces v inner old new ∧
    m' = m.put new q
  read : ps.Nodup → Reads m' v path p

theorem storePath_ok (n : Nat) (p : Value) (path : List Nat) (h : storePath v n p path m = .ok () m') :
    ∃ ps, Stored v p path m m' ps := by
  rcases storePath_cases v n p path m with ⟨e, he⟩ | ⟨t, u, hl, hu, he⟩ | ⟨t, q, rest, k, hl, hq, rfl, he⟩
  · cases h.symm.trans he
  · cases h.symm.trans he
    exact ⟨[p], .last hl hu, ⟨p, path, t, u, rfl, suffix_rfl, hl, hu, rfl⟩,
      fun _ => .through (load_put_self hl) hu.target (.of_replaces hu)⟩
  · obtain ⟨ps, htrail, ⟨r, inner, old, new, hr, hsuf, hold, hnew, rfl⟩, hread⟩ :=
      storePath_ok k q rest (he.symm.trans h)
    refine ⟨p :: ps, .next hl hq htrail, ⟨r, inner, old, new, ?_, ?_, hold, hnew, rfl⟩, fun hnd => ?_⟩
    · rw [getLast?_cons, hr]
      rfl
    · obtain ⟨i, tail, rfl, htail⟩ := hq.suffix
      exact (hsuf.trans htail).trans (suffix_cons ..)
    · obtain ⟨hp, hnd⟩ := nodup_cons.mp hnd
      have hne : p ≠ r := fun h => hp (h ▸ mem_of_getLast? hr)
      exact .through (load_put_ne hne hl) hq.shape (.of_leadsTo hq (hread hnd))
termination_by n

theorem storePath_error (n : Nat) (p : Value) (path : List Nat) (h : storePath v n p path m = .error e m') :
    m' = m := by
  rcases storePath_cases v n p path m with ⟨e, he⟩ | ⟨t, u, hl, hu, he⟩ | ⟨t, q, rest, k, hl, hq, rfl, he⟩
  · cases h.symm.trans he
    rfl
  · cases h.symm.trans he
  · exact storePath_error k q rest (he.symm.trans h)
termination_by n

theorem storePath_of_trail (v : Value) (h : Trail m p path ps) :
    ∀ {n : Nat}, path.length ≤ n → ∃ m', storePath v n p path m = .ok () m' := by
  induction h with
  | last hl hu =>
    intro n _
    obtain ⟨u', hr⟩ := storeInto_of_replaces hu v
    exact ⟨_, storePath_stored n hl hr⟩
  | next hl hq _ ih =>
    intro n hn
    obtain ⟨k, rfl⟩ : ∃ k, n = k + 1 := ⟨n - 1, by have := hq.length_lt; omega⟩
    rw [storePath_follow k hl (storeInto_of_leadsTo hq v)]
    exact ih (by have := hq.length_lt; omega)

/-- **Storing along a path of fields.** A store succeeds exactly if the path leads to a field. It then replaces this one
field, in the last of the cells that it passes, and where no cell is passed twice field instructions read the value
back. A store that fails leaves the machine as it was. -/
theorem storePath_exact (m : Machine) (v p : Value) (path : List Nat) :
    ((∃ m', storePath v path.length p path m = .ok () m') ↔ ∃ ps, Trail m p path ps) ∧
      (∀ m', storePath v path.length p path m = .ok () m' → ∃ ps q inner old new, Trail m p path ps ∧
        ps.getLast? = some q ∧ inner <:+ path ∧ load q m = .ok old m ∧ Replaces v inner old new ∧ m' = m.put new q ∧
        load q m' = .ok new m' ∧ (∀ r t, r ≠ q → load r m = .ok t m → load r m' = .ok t m') ∧
        (ps.Nodup → m.base ≤ m.mem.size → ∀ s : Setting,
          fields s path { m' with mem := m'.mem.push p } = .ok () { m' with mem := m'.mem.push v })) ∧
      ∀ e m', storePath v path.length p path m = .error e m' → m' = m := by
  refine ⟨⟨fun ⟨m', h⟩ => ?_, fun ⟨ps, h⟩ => storePath_of_trail v h (Nat.le_refl _)⟩, fun m' h => ?_,
    fun e m' h => storePath_error _ _ _ h⟩
  · obtain ⟨ps, hs⟩ := storePath_ok _ _ _ h
    exact ⟨ps, hs.trail⟩
  · obtain ⟨ps, htrail, ⟨q, inner, old, new, hq, hsuf, hold, hnew, rfl⟩, hread⟩ := storePath_ok _ _ _ h
    refine ⟨ps, q, inner, old, new, htrail, hq, hsuf, hold, hnew, rfl, load_put_self hold, fun r t hne =>
      load_put_ne hne,
      fun hnd hb s => (hread hnd).fields s ?_⟩
    cases q <;> simpa [put] using hb

end Machine

end Goblet
