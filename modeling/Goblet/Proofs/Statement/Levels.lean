import Goblet.Proofs.Compile.Wiring
import Goblet.Proofs.Scalar.Compiling
import Goblet.Proofs.Statement.Grammar
import Goblet.Proofs.Statement.Running
import Goblet.Proofs.Symbol.Scope

/-!
# Levels of scopes

The scopes around a statement have paths and variables (`Level`). `Named` says what a symbol table knows of them: the
names of a lexicon mean the variables of the levels and nothing else, other words mean what they meant before, and the
scopes of blocks that are still to come are empty. So a name is resolved to the innermost variable of the levels
(`Named.resolve_var`, `Named.resolve_none`) or to what it meant before (`Named.resolve_word`). Entering a block, leaving
it and declaring a variable keep this.
-/

namespace Goblet

open List Layer Place SymbolTable

open SymbolTable (qualify enclosing SameNames)

/-! ## Paths -/

namespace SymbolTable

variable {P y : String}

theorem qualify_inj {Q z : String} (hP : P ≠ "") (hQ : Q ≠ "") (hy : VarName y) (hz : VarName z)
    (h : qualify P y = qualify Q z) : P = Q ∧ y = z := by
  rw [qualify_eq hP, qualify_eq hQ] at h
  exact last_part_inj h hy.noSlash hz.noSlash

theorem qualify_ne_word {z : String} (hP : P ≠ "") (hz : VarName z) : z ≠ qualify P y := by
  rw [qualify_eq hP]
  rintro rfl
  exact hz.noSlash (by simp [String.toList_append])

end SymbolTable

open SymbolTable (qualify_inj qualify_ne_word)

/-- The name of the tag of a switch. -/
def tagName (k : Nat) : String := "#tag" ++ toString k

theorem fresh_tagName (k : Nat) : Fresh "tag" (tagName k) := ⟨k, rfl⟩

theorem varName_tagName (k : Nat) : VarName (tagName k) := .inr ⟨k, rfl⟩

theorem tagName_inj {j k : Nat} (h : tagName j = tagName k) : j = k :=
  freshIn_inj (show freshIn "" "tag" j = freshIn "" "tag" k from congrArg ("" ++ "/" ++ ·) h)

theorem freshIn_block_inj {P Q : String} {j k : Nat} (h : freshIn P "b" j = freshIn Q "b" k) : P = Q ∧ j = k := by
  obtain ⟨rfl, -⟩ := last_part_inj h (fresh_freshText "b" j).noSlash_block (fresh_freshText "b" k).noSlash_block
  exact ⟨rfl, freshIn_inj h⟩

theorem length_freshIn (P tag : String) (k : Nat) : P.length < (freshIn P tag k).length := by
  simp only [freshIn, String.length_append, show "/".length = 1 from rfl]
  omega

theorem freshIn_ne_empty {P tag : String} {k : Nat} : freshIn P tag k ≠ "" := by
  intro he
  have := length_freshIn P tag k
  rw [he] at this
  exact absurd this (Nat.not_lt_zero _)

/-- The paths of the scopes around a statement: the scope of the chunk, and the scopes of blocks with numbers below
`n`. -/
inductive Nested (n : Nat) : List String → Prop
  | main : Nested n [mainScope]
  | block {P : String} {Ps : List String} {k : Nat} (hk : k < n) (h : Nested n (P :: Ps)) :
      Nested n (freshIn P "b" k :: P :: Ps)

namespace Nested

variable {n : Nat} {P Q : String} {Ps : List String}

theorem mono {n' : Nat} (h : Nested n Ps) (hn : n ≤ n') : Nested n' Ps := by
  induction h with
  | main => exact .main
  | block hk _ ih => exact .block (Nat.lt_of_lt_of_le hk hn) ih

theorem outer (h : Nested n (P :: Q :: Ps)) : Nested n (Q :: Ps) := by
  cases h with
  | block _ h => exact h

theorem ne_empty (h : Nested n Ps) : ∀ Q ∈ Ps, Q ≠ "" := by
  induction h with
  | main =>
    intro Q hQ
    rw [mem_singleton.mp hQ]
    decide
  | @block P Ps k hk _ ih =>
    intro Q hQ
    rcases mem_cons.mp hQ with rfl | hQ
    · exact freshIn_ne_empty
    · exact ih Q hQ

theorem freshIn_ne_main (P tag : String) (k : Nat) : freshIn P tag k ≠ mainScope := by
  intro he
  have he := congrArg (fun s => '/' ∈ s.toList) he
  simp [freshIn, String.toList_append, mainScope] at he

theorem ne_main (h : Nested n (P :: Q :: Ps)) : P ≠ mainScope := by
  cases h with
  | block => exact freshIn_ne_main _ _ _

theorem length_lt (h : Nested n (P :: Ps)) : ∀ Q ∈ Ps, Q.length < P.length := by
  generalize hl : P :: Ps = l at h
  induction h generalizing P Ps with
  | main =>
    cases hl
    exact nofun
  | @block P' Ps' k hk _ ih =>
    cases hl
    intro Q hQ
    have hP := length_freshIn P' "b" k
    rcases mem_cons.mp hQ with rfl | hQ
    · exact hP
    · exact Nat.lt_trans (ih rfl Q hQ) hP

theorem ne_outer (h : Nested n (P :: Ps)) : ∀ Q ∈ Ps, Q ≠ P := by
  intro Q hQ he
  have := h.length_lt Q hQ
  rw [he] at this
  exact Nat.lt_irrefl _ this

theorem number_lt (h : Nested n Ps) {k : Nat} (hm : freshIn Q "b" k ∈ Ps) : k < n := by
  induction h with
  | main => exact absurd (mem_singleton.mp hm) (freshIn_ne_main _ _ _)
  | block hk _ ih =>
    rcases mem_cons.mp hm with he | hm
    · exact (freshIn_block_inj he).2 ▸ hk
    · exact ih hm

/-- The scopes around the innermost one are the levels. -/
theorem enclosing_eq (h : Nested n (P :: Ps)) : enclosing P = P :: Ps ++ [""] := by
  generalize hl : P :: Ps = l at h
  induction h generalizing P Ps with
  | main =>
    cases hl
    decide
  | @block P' Ps' k hk _ ih =>
    cases hl
    rw [freshIn, ← freshText, enclosing_append (fresh_freshText "b" k).noSlash_block, ih rfl]
    rfl

end Nested

/-! ## Names -/

/-- What the words of a lexicon mean before a program. -/
structure Lexicon.Known (V : Lexicon) (t : SymbolTable) : Prop where
  words : ∀ x, V.name x → IsWord x
  flags : ∀ b, ¬V.name (Act.flagText b) ∧
    ∃ key a, t.resolve? (Act.flagText b) mainScope = some (key, ⟨.const, a, .bool, some (.bool b)⟩)
  types : ∀ T, V.type T → IsWord T ∧ ¬V.name T ∧ ∃ key a ty v,
    t.resolve? T mainScope = some (key, ⟨.type, a, ty, v⟩) ∧ (ty = .int ∨ ty = .bool)

/-- A scope around a statement. -/
structure Level where
  path : String
  layer : Layer

/-- The symbol of a variable. -/
def Var.symbol (a : Var) (v : Option Value) : Symbol := ⟨.var, .global a.slot, a.ty, v⟩

/-- What a symbol table knows of the names of a lexicon, where `t0` is the table before the program and blocks and tags
get numbers from `n` on. -/
structure Named (V : Lexicon) (t0 : SymbolTable) (n : Nat) (levels : List Level) (t : SymbolTable) : Prop where
  nested : Nested n (levels.map Level.path)
  held : ∀ l ∈ levels, ∀ x a, l.layer x = some a →
    V.name x ∧ x ≠ "_" ∧ ∃ v, t.lookup? (qualify l.path x) = some (a.symbol v)
  free : ∀ l ∈ levels, ∀ x, V.name x → l.layer x = none → t.lookup? (qualify l.path x) = none
  root : ∀ x, V.name x → (∀ l ∈ levels, l.path = mainScope → l.layer x = none) → t.lookup? x = none
  words : ∀ w, IsWord w → ¬V.name w →
    t.lookup? w = t0.lookup? w ∧ t.lookup? (qualify mainScope w) = t0.lookup? (qualify mainScope w)
  inner : ∀ l ∈ levels, l.path ≠ mainScope → ∀ y, VarName y → ¬V.name y → (∀ k < n, y ≠ tagName k) →
    t.lookup? (qualify l.path y) = none
  later : ∀ P k y, n ≤ k → VarName y → t.lookup? (qualify (freshIn P "b" k) y) = none

namespace Named

variable {V : Lexicon} {t0 t t' : SymbolTable} {n : Nat} {l : Level} {levels : List Level} {x : String} {a : Var}
  {Γ : List Layer} {L : Layer} {w : String} {P y z : String} {sym : Symbol}

theorem head_ne_empty (h : Named V t0 n levels t) : ∀ l ∈ levels, l.path ≠ "" :=
  fun _ hl => h.nested.ne_empty _ (mem_map_of_mem hl)

theorem mono {n' : Nat} (h : Named V t0 n levels t) (hn : n ≤ n') : Named V t0 n' levels t where
  nested := h.nested.mono hn
  held := h.held
  free := h.free
  root := h.root
  words := h.words
  inner l hl hp y hy hv ht := h.inner l hl hp y hy hv fun k hk => ht k (Nat.lt_of_lt_of_le hk hn)
  later P k y hk := h.later P k y (Nat.le_trans hn hk)

theorem sameNames (hV : ∀ x, V.name x → IsWord x) (h : Named V t0 n levels t) (hs : SameNames t t') :
    Named V t0 n levels t' := by
  have key (P : String) {y : String} (hy : VarName y) : t'.lookup? (qualify P y) = t.lookup? (qualify P y) :=
    hs _ fun _ => Compile.qualify_ne_labelKey hy
  have word {y : String} (hy : VarName y) : t'.lookup? y = t.lookup? y := key "" hy
  refine ⟨h.nested, fun l hl x a hx => ?_, fun l hl x hx hn => ?_, fun x hx hm => ?_, fun w hw hv => ?_,
    fun l hl hp y hy hv ht => ?_, fun P k y hk hy => ?_⟩
  · obtain ⟨hv, hb, v, hs⟩ := h.held l hl x a hx
    exact ⟨hv, hb, v, by rw [key _ (.inl (hV x hv)), hs]⟩
  · rw [key _ (.inl (hV x hx))]
    exact h.free l hl x hx hn
  · rw [word (.inl (hV x hx))]
    exact h.root x hx hm
  · rw [word (.inl hw), key _ (.inl hw)]
    exact h.words w hw hv
  · rw [key _ hy]
    exact h.inner l hl hp y hy hv ht
  · rw [key _ hy]
    exact h.later P k y hk hy

variable (h : Named V t0 n (l :: levels) t)
include h

/-- A new level has no names yet. -/
theorem enter (hV : ∀ x, V.name x → IsWord x) :
    Named V t0 (n + 1) (⟨freshIn l.path "b" n, .empty⟩ :: l :: levels) t := by
  have hm := h.mono (Nat.le_add_right n 1)
  refine ⟨.block (Nat.lt_succ_self n) hm.nested, fun l' hl x a hx => ?_, fun l' hl x hx hn => ?_, fun x hx hx' => ?_,
    hm.words, fun l' hl hp y hy hv ht => ?_, hm.later⟩
  · rcases mem_cons.mp hl with rfl | hl
    · cases hx
    · exact h.held l' hl x a hx
  · rcases mem_cons.mp hl with rfl | hl
    · exact h.later _ _ _ (Nat.le_refl n) (.inl (hV x hx))
    · exact h.free l' hl x hx hn
  · exact h.root x hx fun l' hl => hx' l' (.tail _ hl)
  · rcases mem_cons.mp hl with rfl | hl
    · exact h.later _ _ _ (Nat.le_refl n) hy
    · exact hm.inner l' hl hp y hy hv ht

omit h

/-- Leaving a level changes no name outside it. -/
theorem leave {l' : Level} (h : Named V t0 n (l' :: l :: levels) t) : Named V t0 n (l :: levels) t where
  nested := h.nested.outer
  held l hl := h.held l (.tail _ hl)
  free l hl := h.free l (.tail _ hl)
  root x hx hm := by
    refine h.root x hx fun l1 hl hp => ?_
    rcases mem_cons.mp hl with rfl | hl
    · exact absurd hp h.nested.ne_main
    · exact hm l1 hl hp
  words := h.words
  inner l hl := h.inner l (.tail _ hl)
  later := h.later

include h

/-- A key is no other than that of a name in the innermost scope, unless it is of that name in that scope. -/
theorem key_ne (hP : P ≠ "") (hy : VarName y) (hz : VarName z)
    (hne : P ≠ l.path ∨ y ≠ z) : qualify P y ≠ qualify l.path z := by
  intro he
  obtain ⟨hp, hyz⟩ := qualify_inj hP (h.head_ne_empty l (.head _)) hy hz he
  exact hne.elim (· hp) (· hyz)

theorem outer_ne : ∀ l' ∈ levels, l'.path ≠ l.path :=
  fun _ hl => h.nested.ne_outer _ (mem_map_of_mem hl)

theorem later_ne (P : String) {k : Nat} (hk : n ≤ k) : freshIn P "b" k ≠ l.path := by
  intro he
  have hm : freshIn P "b" k ∈ (l :: levels).map Level.path := he ▸ mem_map_of_mem (.head _)
  exact Nat.not_lt.mpr hk (h.nested.number_lt hm)

theorem lookup?_other (hz : VarName z) (hP : P ≠ "") (hy : VarName y)
    (hne : P ≠ l.path ∨ y ≠ z) :
    (t.add (qualify l.path z) sym).lookup? (qualify P y) = t.lookup? (qualify P y) := by
  rw [lookup?_add, if_neg (h.key_ne hP hy hz hne)]

theorem lookup?_word {y z : String} (hy : VarName y) :
    (t.add (qualify l.path z) sym).lookup? y = t.lookup? y := by
  rw [lookup?_add, if_neg (qualify_ne_word (h.head_ne_empty l mem_cons_self) hy)]

/-- A declaration is seen from its level on. -/
theorem declare (hV : ∀ x, V.name x → IsWord x) (hx : V.name x) (hb : x ≠ "_")
    (a : Var) (v : Option Value) :
    Named V t0 n (⟨l.path, l.layer.set x a⟩ :: levels) (t.add (qualify l.path x) (a.symbol v)) := by
  have hxw : VarName x := .inl (hV x hx)
  have hp := h.head_ne_empty
  refine ⟨h.nested, fun l' hl y b hy => ?_, fun l' hl y hy hn => ?_, fun y hy hm => ?_, fun w hw hv => ?_,
    fun l' hl hm y hy hv ht => ?_, fun P k y hk hy => ?_⟩
  · rcases mem_cons.mp hl with rfl | hl
    · by_cases he : y = x
      · subst he
        cases (set_self ..).symm.trans hy
        exact ⟨hx, hb, v, by rw [lookup?_add, if_pos rfl]⟩
      · have hy : l.layer y = some b := (set_of_ne he ..).symm.trans hy
        obtain ⟨hv, hb', v', hs⟩ := h.held l (.head _) y b hy
        exact ⟨hv, hb', v', (h.lookup?_other hxw (hp l (.head _)) (.inl (hV y hv)) (.inr he)).trans hs⟩
    · obtain ⟨hv, hb', v', hs⟩ := h.held l' (.tail _ hl) y b hy
      exact ⟨hv, hb', v', (h.lookup?_other hxw (hp l' (.tail _ hl)) (.inl (hV y hv))
        (.inl (h.outer_ne l' hl))).trans hs⟩
  · rcases mem_cons.mp hl with rfl | hl
    · by_cases he : y = x
      · subst he
        cases (set_self ..).symm.trans hn
      · have hn : l.layer y = none := (set_of_ne he ..).symm.trans hn
        rw [h.lookup?_other hxw (hp l mem_cons_self) (.inl (hV y hy)) (.inr he)]
        exact h.free l (.head _) y hy hn
    · rw [h.lookup?_other hxw (hp l' (mem_cons_of_mem _ hl)) (.inl (hV y hy)) (.inl (h.outer_ne l' hl))]
      exact h.free l' (.tail _ hl) y hy hn
  · rw [h.lookup?_word (.inl (hV y hy))]
    refine h.root y hy fun l' hl hmain => ?_
    rcases mem_cons.mp hl with rfl | hl
    · have hset := hm _ (.head _) hmain
      by_cases he : y = x
      · subst he
        cases (set_self ..).symm.trans hset
      · exact (set_of_ne he ..).symm.trans hset
    · exact hm l' (.tail _ hl) hmain
  · have hwx : w ≠ x := fun he => hv (he ▸ hx)
    rw [h.lookup?_word (.inl hw), h.lookup?_other hxw (by decide) (.inl hw) (.inr hwx)]
    exact h.words w hw hv
  · have hyx : y ≠ x := fun he => hv (he ▸ hx)
    rcases mem_cons.mp hl with rfl | hl
    · rw [h.lookup?_other hxw (hp l mem_cons_self) hy (.inr hyx)]
      exact h.inner l (.head _) hm y hy hv ht
    · rw [h.lookup?_other hxw (hp l' (mem_cons_of_mem _ hl)) hy (.inr hyx)]
      exact h.inner l' (.tail _ hl) hm y hy hv ht
  · rw [h.lookup?_other hxw freshIn_ne_empty hy (.inl (h.later_ne P hk))]
    exact h.later P k y hk hy

/-- A tag's name hides no variable. -/
theorem declareTag (hV : ∀ x, V.name x → IsWord x) {k : Nat} (hk : k < n)
    (sym : Symbol) : Named V t0 n (l :: levels) (t.add (qualify l.path (tagName k)) sym) := by
  have hp := h.head_ne_empty
  have hk' := varName_tagName k
  have htag {w : String} (hw : IsWord w) : w ≠ tagName k := hw.ne_fresh (fresh_tagName k)
  refine ⟨h.nested, fun l' hl y b hy => ?_, fun l' hl y hy hn => ?_, fun y hy hm => ?_, fun w hw hv => ?_,
    fun l' hl hm y hy hv ht => ?_, fun P j y hj hy => ?_⟩
  · obtain ⟨hv, hb, v, hs⟩ := h.held l' hl y b hy
    exact ⟨hv, hb, v, (h.lookup?_other hk' (hp l' hl) (.inl (hV y hv)) (.inr (htag (hV y hv)))).trans hs⟩
  · rw [h.lookup?_other hk' (hp l' hl) (.inl (hV y hy)) (.inr (htag (hV y hy)))]
    exact h.free l' hl y hy hn
  · rw [h.lookup?_word (.inl (hV y hy))]
    exact h.root y hy hm
  · rw [h.lookup?_word (.inl hw), h.lookup?_other hk' (by decide) (.inl hw) (.inr (htag hw))]
    exact h.words w hw hv
  · rw [h.lookup?_other hk' (hp l' hl) hy (.inr (ht k hk))]
    exact h.inner l' hl hm y hy hv ht
  · rw [h.lookup?_other hk' freshIn_ne_empty hy (.inl (h.later_ne P hj))]
    exact h.later P j y hj hy

/-! ## Resolution -/

/-- A name is looked up level by level. -/
theorem resolve_eq (y : String) : t.resolve? y l.path =
    ((l :: levels).findSome? fun l' => (t.lookup? (qualify l'.path y)).map (qualify l'.path y, ·)).or
      ((t.lookup? y).map (y, ·)) := by
  have he : enclosing l.path = (l :: levels).map Level.path ++ [""] := h.nested.enclosing_eq
  unfold resolve?
  rw [he, findSome?_append, findSome?_map, findSome?_singleton]
  rfl

omit h

theorem find_cons_some (h : L x = some a) : find (L :: Γ) x = some a := by
  simp [find, h]

theorem find_cons_none (h : L x = none) : find (L :: Γ) x = find Γ x := by
  simp [find, h]

/-- The innermost variable of a name is found in the scopes of the levels. -/
theorem findSome_var (held : ∀ l ∈ levels, ∀ x a, l.layer x = some a →
      V.name x ∧ x ≠ "_" ∧ ∃ v, t.lookup? (qualify l.path x) = some (a.symbol v))
    (free : ∀ l ∈ levels, ∀ x, V.name x → l.layer x = none → t.lookup? (qualify l.path x) = none)
    (ha : find (levels.map Level.layer) x = some a) : V.name x ∧ x ≠ "_" ∧ ∃ key v,
      (levels.findSome? fun l => (t.lookup? (qualify l.path x)).map (qualify l.path x, ·)) =
      some (key, a.symbol v) := by
  induction levels with
  | nil => cases ha
  | cons l levels ih =>
    cases hl : l.layer x with
    | some b =>
      rw [map_cons, find_cons_some hl] at ha
      cases ha
      obtain ⟨hv, hb, v, hs⟩ := held l (.head _) x a hl
      exact ⟨hv, hb, qualify l.path x, v, by rw [findSome?_cons, hs]; rfl⟩
    | none =>
      rw [map_cons, find_cons_none hl] at ha
      obtain ⟨hv, hb, key, v, hs⟩ := ih (fun l hl => held l (.tail _ hl))
        (fun l hl => free l (.tail _ hl)) ha
      refine ⟨hv, hb, key, v, ?_⟩
      rw [findSome?_cons, free l mem_cons_self x hv hl]
      exact hs

include h

/-- A variable resolves to its slot. -/
theorem resolve_var (ha : find ((l :: levels).map Level.layer) x = some a) :
    V.name x ∧ x ≠ "_" ∧ ∃ key v, t.resolve? x l.path = some (key, a.symbol v) := by
  obtain ⟨hv, hb, key, v, hs⟩ := findSome_var h.held h.free ha
  refine ⟨hv, hb, key, v, ?_⟩
  rw [h.resolve_eq, hs]
  rfl

theorem resolve_none (hx : V.name x)
    (ha : find ((l :: levels).map Level.layer) x = none) : t.resolve? x l.path = none := by
  have hnone : ∀ l' ∈ l :: levels, l'.layer x = none := by
    intro l' hl
    exact findSome?_eq_none_iff.mp ha _ (mem_map_of_mem hl)
  rw [h.resolve_eq, h.root x hx fun l' hl _ => hnone l' hl]
  rw [findSome?_eq_none_iff.mpr fun l' hl => ?_]
  · rfl
  · rw [h.free l' hl x hx (hnone l' hl)]
    rfl

omit h

/-- In the scopes of blocks only names of the lexicon mean something, so a word is looked up in that of the chunk. -/
theorem findSome_word (hn : Nested n (levels.map Level.path))
    (inner : ∀ l ∈ levels, l.path ≠ mainScope → t.lookup? (qualify l.path w) = none) :
    (levels.findSome? fun l => (t.lookup? (qualify l.path w)).map (qualify l.path w, ·)) =
      (t.lookup? (qualify mainScope w)).map (qualify mainScope w, ·) := by
  induction levels with
  | nil => cases hn
  | cons l levels ih =>
    cases levels with
    | nil =>
      obtain ⟨path, layer⟩ := l
      have hpath : path = mainScope := by
        cases hn with
        | main => rfl
      subst hpath
      rw [findSome?_singleton]
    | cons l' levels =>
      rw [findSome?_cons, inner l mem_cons_self hn.ne_main]
      exact ih hn.outer fun l hl => inner l (.tail _ hl)

include h

/-- A word that is no variable means what it meant before. -/
theorem resolve_word (hw : IsWord w) (hv : ¬V.name w) :
    t.resolve? w l.path = t0.resolve? w mainScope := by
  have hm : enclosing mainScope = [mainScope] ++ [""] := (Nested.main (n := 0)).enclosing_eq
  have htag : ∀ k < n, w ≠ tagName k := fun k _ => hw.ne_fresh (fresh_tagName k)
  obtain ⟨hr, hmain⟩ := h.words w hw hv
  rw [h.resolve_eq, findSome_word h.nested fun l' hl hp => h.inner l' hl hp w (.inl hw) hv htag, hr, hmain]
  unfold resolve?
  rw [hm, findSome?_append, findSome?_singleton, findSome?_singleton]
  rfl

theorem resolve_head {y : String}
    (hs : t.lookup? (qualify l.path y) = some sym) : t.resolve? y l.path = some (qualify l.path y, sym) := by
  rw [h.resolve_eq, findSome?_cons, hs]
  rfl

end Named

end Goblet
