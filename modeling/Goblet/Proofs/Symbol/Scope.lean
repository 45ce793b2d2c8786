import Mathlib.Data.List.Induction
import Goblet.Proofs.Symbol

/-!
# Scopes are lexical

A path of parts makes a scope (`SymbolTable.scopeAt`), and the scopes around it are those of its shorter paths. So a
name means what it is bound to under the longest path that binds it, and what is bound in a scope that is not around
does not matter (`SymbolTable.resolve?_lexical`). Keys are texts: that two scopes share no key rests on `slash_split`.
-/

namespace Goblet

open List

namespace SymbolTable

theorem outward_append {cs ds : List Char} (hc : '/' ∉ cs) :
    outward (cs ++ '/' :: ds) = if ds.isEmpty then [""] else String.ofList ds.reverse :: outward ds := by
  induction cs with
  | nil => simp [outward]
  | cons c cs ih =>
    have hc' : c ≠ '/' := fun h => hc (h ▸ (.head _))
    rw [cons_append, outward, if_neg hc']
    exact ih fun h => hc (.tail _ h)

variable {P y : String}

theorem enclosing_append (hy : '/' ∉ y.toList) : enclosing (P ++ "/" ++ y) = (P ++ "/" ++ y) :: enclosing P := by
  have hr : (P ++ "/" ++ y).toList.reverse = y.toList.reverse ++ '/' :: P.toList.reverse := by
    simp [String.toList_append]
  unfold enclosing
  rw [if_neg (by simp), hr, outward_append (by simpa using hy)]
  by_cases hP : P = ""
  · subst hP
    rfl
  · simp [hP]

theorem enclosing_part (hy : '/' ∉ y.toList) (hne : y ≠ "") : enclosing y = [y, ""] := by
  have hout : ∀ cs : List Char, '/' ∉ cs → outward cs = [""] := by
    intro cs hc
    induction cs with
    | nil => rfl
    | cons c cs ih =>
      rw [mem_cons, not_or] at hc
      rw [outward, if_neg (Ne.symm hc.1), ih hc.2]
  simp [enclosing, hne, hout _ fun hm => hy (mem_reverse.mp hm)]

/-- The scope of a path; that of the path without parts is the universe. -/
def scopeAt (path : List String) : String := Text.joined "/" path

/-- Parts of a path. -/
def Parts (path : List String) : Prop := ∀ c ∈ path, c ≠ "" ∧ IsPart c

variable {path q : List String} {c name scope : String} {t : SymbolTable}

theorem Parts.init (h : Parts (path ++ [c])) : Parts path := fun d hd => h d (mem_append_left _ hd)

theorem Parts.last (h : Parts (path ++ [c])) : c ≠ "" ∧ IsPart c := h c (mem_append_right _ (.head _))

theorem scopeAt_append (hp : path ≠ []) (c : String) : scopeAt (path ++ [c]) = scopeAt path ++ "/" ++ c := by
  rw [scopeAt, Text.joined, String.intercalate_append_of_ne_nil hp (by simp)]
  rfl

theorem enclosing_scopeAt (h : Parts (path ++ [c])) :
    enclosing (scopeAt (path ++ [c])) = scopeAt (path ++ [c]) :: enclosing (scopeAt path) := by
  by_cases hp : path = []
  · subst hp
    exact enclosing_part h.last.2 h.last.1
  · rw [scopeAt_append hp]
    exact enclosing_append h.last.2

theorem resolve?_scopeAt (h : Parts (path ++ [c])) (t : SymbolTable) (name : String) :
    t.resolve? name (scopeAt (path ++ [c])) =
      match t.lookup? (qualify (scopeAt (path ++ [c])) name) with
      | some s => some (qualify (scopeAt (path ++ [c])) name, s)
      | none => t.resolve? name (scopeAt path) := by
  rw [resolve?, enclosing_scopeAt h, findSome?_cons]
  cases t.lookup? (qualify (scopeAt (path ++ [c])) name) <;> rfl

theorem resolve?_universe (t : SymbolTable) (name : String) :
    t.resolve? name (scopeAt []) = (t.lookup? (qualify (scopeAt []) name)).map (qualify (scopeAt []) name, ·) := by
  simp [resolve?, scopeAt, Text.joined, enclosing]

/-- The longest path around that binds a name. -/
structure Nearest (t : SymbolTable) (name : String) (path q : List String) (s : Symbol) : Prop where
  around : q <+: path
  bound : t.lookup? (qualify (scopeAt q) name) = some s
  longest : ∀ r, r <+: path → q.length < r.length → t.lookup? (qualify (scopeAt r) name) = none

theorem Nearest.resolve? (h : Parts path) {s : Symbol} (hq : Nearest t name path q s) :
    t.resolve? name (scopeAt path) = some (qualify (scopeAt q) name, s) := by
  induction path using List.reverseRecOn with
  | nil =>
    obtain rfl := prefix_nil.mp hq.around
    rw [resolve?_universe, hq.bound]
    rfl
  | append_singleton path c ih =>
    rw [resolve?_scopeAt h]
    rcases prefix_concat_iff.mp hq.around with rfl | hpre
    · rw [hq.bound]
    · have hnone := hq.longest _ (prefix_refl _) (by simpa using Nat.lt_succ_of_le hpre.length_le)
      rw [hnone]
      exact ih h.init ⟨hpre, hq.bound, fun r hr => hq.longest r (hr.trans (prefix_append _ _))⟩

theorem resolve?_eq_none (h : Parts path) :
    t.resolve? name (scopeAt path) = none ↔ ∀ q, q <+: path → t.lookup? (qualify (scopeAt q) name) = none := by
  induction path using List.reverseRecOn with
  | nil => simp [resolve?_universe]
  | append_singleton path c ih =>
    simp only [resolve?_scopeAt h, prefix_concat_iff, forall_eq_or_imp, ← ih h.init]
    cases t.lookup? (qualify (scopeAt (path ++ [c])) name) <;> simp

theorem resolve?_congr {u : SymbolTable} (h : Parts path)
    (he : ∀ q, q <+: path → t.lookup? (qualify (scopeAt q) name) = u.lookup? (qualify (scopeAt q) name)) :
    t.resolve? name (scopeAt path) = u.resolve? name (scopeAt path) := by
  induction path using List.reverseRecOn with
  | nil => rw [resolve?_universe, resolve?_universe, he [] (prefix_refl _)]
  | append_singleton path c ih =>
    rw [resolve?_scopeAt h, resolve?_scopeAt h, he _ (prefix_refl _), ih h.init fun q hq =>
      he q (hq.trans (prefix_append _ _))]

/-- What stands before a slash in the scope of a path is a scope around. -/
theorem around_of_slash (h : Parts (path ++ [c])) {d : String} (he : scopeAt (path ++ [c]) = scope ++ "/" ++ d) :
    ∃ q, q <+: path ∧ scope = scopeAt q := by
  induction path using List.reverseRecOn generalizing c d with
  | nil => exact absurd (by rw [show c = _ from he]; simp) h.last.2
  | append_singleton path b ih =>
    rw [scopeAt_append (by simp)] at he
    rcases slash_split he h.last.2 with rfl | ⟨r, hr⟩
    · exact ⟨_, prefix_refl _, rfl⟩
    · obtain ⟨q, hq, rfl⟩ := ih h.init hr
      exact ⟨q, hq.trans (prefix_append _ _), rfl⟩

theorem qualify_scopeAt (h : Parts path) (name : String) : qualify (scopeAt path) name = scopeAt (path ++ [name]) := by
  by_cases hp : path = []
  · subst hp
    rfl
  · rw [scopeAt_append hp, qualify_eq]
    obtain ⟨q, c, rfl⟩ := (eq_nil_or_concat path).resolve_left hp
    rw [concat_eq_append] at h ⊢
    by_cases hq : q = []
    · subst hq
      exact h.last.1
    · rw [scopeAt_append hq]
      simp

/-- **A name means what the longest path around binds it to**, the universe last, and nothing where none does. What is
bound in a scope that is not around, or a label there, changes nothing. -/
theorem resolve?_lexical (t : SymbolTable) (h : Parts path) (hn : name ≠ "" ∧ IsPart name) :
    (∀ q s, Nearest t name path q s → t.resolve? name (scopeAt path) = some (qualify (scopeAt q) name, s)) ∧
      (t.resolve? name (scopeAt path) = none ↔ ∀ q, q <+: path → t.lookup? (qualify (scopeAt q) name) = none) ∧
      ∀ scope, (∀ q, q <+: path → scope ≠ scopeAt q) → ∀ m,
        (∀ s, (t.add (qualify scope m) s).resolve? name (scopeAt path) = t.resolve? name (scopeAt path)) ∧
          ∀ i, (t.addLabel (qualify scope m) i).resolve? name (scopeAt path) = t.resolve? name (scopeAt path) := by
  refine ⟨fun q s hq => hq.resolve? h, resolve?_eq_none h, fun scope hs m => ?_⟩
  have hs0 : scope ≠ "" := hs [] nil_prefix
  have hadd (d : String) (s : Symbol) :
      (t.add (scope ++ "/" ++ d) s).resolve? name (scopeAt path) = t.resolve? name (scopeAt path) := by
    refine resolve?_congr h fun q hq => ?_
    have hqn : Parts (q ++ [name]) := forall_mem_append.mpr ⟨fun c hc => h c (hq.subset hc), by simpa using hn⟩
    rw [lookup?_add, if_neg]
    intro he
    rw [qualify_scopeAt hqn.init] at he
    obtain ⟨r, hr, rfl⟩ := around_of_slash hqn he
    exact hs r (hr.trans hq) rfl
  rw [qualify_eq hs0]
  exact ⟨hadd m, fun i => by rw [addLabel, labelKey, String.append_assoc]; exact hadd _ _⟩

/-- From a block in `main/f`, the variable of the function is found before that of the chunk, and a label in another
function does not matter. -/
theorem resolve?_lexical_block :
    let t := (SymbolTable.empty.add "main/x" ⟨.var, .global 0, .int, none⟩).add "main/f/x" ⟨.var, .global 1, .int, none⟩
    Parts ["main", "f", "#b3"] ∧ t.resolve? "x" "main/f/#b3" = some ("main/f/x", ⟨.var, .global 1, .int, none⟩) ∧
      (t.addLabel "main/g/x" 7).resolve? "x" "main/f/#b3" = t.resolve? "x" "main/f/#b3" := by
  intro t
  have h : Parts ["main", "f", "#b3"] := by simp [Parts, IsPart]
  have hx : "x" ≠ "" ∧ IsPart "x" := by simp [IsPart]
  obtain ⟨hnear, -, hother⟩ := resolve?_lexical t h hx
  refine ⟨h, hnear ["main", "f"] _ ⟨⟨["#b3"], rfl⟩, rfl, fun r hr hl => ?_⟩, (hother "main/g" (fun q hq => ?_) "x").2 7⟩
  · obtain rfl := hr.eq_of_length (Nat.le_antisymm hr.length_le hl)
    rfl
  · simp only [prefix_cons_iff, prefix_nil] at hq
    obtain rfl | ⟨_, rfl, rfl | ⟨_, rfl, rfl | ⟨_, rfl, rfl⟩⟩⟩ := hq <;> decide

end SymbolTable

end Goblet
