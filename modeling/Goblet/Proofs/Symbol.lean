import Goblet.Symbol
import Goblet.Stream.Context
import Goblet.Proofs.Token.Words

/-!
# Keys of symbols

What a symbol table means after a change (`lookup?_add`, `lookup?_modify`), and the shapes of the keys that names get.
A key is a path; its last part is a word, or a fresh name such as `#lit7` (`Fresh`). Variables at the top level stand
under the scope of a chunk or of a block (`GlobalKey`), functions directly under the scope of a chunk or under a fresh
name (`FuncKey`). The parameters of a function have keys of neither shape (`FuncKey.param`).
-/

namespace Goblet

open List

variable {name tag n : String} {c : Char} {key : String} {scope : String}

namespace SymbolTable

variable {t : SymbolTable} {key : String} {s : Symbol}
variable {f : Symbol → Symbol}

theorem labelKey_inj {l m : String} (h : labelKey l = labelKey m) : l = m := by
  have h := congrArg String.toList h
  simp only [labelKey, String.toList_append] at h
  exact String.toList_inj.mp (append_cancel_right h)

theorem qualify_eq (h : scope ≠ "") (name : String) : qualify scope name = scope ++ "/" ++ name :=
  if_neg fun he => h (String.isEmpty_iff.mp he)

theorem lookup?_add (t : SymbolTable) (key : String) (s : Symbol) (k : String) :
    (t.add key s).lookup? k = if k = key then some s else t.lookup? k := by
  unfold add lookup?
  rw [lookup_cons]
  by_cases h : k = key
  · simp [h]
  · rw [if_neg h, beq_eq_false_iff_ne.mpr h]
    -- what is dropped has the key that is not looked for
    change (t.entries.filter (·.1 ≠ key)).lookup k = t.entries.lookup k
    induction t.entries with
    | nil => rfl
    | cons e es ih =>
      obtain ⟨ek, es'⟩ := e
      by_cases he : ek = key
      · rw [filter_cons_of_neg (by simp [he]), ih, lookup_cons, beq_eq_false_iff_ne.mpr (he ▸ h)]
      · rw [filter_cons_of_pos (by simp [he]), lookup_cons, lookup_cons, ih]

theorem lookup?_modify (t : SymbolTable) (key : String) (f : Symbol → Symbol) (k : String) :
    (t.modify key f).lookup? k = if k = key then (t.lookup? k).map f else t.lookup? k := by
  unfold modify lookup?
  induction t.entries with
  | nil => simp
  | cons e es ih =>
    obtain ⟨ek, sym⟩ := e
    rw [map_cons, lookup_cons]
    by_cases he : ek = key <;> by_cases hk : k = ek
    · subst he; subst hk; simp
    · rw [if_pos he, lookup_cons, beq_eq_false_iff_ne.mpr hk]; exact ih
    · subst hk; simp [he]
    · rw [if_neg he, lookup_cons, beq_eq_false_iff_ne.mpr hk]; exact ih

theorem lookup?_modify_of (h : t.lookup? key = some s) (k : String) :
    (t.modify key f).lookup? k = if k = key then some (f s) else t.lookup? k := by
  rw [lookup?_modify]
  split
  · subst k; rw [h]; rfl
  · rfl

theorem modify_of_absent (h : t.lookup? key = none) : t.modify key f = t := by
  have hkeys : ∀ e ∈ t.entries, e.1 ≠ key := by
    intro e he hk
    have := lookup_eq_none_iff.mp h e he
    simp [hk] at this
  unfold modify
  rw [map_congr_left fun e he => if_neg (hkeys e he), map_id']

/-- No key stands twice. -/
def Nodup (t : SymbolTable) : Prop := (t.entries.map (·.1)).Nodup

theorem Nodup.add (h : t.Nodup) : (t.add key s).Nodup := by
  unfold Nodup SymbolTable.add
  rw [map_cons, nodup_cons]
  refine ⟨fun hm => ?_, (List.Sublist.map _ filter_sublist).nodup h⟩
  obtain ⟨e, he, hk⟩ := mem_map.mp hm
  simp [hk] at he

theorem Nodup.modify (h : t.Nodup) : (t.modify key f).Nodup := by
  have hk : (t.modify key f).entries.map (·.1) = t.entries.map (·.1) := by
    unfold SymbolTable.modify
    rw [map_map]
    exact map_congr_left fun e _ => by dsimp only [Function.comp]; split <;> rfl
  unfold Nodup
  rw [hk]
  exact h

theorem mem_entries_of_lookup? (h : t.lookup? key = some s) : (key, s) ∈ t.entries := by
  obtain ⟨l, r, hl, -⟩ := lookup_eq_some_iff.mp h
  rw [hl]
  exact mem_append_right _ mem_cons_self

theorem lookup?_of_mem_entries (hn : t.Nodup) (h : (key, s) ∈ t.entries) : t.lookup? key = some s := by
  obtain ⟨entries⟩ := t
  unfold lookup?
  unfold Nodup at hn
  induction entries with
  | nil => cases h
  | cons e es ih =>
    rw [map_cons, nodup_cons] at hn
    obtain ⟨ek, es'⟩ := e
    rw [lookup_cons]
    rcases mem_cons.mp h with h | h
    · cases h; simp
    · have hk : key ≠ ek := fun hk => hn.1 (mem_map.mpr ⟨_, h, hk⟩)
      rw [beq_eq_false_iff_ne.mpr hk]
      exact ih hn.2 h

end SymbolTable

/-! ## Parts of keys -/

/-- A path that ends with a part, taken at an earlier slash. -/
theorem slash_split {a b c d : String} (h : a ++ "/" ++ b = c ++ "/" ++ d) (hb : '/' ∉ b.toList) :
    c = a ∨ ∃ r, a = c ++ "/" ++ r := by
  have h' : a.toList ++ '/' :: b.toList = c.toList ++ '/' :: d.toList := by
    simpa [String.toList_append] using congrArg String.toList h
  rcases append_eq_append_iff.mp h' with ⟨m, h1, h2⟩ | ⟨m, h1, h2⟩
  · cases m with
    | nil => exact .inl (String.toList_inj.mp (by simpa using h1))
    | cons x m =>
      rw [cons_append, List.cons.injEq] at h2
      exact absurd (by rw [h2.2]; simp) hb
  · cases m with
    | nil => exact .inl (String.toList_inj.mp (by simpa using h1.symm))
    | cons x m =>
      obtain ⟨rfl, -⟩ := List.cons.inj h2
      exact .inr ⟨String.ofList m, String.toList_inj.mp (by simp [h1, String.toList_append])⟩

/-- The last part of a path, and what stands before it, are determined by the path. -/
theorem last_part_inj {a b c d : String} (h : a ++ "/" ++ b = c ++ "/" ++ d) (hb : '/' ∉ b.toList)
    (hd : '/' ∉ d.toList) : a = c ∧ b = d := by
  have hl := congrArg String.toList h
  rcases slash_split h hb with rfl | ⟨r, rfl⟩ <;> simp only [String.toList_append, append_assoc, append_cancel_left_eq]
    at hl
  · exact ⟨rfl, String.toList_inj.mp hl⟩
  · exact absurd (by rw [← hl]; simp) hd

theorem isDigit_of_mem_toString {n : Nat} (h : c ∈ (toString n).toList) : c.isDigit := by
  change c ∈ n.repr.toList at h
  rw [Nat.toList_repr] at h
  exact Nat.isDigit_of_mem_toDigits (by decide) (by decide) h

theorem toString_inj {j k : Nat} (h : (toString j).toList = (toString k).toList) : j = k := by
  rw [Nat.toString_eq_repr, Nat.toString_eq_repr, Nat.toList_repr, Nat.toList_repr] at h
  rw [← Nat.ofDigitChars_ten_toDigits (n := j), h, Nat.ofDigitChars_ten_toDigits]

/-- A fresh name with a tag, such as `#x12`. -/
def Fresh (tag name : String) : Prop := ∃ k : Nat, name = "#" ++ tag ++ toString k

theorem Fresh.notMem (h : Fresh tag name) (hc : c.isDigit = false) (h' : c ≠ '#')
    (ht : c ∉ tag.toList) : c ∉ name.toList := by
  obtain ⟨k, rfl⟩ := h
  simp only [String.toList_append, mem_append, not_or]
  refine ⟨⟨by simpa using h', ht⟩, fun hm => ?_⟩
  rw [isDigit_of_mem_toString hm] at hc
  exact absurd hc (by decide)

theorem Fresh.ends (h : Fresh tag name) (scope : String) :
    ∃ d, (scope ++ "/" ++ name).toList.getLast? = some d ∧ d.isDigit := by
  obtain ⟨k, rfl⟩ := h
  cases hk : (toString k).toList.getLast? with
  | none =>
    rw [getLast?_eq_none_iff] at hk
    exact absurd (String.toList_eq_nil_iff.mp hk) Nat.repr_ne_empty
  | some d =>
    refine ⟨d, ?_, isDigit_of_mem_toString (mem_of_getLast? hk)⟩
    rw [String.toList_append, String.toList_append (s := "#" ++ tag), getLast?_append, getLast?_append, hk]
    rfl

theorem Fresh.ne {tag' name' : String} (h : Fresh tag name) (h' : Fresh tag' name') {d : Char}
    (hc : tag.toList.head? = some c) (hd : tag'.toList.head? = some d) (hcd : c ≠ d) : name ≠ name' := by
  obtain ⟨k, rfl⟩ := h
  obtain ⟨k', rfl⟩ := h'
  intro he
  have he : tag.toList ++ (toString k).toList = tag'.toList ++ (toString k').toList := by
    simpa [String.toList_append] using congrArg String.toList he
  have hh := congrArg List.head? he
  rw [head?_append, head?_append, hc, hd] at hh
  exact hcd (Option.some.inj hh)

theorem IsWord.ne_fresh {w : String} (h : IsWord w) (h' : Fresh tag name) : w ≠ name := by
  rintro rfl
  obtain ⟨k, rfl⟩ := h'
  exact h.notMem (d := '#') (by decide) (by simp [String.toList_append])

/-! ## Shapes of keys -/

/-- The names that variables, types and parameters have: words, and the fresh names of switch tags. -/
def VarName (n : String) : Prop := IsWord n ∨ Fresh "tag" n

theorem VarName.noSlash (h : VarName n) : '/' ∉ n.toList := by
  rcases h with h | h
  · exact h.notMem (by decide)
  · exact h.notMem (by decide) (by decide) (by decide)

/-- A name that stands between two slashes of a path. -/
def IsPart (name : String) : Prop := '/' ∉ name.toList

theorem VarName.isPart (h : VarName n) : IsPart n := h.noSlash

theorem Fresh.noSlash_lit (h : Fresh "lit" n) : '/' ∉ n.toList :=
  h.notMem (by decide) (by decide) (by decide)

theorem Fresh.noSlash_block (h : Fresh "b" n) : '/' ∉ n.toList :=
  h.notMem (by decide) (by decide) (by decide)

theorem VarName.ne_lit {m : String} (h : VarName n) (h' : Fresh "lit" m) : n ≠ m := by
  rcases h with h | h
  · exact h.ne_fresh h'
  · exact h.ne h' rfl rfl (by decide)

/-- The key of a function literal. -/
def LitKey (key : String) : Prop := ∃ scope n, Fresh "lit" n ∧ key = scope ++ "/" ++ n

/-- The key of a function. -/
def FuncKey (key : String) : Prop := LitKey key ∨ ∃ n, IsWord n ∧ key = Place.mainScope ++ "/" ++ n

/-- A scope at the top level, or of a block. -/
def VarScope (scope : String) : Prop := scope = Place.mainScope ∨ ∃ outer n, Fresh "b" n ∧ scope = outer ++ "/" ++ n

/-- The key of a variable in such a scope. -/
def GlobalKey (key : String) : Prop := ∃ scope n, VarScope scope ∧ VarName n ∧ key = scope ++ "/" ++ n

theorem LitKey.ne_var (h : VarName n) : ¬LitKey (scope ++ "/" ++ n) := by
  rintro ⟨scope', m, hm, he⟩
  exact h.ne_lit hm (last_part_inj he h.noSlash hm.noSlash_lit).2

theorem LitKey.ne_label : ¬LitKey (SymbolTable.labelKey name) := by
  rintro ⟨scope, n, hn, he⟩
  obtain ⟨d, hd, hdigit⟩ := hn.ends scope
  rw [← he, SymbolTable.labelKey, String.toList_append, getLast?_append] at hd
  cases hd
  exact absurd hdigit (by decide)

theorem FuncKey.ne_main (h : FuncKey key) : key ≠ Place.mainScope := by
  rintro rfl
  rcases h with ⟨_, _, _, h⟩ | ⟨_, _, h⟩ <;>
    · have := congrArg (fun s => '/' ∈ s.toList) h
      simp [String.toList_append, Place.mainScope] at this

theorem FuncKey.not_block {sc : String} (hn : Fresh "b" n) : ¬FuncKey (sc ++ "/" ++ n) := by
  rintro (⟨scope, m, hm, he⟩ | ⟨w, hw, he⟩)
  · exact hm.ne hn rfl rfl (by decide) (last_part_inj he hn.noSlash_block hm.noSlash_lit).2.symm
  · exact hw.ne_fresh hn (last_part_inj he hn.noSlash_block (hw.notMem (by decide))).2.symm

/-- A parameter has the key of neither a variable at the top level nor a function. -/
theorem FuncKey.param (h : FuncKey key) (hn : VarName n) :
    ¬GlobalKey (key ++ "/" ++ n) ∧ ¬FuncKey (key ++ "/" ++ n) := by
  constructor
  · rintro ⟨scope, m, hs, hm, he⟩
    obtain ⟨rfl, rfl⟩ := last_part_inj he hn.noSlash hm.noSlash
    rcases hs with hs | ⟨outer, b, hb, hs⟩
    · exact h.ne_main hs
    · exact not_block hb (hs ▸ h)
  · rintro (hl | ⟨w, hw, he⟩)
    · exact LitKey.ne_var hn hl
    · exact h.ne_main (last_part_inj he hn.noSlash (hw.notMem (by decide))).1

end Goblet
