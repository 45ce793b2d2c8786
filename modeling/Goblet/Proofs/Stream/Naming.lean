import Goblet.Proofs.Stream.Phrase

/-!
# Names that shaping makes

A name in a stream is a path, and the parts of it that shaping has made are a `#`, a tag and a number (`Bears`).

`Drawn known own lo hi steps` says where the made names in `steps` come from: they are `known` around the steps, or
their numbers lie from `lo` on and below `hi` and each of these numbers has one tag. A made label stands at most once in
the steps, unless it is one of `own`, which are labels that are made before. Steps put one after the other are drawn
from both (`Drawn.append`), and names that were known only because they had just been made are drawn too
(`Drawn.close`).
-/

namespace Goblet

open List

/-! ## Paths -/

/-- The parts of a path, which stand between slashes. -/
def pathParts : List Char → List (List Char)
  | [] => [[]]
  | c :: cs =>
    if c = '/' then [] :: pathParts cs
    else (c :: (pathParts cs).headD []) :: (pathParts cs).tail

theorem pathParts_ne_nil : ∀ cs : List Char, pathParts cs ≠ []
  | [] => by simp [pathParts]
  | c :: cs => by
    unfold pathParts
    split <;> simp

theorem pathParts_append : ∀ a b : List Char, pathParts (a ++ '/' :: b) = pathParts a ++ pathParts b
  | [], b => by simp [pathParts]
  | c :: a, b => by
    rw [cons_append, pathParts, pathParts, pathParts_append a b]
    obtain ⟨part, parts, h⟩ := exists_cons_of_ne_nil (pathParts_ne_nil a)
    split <;> simp [h]

theorem pathParts_append_of_notMem {s : List Char} (hs : '/' ∉ s) : ∀ a : List Char,
    ∃ parts part, pathParts a = parts ++ [part] ∧ pathParts (a ++ s) = parts ++ [part ++ s]
  | [] => by
    refine ⟨[], [], rfl, ?_⟩
    induction s with
    | nil => rfl
    | cons c s ih =>
      rw [mem_cons, not_or] at hs
      rw [nil_append, pathParts, if_neg (Ne.symm hs.1), ← nil_append s, ih hs.2]
      rfl
  | c :: a => by
    obtain ⟨parts, part, h, h'⟩ := pathParts_append_of_notMem hs a
    rw [cons_append, pathParts, pathParts, h, h']
    split
    · exact ⟨[] :: parts, part, rfl, rfl⟩
    · cases parts with
      | nil => exact ⟨[], c :: part, rfl, rfl⟩
      | cons q parts => exact ⟨(c :: q) :: parts, part, rfl, rfl⟩

theorem pathParts_of_notMem {s : List Char} (hs : '/' ∉ s) : pathParts s = [s] := by
  obtain ⟨parts, part, h, h'⟩ := pathParts_append_of_notMem hs []
  cases parts with
  | nil =>
    cases h
    exact h'
  | cons q parts => cases parts <;> cases h

theorem mem_of_mem_pathParts : ∀ {cs part : List Char}, part ∈ pathParts cs → ∀ c ∈ part, c ∈ cs
  | [], part, h, c, hc => by
    rw [pathParts, mem_singleton] at h
    exact h ▸ hc
  | d :: cs, part, h, c, hc => by
    obtain ⟨q, qs, hq⟩ := exists_cons_of_ne_nil (pathParts_ne_nil cs)
    have ih {p : List Char} (hp : p ∈ q :: qs) {e : Char} (he : e ∈ p) : e ∈ d :: cs :=
      .tail _ (mem_of_mem_pathParts (hq ▸ hp) e he)
    rw [pathParts, hq] at h
    split at h
    · rcases mem_cons.mp h with rfl | h
      · cases hc
      · exact ih h hc
    · rcases mem_cons.mp h with rfl | h
      · rcases mem_cons.mp hc with rfl | hc
        · exact .head _
        · exact ih (.head _) hc
      · exact ih (.tail _ h) hc

/-! ## Made names -/

/-- The path has a part that is made with this tag and number. The label that closes a function has its name with `_end`
behind it. -/
def Bears (path tag : String) (k : Nat) : Prop :=
  IsTag tag ∧ ∃ part ∈ pathParts path.toList,
    part = (freshText tag k).toList ∨ part = (freshText tag k).toList ++ "_end".toList

namespace Bears

variable {path tag : String} {k : Nat}

theorem of_notMem (h : '#' ∉ path.toList) : ¬Bears path tag k := by
  rintro ⟨-, part, hp, he⟩
  have hash : '#' ∈ part := by
    rcases he with rfl | rfl <;> simp [freshText, String.toList_append]
  exact h (mem_of_mem_pathParts hp _ hash)

theorem word (h : IsWord path) : ¬Bears path tag k := of_notMem (h.notMem (by decide))

theorem slash {a b : String} : Bears (a ++ "/" ++ b) tag k ↔ Bears a tag k ∨ Bears b tag k := by
  have hparts : pathParts (a ++ "/" ++ b).toList = pathParts a.toList ++ pathParts b.toList := by
    rw [← pathParts_append]
    simp [String.toList_append]
  unfold Bears
  rw [hparts, ← and_or_left]
  refine and_congr_right fun _ => ?_
  simp only [mem_append, or_and_right, exists_or]

theorem fresh {t : String} {j : Nat} (ht : IsTag t) (h : Bears (freshText t j) tag k) : tag = t ∧ k = j := by
  obtain ⟨htag, part, hp, he⟩ := h
  rw [pathParts_of_notMem (freshText_notMem ht (by decide) (by decide) (by decide) j), mem_singleton] at hp
  subst hp
  rcases he with he | he
  · exact freshText_inj htag ht (String.toList_inj.mp he).symm
  · have hmem : '_' ∈ (freshText t j).toList := by rw [he]; simp
    exact absurd hmem (freshText_notMem ht (by decide) (by decide) (by decide) j)

/-- The label that closes a function bears what the name of the function bears. -/
theorem closing (h : Bears (path ++ "_end") tag k) : Bears path tag k := by
  obtain ⟨htag, part, hp, he⟩ := h
  obtain ⟨parts, last, hl, hl'⟩ := pathParts_append_of_notMem (s := "_end".toList) (by decide) path.toList
  rw [String.toList_append, hl'] at hp
  refine ⟨htag, ?_⟩
  rw [hl]
  rcases mem_append.mp hp with hp | hp
  · exact ⟨part, mem_append_left _ hp, he⟩
  · rw [mem_singleton] at hp
    subst hp
    refine ⟨last, mem_append_right _ (.head _), .inl ?_⟩
    rcases he with he | he
    · have hmem : '_' ∈ (freshText tag k).toList := by rw [← he]; simp
      exact absurd hmem (freshText_notMem htag (by decide) (by decide) (by decide) k)
    · exact append_cancel_right he

end Bears

/-- A label that is made with this number. -/
def MadeWith (label : String) (k : Nat) : Prop := ∃ scope tag, IsTag tag ∧ label = scope ++ "/" ++ freshText tag k

theorem MadeWith.eq {scope tag : String} {j k : Nat} (h : MadeWith (scope ++ "/" ++ freshText tag j) k)
    (ht : IsTag tag) :
    k = j := by
  obtain ⟨scope', tag', ht', he⟩ := h
  have slash {t : String} (h : IsTag t) (i : Nat) : '/' ∉ (freshText t i).toList :=
    freshText_notMem h (by decide) (by decide) (by decide) i
  exact (freshText_inj ht ht' (last_part_inj he (slash ht j) (slash ht' k)).2).2.symm

variable {n : String} {e : List Step} {s : Step}

theorem not_madeWith_word {owner : String} (hn : IsWord n) (k : Nat) : ¬MadeWith (owner ++ "/" ++ n) k := by
  rintro ⟨scope, tag, ht, he⟩
  have hslash := freshText_notMem ht (c := '/') (by decide) (by decide) (by decide) k
  exact hn.ne_fresh (fresh_freshText tag k) (last_part_inj he (hn.notMem (by decide)) hslash).2

/-! ## Names and labels of streams -/

namespace Act

/-- The names of variables, types, functions, scopes and labels in a step. -/
def names : Act → List String
  | .atom (.ident n) | .declare n .. | .place n | .constant n .. | .typeDef n _ | .header n _ | .body n _ => [n]
  | .label l | .goto l | .jumpFalse l | .jumpTrue l | .jumpSetFalse l | .jumpSetTrue l | .enter l => [l]
  | .next l key value _ => l :: (key.toList ++ value.toList)
  | _ => []

/-- The label that stands here. -/
def label? : Act → Option String
  | .label l => some l
  | _ => none

/-- The expression of a constant. -/
def constant? : Act → Option (List Step)
  | .constant _ _ e _ => some e
  | _ => none

/-- The names, the label and the expression in a step. -/
def parts (a : Act) : List String × Option String × Option (List Step) := (a.names, a.label?, a.constant?)

end Act

/-- The expression of a constant in a stream, or of one in the expression of another. -/
inductive Inner (steps : List Step) : List Step → Prop
  | here {s : Step} {e : List Step} : s ∈ steps → s.val.constant? = some e → Inner steps e
  | deeper {e e' : List Step} {s : Step} : Inner steps e → s ∈ e → s.val.constant? = some e' → Inner steps e'

/-- A name stands in a stream, or in the expression of a constant there. -/
def Occurs (steps : List Step) (n : String) : Prop :=
  (∃ s ∈ steps, n ∈ s.val.names) ∨ ∃ e, Inner steps e ∧ ∃ s ∈ e, n ∈ s.val.names

/-- How often a label stands in a stream. -/
def seen (l : String) (steps : List Step) : Nat := (steps.filterMap (·.val.label?)).count l

theorem Inner.append {s t : List Step} : Inner (s ++ t) e ↔ Inner s e ∨ Inner t e := by
  constructor
  · intro h
    induction h with
    | here hs he => exact (mem_append.mp hs).imp (.here · he) (.here · he)
    | deeper _ hs he ih => exact ih.imp (.deeper · hs he) (.deeper · hs he)
  · rintro (h | h)
    · induction h with
      | here hs he => exact .here (mem_append_left _ hs) he
      | deeper _ hs he ih => exact .deeper ih hs he
    · induction h with
      | here hs he => exact .here (mem_append_right _ hs) he
      | deeper _ hs he ih => exact .deeper ih hs he

theorem not_inner_nil (h : Inner [] e) : False := by
  induction h with
  | here hs _ => cases hs
  | deeper _ _ _ ih => exact ih

theorem Inner.single (h : Inner [s] e) : ∃ e', s.val.constant? = some e' ∧ (e = e' ∨ Inner e' e) := by
  induction h with
  | here hs he =>
    rw [mem_singleton] at hs
    exact ⟨_, hs ▸ he, .inl rfl⟩
  | deeper _ hs he ih =>
    obtain ⟨e', he', ih⟩ := ih
    refine ⟨e', he', .inr ?_⟩
    rcases ih with rfl | ih
    · exact .here hs he
    · exact ih.deeper hs he

theorem Occurs.append {s t : List Step} : Occurs (s ++ t) n ↔ Occurs s n ∨ Occurs t n := by
  unfold Occurs
  simp only [mem_append, Inner.append, or_and_right, exists_or]
  rw [or_or_or_comm]

theorem Occurs.single (h : Occurs [s] n) (hc : s.val.constant? = none) : n ∈ s.val.names := by
  rcases h with ⟨t, ht, hn⟩ | ⟨e, he, -⟩
  · exact mem_singleton.mp ht ▸ hn
  · obtain ⟨e', he', -⟩ := he.single
    rw [hc] at he'
    cases he'

theorem not_occurs_nil : ¬Occurs [] n := by
  rintro (⟨s, hs, -⟩ | ⟨e, he, -⟩)
  · cases hs
  · exact not_inner_nil he

@[simp] theorem seen_append (l : String) (s t : List Step) : seen l (s ++ t) = seen l s + seen l t := by
  simp [seen, filterMap_append, count_append]

@[simp] theorem seen_nil (l : String) : seen l [] = 0 := rfl

theorem seen_label (l m : String) (p : Pos) : seen l [⟨.label m, p⟩] = [m].count l := rfl

theorem seen_other (h : s.val.label? = none) (l : String) : seen l [s] = 0 := by
  simp [seen, h]

/-! ## Where names come from -/

/-- The expression of a constant is one expression, and a made label stands in it at most once. -/
structure Sealed (e : List Step) : Prop where
  phrase : ∃ heads fs lo hi, Phrase .free heads fs (.exprs 1) lo hi [] e
  labels : ∀ l k, MadeWith l k → seen l e ≤ 1

/-- Names that are known, and those with a tag for each number from `a` on and below `b`. -/
def Known.extend (known : String → Nat → Prop) (tags : Nat → String) (a b : Nat) (tag : String) (k : Nat) : Prop :=
  known tag k ∨ (a ≤ k ∧ k < b) ∧ tags k = tag

/-- The made names in a path are known. -/
def Known.Of (known : String → Nat → Prop) (path : String) : Prop := ∀ tag k, Bears path tag k → known tag k

/-- Where the made names in some steps come from. -/
structure Drawn (known : String → Nat → Prop) (own : List String) (lo hi : Nat) (steps : List Step) : Prop where
  le : lo ≤ hi
  names : ∃ tags : Nat → String, ∀ n, Occurs steps n → Known.Of (Known.extend known tags lo hi) n
  labels : ∀ l k, MadeWith l k → seen l steps ≤ own.count l + if lo ≤ k ∧ k < hi then 1 else 0
  constants : ∀ e, Inner steps e → Sealed e

namespace Drawn

variable {known : String → Nat → Prop} {own own' : List String} {a b d lo hi : Nat} {s t : List Step} {p : Pos}

theorem empty : Drawn known [] lo lo [] where
  le := Nat.le_refl _
  names := ⟨fun _ => "", fun _ h => absurd h not_occurs_nil⟩
  labels _ _ _ := Nat.zero_le _
  constants _ he := (not_inner_nil he).elim

theorem append (h : Drawn known own a b s) (h' : Drawn known own' b d t) :
    Drawn known (own ++ own') a d (s ++ t) := by
  have hab := h.le
  have hbd := h'.le
  refine ⟨Nat.le_trans hab hbd, ?_, fun l k hk => ?_, fun e he => (Inner.append.mp he).elim (h.constants e)
    (h'.constants e)⟩
  · obtain ⟨f, hf⟩ := h.names
    obtain ⟨g, hg⟩ := h'.names
    refine ⟨fun k => if k < b then f k else g k, fun n hn tag k hk => ?_⟩
    rcases Occurs.append.mp hn with hn | hn
    · rcases hf n hn tag k hk with hk | ⟨hk, ht⟩
      · exact .inl hk
      · exact .inr ⟨⟨hk.1, by omega⟩, (if_pos hk.2).trans ht⟩
    · rcases hg n hn tag k hk with hk | ⟨hk, ht⟩
      · exact .inl hk
      · exact .inr ⟨⟨by omega, hk.2⟩, (if_neg (by omega)).trans ht⟩
  · have hs := h.labels l k hk
    have ht := h'.labels l k hk
    rw [seen_append, count_append]
    split at hs <;> split at ht <;> split <;> omega

theorem of_le (h : Drawn known own lo hi s) (hm : ∀ x ∈ t, x ∈ s) (hs : ∀ l, seen l t ≤ seen l s) :
    Drawn known own lo hi t := by
  have inner {e : List Step} (he : Inner t e) : Inner s e := by
    induction he with
    | here hx he => exact .here (hm _ hx) he
    | deeper _ hx he ih => exact .deeper ih hx he
  refine ⟨h.le, ?_, fun l k hk => Nat.le_trans (hs l) (h.labels l k hk), fun e he => h.constants e (inner he)⟩
  obtain ⟨f, hf⟩ := h.names
  refine ⟨f, fun n hn => hf n (hn.imp ?_ ?_)⟩
  · rintro ⟨x, hx, hn⟩
    exact ⟨x, hm x hx, hn⟩
  · rintro ⟨e, he, hn⟩
    exact ⟨e, inner he, hn⟩

theorem appendBefore (h : Drawn known own b d s) (h' : Drawn known own' a b t) :
    Drawn known (own' ++ own) a d (s ++ t) := by
  refine (h'.append h).of_le (fun x hx => ?_) fun l => ?_
  · exact mem_append.mpr (mem_append.mp hx).symm
  · exact Nat.le_of_eq (by rw [seen_append, seen_append, Nat.add_comm])

/-- **Names that have just been made are drawn.** They have the numbers from `a` on and below `b`, and the labels among
them stand once. -/
theorem close {tags : Nat → String} (hab : a ≤ b) (h : Drawn (Known.extend known tags a b) own b d s)
    (ho : ∀ l k, MadeWith l k → own.count l ≤ own'.count l + if a ≤ k ∧ k < b then 1 else 0) :
    Drawn known own' a d s := by
  have hbd := h.le
  refine ⟨Nat.le_trans hab hbd, ?_, fun l k hk => ?_, h.constants⟩
  · obtain ⟨f, hf⟩ := h.names
    refine ⟨fun k => if k < b then tags k else f k, fun n hn tag k hk => ?_⟩
    rcases hf n hn tag k hk with (hk | ⟨hk, ht⟩) | ⟨hk, ht⟩
    · exact .inl hk
    · exact .inr ⟨⟨hk.1, by omega⟩, (if_pos hk.2).trans ht⟩
    · exact .inr ⟨⟨by omega, hk.2⟩, (if_neg (by omega)).trans ht⟩
  · have hs := h.labels l k hk
    have ho := ho l k hk
    split at hs <;> split at ho <;> split <;> omega

theorem step {act : Act} (hl : act.label? = none) (hc : act.constant? = none) (hn : ∀ n ∈ act.names, Known.Of known n) :
    Drawn known [] lo lo [⟨act, p⟩] where
  le := Nat.le_refl _
  names := ⟨fun _ => "", fun n hm tag k hk => .inl (hn n (hm.single hc) tag k hk)⟩
  labels l _ _ := by
    rw [seen_other hl]
    exact Nat.zero_le _
  constants e he := by
    obtain ⟨e', he', -⟩ := he.single
    rw [hc] at he'
    cases he'

theorem label {l : String} (hl : Known.Of known l) : Drawn known [l] lo lo [⟨.label l, p⟩] where
  le := Nat.le_refl _
  names := ⟨fun _ => "", fun n hm tag k hk => .inl (by
    cases mem_singleton.mp (hm.single rfl)
    exact hl tag k hk)⟩
  labels m _ _ := by
    exact Nat.le_add_right _ _
  constants e he := by
    obtain ⟨e', he', -⟩ := he.single
    cases he'

theorem plainLabel {l : String} (hl : Known.Of known l) (hn : ∀ k, ¬MadeWith l k) :
    Drawn known [] lo lo [⟨.label l, p⟩] where
  le := Nat.le_refl _
  names := (label hl : Drawn known [l] lo lo [⟨.label l, p⟩]).names
  labels m k hk := by
    rw [seen_label, count_eq_zero.mpr]
    · exact Nat.zero_le _
    · rw [mem_singleton]
      rintro rfl
      exact hn k hk
  constants := (label hl : Drawn known [l] lo lo [⟨.label l, p⟩]).constants

end Drawn

end Goblet
