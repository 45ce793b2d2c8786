import Goblet.Proofs.Stream.Walk

/-!
# Phrases

The grammar of streams. `Phrase rules heads frames role lo hi links steps` says that `steps` are so many expressions,
or statements, inside of `frames`. The scopes and functions that they open have numbers from `lo` on and below `hi`, and
`links` are the jumps and labels of the statements that lie in no loop over a range and no function of their own. A
loop over a range and a function are closed: a jump in them leads to a label in them (`Link.Closed`).

`Rules` says which streams are phrases: all that are shaped are phrases with `Rules.free`.

A phrase leaves open what is open (`Phrase.walk`).
-/

namespace Goblet

open List

variable {tag : String} {c : Char}

open Goblet.Frame (scopeOf funcOf Owns owner)

/-- What a call is used for. -/
inductive Use where
  /-- For one operand. -/
  | operand
  /-- As a statement. -/
  | statement
  /-- As the only value for so many targets. -/
  | values (targets : Nat)

/-- What may be in a stream. -/
structure Rules where
  /-- How the call at a place may be used. -/
  call : Pos → Use → Prop
  /-- Whether one value may be for several targets. -/
  uneven : Prop
  /-- Whether there may be jumps that are written. -/
  goto : Prop

/-- Anything may be in a stream. -/
def Rules.free : Rules := ⟨fun _ _ => True, True, True⟩

/-- What a phrase is. -/
inductive Role where
  /-- So many expressions. -/
  | exprs (n : Nat)
  /-- Statements, inside of so many loops over ranges. -/
  | stmts (depth : Nat)

/-- A jump or a label of statements. -/
inductive Link where
  | jump (label : String)
  | label (name : String)

/-- Every jump leads to a label. -/
def Link.Closed (links : List Link) : Prop := ∀ l, .jump l ∈ links → .label l ∈ links

theorem Link.Closed.nil : Link.Closed [] := nofun

/-- A fresh name by its number. -/
def freshText (tag : String) (k : Nat) : String := "#" ++ tag ++ toString k

theorem fresh_freshText (tag : String) (k : Nat) : Fresh tag (freshText tag k) := ⟨k, rfl⟩

/-- A tag consists of letters. -/
def IsTag (tag : String) : Prop := tag.toList.all Char.isAlpha = true

instance (tag : String) : Decidable (IsTag tag) := inferInstanceAs (Decidable (_ = _))

theorem not_isDigit_of_letter (h : c.isAlpha = true) : c.isDigit = false := by
  rw [Bool.eq_false_iff]
  intro hd
  have hd : (decide (c.val ≥ 48) && decide (c.val ≤ 57)) = true := hd
  have hge : c.val.toNat ≤ 57 := UInt32.le_iff_toNat_le.mp (of_decide_eq_true (Bool.and_eq_true_iff.mp hd).2)
  have hle : 65 ≤ c.val.toNat := by
    rcases Bool.or_eq_true_iff.mp (show (c.isUpper || c.isLower) = true from h) with h | h
    · have h : c.val ≥ 65 ∧ c.val ≤ 90 := of_decide_eq_true h
      exact UInt32.le_iff_toNat_le.mp h.1
    · have h : (decide (c.val ≥ 97) && decide (c.val ≤ 122)) = true := h
      exact Nat.le_trans (by decide) (UInt32.le_iff_toNat_le.mp (of_decide_eq_true (Bool.and_eq_true_iff.mp h).1))
  omega

theorem IsTag.notMem (h : IsTag tag) (hc : c.isAlpha = false) : c ∉ tag.toList :=
  fun hm => absurd (all_eq_true.mp h c hm) (by rw [hc]; decide)

theorem freshText_notMem (h : IsTag tag) (hc : c.isAlpha = false) (hd : c.isDigit = false)
    (hn : c ≠ '#') (k : Nat) : c ∉ (freshText tag k).toList :=
  (fresh_freshText tag k).notMem hd hn (h.notMem hc)

theorem freshText_inj {tag' : String} {j k : Nat} (h : IsTag tag) (h' : IsTag tag')
    (he : freshText tag j = freshText tag' k) : tag = tag' ∧ j = k := by
  have letters {tag : String} (h : IsTag tag) (i : Nat) :
      (tag.toList ++ (toString i).toList).filter Char.isAlpha = tag.toList := by
    have hdigit : (toString i).toList.filter Char.isAlpha = [] := by
      rw [filter_eq_nil_iff]
      intro c hc ha
      have := isDigit_of_mem_toString hc
      rw [not_isDigit_of_letter ha] at this
      exact Bool.noConfusion this
    rw [filter_append, hdigit, append_nil, filter_eq_self]
    exact all_eq_true.mp h
  have hl : tag.toList ++ (toString j).toList = tag'.toList ++ (toString k).toList := by
    simpa [freshText, String.toList_append] using congrArg String.toList he
  have htag : tag.toList = tag'.toList := by rw [← letters h j, hl, letters h']
  refine ⟨String.toList_inj.mp htag, ?_⟩
  rw [htag, append_cancel_left_eq] at hl
  exact toString_inj hl

/-- A label that is not written in the source. -/
def Made (label : String) : Prop := ∃ scope tag n, Fresh tag n ∧ '/' ∉ tag.toList ∧ label = scope ++ "/" ++ n

namespace Act

/-- How many operands a step takes to leave one. -/
def operands? : Act → Option Nat
  | .unary _ | .field _ => some 1
  | .binary _ | .index => some 2
  | .slice low high => some (1 + low.toNat + high.toNat)
  | .composite _ len .pairs => some (2 * len)
  | .composite _ len _ => some len
  | .call argc _ => some (argc + 1)
  | _ => none

/-- Fields have the names that source can have. -/
def Spelled : Act → Prop
  | .field n => IsWord n
  | _ => True

/-- A name that is used is one part of a path. -/
def Parts : Atom → Prop
  | .ident n => IsPart n
  | _ => True

/-- How many operands a step takes to end a statement. -/
def settles? : Act → Option Nat
  | .indexAssign => some 3
  | .derefAssign => some 2
  | .ret n => some n
  | _ => none

/-- Whether a step declares a name by itself. -/
def Declares (frames : List Frame) : Act → Prop
  | .declare n _ init => VarName n ∧ init = false
  | .typeDef n _ => VarName n ∧ frames ≠ []
  | .constant n .. => VarName n ∧ frames ≠ []
  | _ => False

theorem Declares.plain {frames : List Frame} {act : Act} (h : act.Declares frames) : act.Plain frames := by
  cases act with
  | declare n ty init => exact h.1
  | typeDef n ty => exact h
  | constant n ty e i => exact h
  | _ => exact h.elim

end Act

/-- So many stores, each into a target. -/
inductive Stores : Nat → List Step → Prop
  | none : Stores 0 []
  | define {k n p q rest} : VarName n → Stores k rest → Stores (k + 1) (⟨.ident n, p⟩ :: ⟨.define, q⟩ :: rest)
  | assign {k n p q rest} : IsPart n → Stores k rest → Stores (k + 1) (⟨.ident n, p⟩ :: ⟨.assign, q⟩ :: rest)
  | declare {k n ty p rest} : VarName n → Stores k rest → Stores (k + 1) (⟨.declare n ty true, p⟩ :: rest)

inductive Phrase (rules : Rules) (heads : String → Prop) :
    List Frame → Role → Nat → Nat → List Link → List Step → Prop
  | wide {fs role a b lo hi links s} : a ≤ lo → hi ≤ b → Phrase rules heads fs role lo hi links s →
      Phrase rules heads fs role a b links s
  -- expressions
  | atom {fs lo a p} : Act.Parts a → Phrase rules heads fs (.exprs 1) lo lo [] [⟨.atom a, p⟩]
  | typeRef {fs lo e p} : Phrase rules heads fs (.exprs 1) lo lo [] [⟨.typeRef e, p⟩]
  | none {fs lo} : Phrase rules heads fs (.exprs 0) lo lo [] []
  | more {fs m n a b c d s t} : b ≤ c ∨ d ≤ a → Phrase rules heads fs (.exprs m) a b [] s →
      Phrase rules heads fs (.exprs n) c d [] t → Phrase rules heads fs (.exprs (m + n)) (min a c) (max b d) [] (s ++ t)
  | apply {fs n lo hi act p s} : act.operands? = some n → act.Spelled → (∀ argc spread, act = .call argc spread →
      rules.call p .operand) → Phrase rules heads fs (.exprs n) lo hi [] s →
      Phrase rules heads fs (.exprs 1) lo hi [] (s ++ [⟨act, p⟩])
  | logic {fs a b c act l p q s t} : act = .jumpSetFalse l ∨ act = .jumpSetTrue l → Made l →
      Phrase rules heads fs (.exprs 1) a b [] s → Phrase rules heads fs (.exprs 1) b c [] t →
      Phrase rules heads fs (.exprs 1) a c [] (s ++ ⟨act, p⟩ :: t ++ [⟨.label l, q⟩])
  | literal {fs k hi key sig p q links s} : key = scopeOf fs ++ "/" ++ freshText "lit" k → sig.Named →
      Link.Closed links →
      Phrase rules heads (.func key :: fs) (.stmts 0) (k + 1) hi links s →
      Phrase rules heads fs (.exprs 1) k hi []
        (⟨.body key sig, p⟩ :: s ++ [⟨.label (key ++ "_end"), q⟩, ⟨.ident (freshText "lit" k), p⟩])
  -- statements
  | empty {fs d lo} : Phrase rules heads fs (.stmts d) lo lo [] []
  | seq {fs d a b c links links' s t} : Phrase rules heads fs (.stmts d) a b links s →
      Phrase rules heads fs (.stmts d) b c links' t → Phrase rules heads fs (.stmts d) a c (links ++ links') (s ++ t)
  | value {fs d lo hi p q s} : Phrase rules heads fs (.exprs 1) lo hi [] s →
      Phrase rules heads fs (.stmts d) lo hi [] (⟨.mark, p⟩ :: s ++ [⟨.discard, q⟩])
  | call {fs d lo hi argc spread p q r s} : rules.call q .statement →
      Phrase rules heads fs (.exprs (argc + 1)) lo hi [] s →
      Phrase rules heads fs (.stmts d) lo hi [] (⟨.mark, p⟩ :: s ++ [⟨.call argc spread, q⟩, ⟨.discard, r⟩])
  | store {fs d n k lo hi s t} : Stores k t → n = k ∨ n = 1 ∧ rules.uneven →
      Phrase rules heads fs (.exprs n) lo hi [] s →
      Phrase rules heads fs (.stmts d) lo hi [] (s ++ t)
  | storeCall {fs d k lo hi argc spread p s t} : Stores k t → rules.call p (.values k) →
      Phrase rules heads fs (.exprs (argc + 1)) lo hi [] s →
      Phrase rules heads fs (.stmts d) lo hi [] (s ++ ⟨.call argc spread, p⟩ :: t)
  | settle {fs d n lo hi act p s} : act.settles? = some n → Phrase rules heads fs (.exprs n) lo hi [] s →
      Phrase rules heads fs (.stmts d) lo hi [] (s ++ [⟨act, p⟩])
  | setField {fs d lo hi base path p q s} : IsPart base → Phrase rules heads fs (.exprs 1) lo hi [] s →
      Phrase rules heads fs (.stmts d) lo hi [] (⟨.place base, p⟩ :: s ++ [⟨.fieldAssign path, q⟩])
  | declare {fs d lo act p} : act.Declares fs → Phrase rules heads fs (.stmts d) lo lo [] [⟨act, p⟩]
  | block {fs d k hi scope links p q s} : scope = scopeOf fs ++ "/" ++ freshText "b" k →
      Phrase rules heads (.block scope :: fs) (.stmts d) (k + 1) hi links s →
      Phrase rules heads fs (.stmts d) k hi links (⟨.enter scope, p⟩ :: s ++ [⟨.leave, q⟩])
  | func {lo hi key sig links p q s} : heads key → sig.Named → Link.Closed links →
      Phrase rules heads [.func key] (.stmts 0) lo hi links s →
      Phrase rules heads [] (.stmts 0) lo hi [] (⟨.body key sig, p⟩ :: s ++ [⟨.label (key ++ "_end"), q⟩])
  | test {fs d lo hi act l p s} : act = .jumpFalse l ∨ act = .jumpTrue l → Phrase rules heads fs (.exprs 1) lo hi [] s →
      Phrase rules heads fs (.stmts d) lo hi [.jump l] (s ++ [⟨act, p⟩])
  | goto {fs d lo l p} : Made l → Phrase rules heads fs (.stmts d) lo lo [.jump l] [⟨.goto l, p⟩]
  | label {fs d lo l p} : Made l → Phrase rules heads fs (.stmts d) lo lo [.label l] [⟨.label l, p⟩]
  | range {fs d a b c links p q s t} : Link.Closed links → Phrase rules heads fs (.exprs 1) a b [] s →
      Phrase rules heads fs (.stmts (d + 1)) b c links t →
      Phrase rules heads fs (.stmts d) a c [] (s ++ ⟨.range, p⟩ :: t ++ [⟨.drop, q⟩])
  | next {fs d lo l key value define p} : (∀ n, key = some n → VarName n) → (∀ n, value = some n → VarName n) →
      Phrase rules heads fs (.stmts (d + 1)) lo lo [.jump l] [⟨.next l key value define, p⟩]
  | writtenGoto {fs d lo n p} : rules.goto → IsWord n →
      Phrase rules heads fs (.stmts d) lo lo [] [⟨.goto (owner fs ++ "/" ++ n), p⟩]
  | writtenLabel {fs d lo n p} : IsWord n →
      Phrase rules heads fs (.stmts d) lo lo [] [⟨.label (owner fs ++ "/" ++ n), p⟩]

/-- A whole chunk: statements, and what gives its value. -/
inductive WholePhrase (rules : Rules) (heads : String → Prop) (lo hi : Nat) : List Step → Prop
  | done {links s} : Link.Closed links → Phrase rules heads [] (.stmts 0) lo hi links s →
      WholePhrase rules heads lo hi s
  | value {m links s t} : Link.Closed links → Phrase rules heads [] (.stmts 0) lo m links s →
      Phrase rules heads [] (.exprs 1) m hi [] t → WholePhrase rules heads lo hi (s ++ t)
  | call {m links s t argc spread p} : Link.Closed links → Phrase rules heads [] (.stmts 0) lo m links s →
      rules.call p .statement → Phrase rules heads [] (.exprs (argc + 1)) m hi [] t →
      WholePhrase rules heads lo hi (s ++ (t ++ [⟨.call argc spread, p⟩]))

/-! ## Phrases walk -/

section

variable {rules : Rules} {heads : String → Prop} {fs : List Frame} {rest : List Step} {p q : Pos}
variable {l : String} {s : List Step} {links : List Link} {lo hi : Nat}

theorem Made.owned (h : Made l) : Owns fs l := by
  obtain ⟨scope, tag, n, hn, ht, rfl⟩ := h
  exact Frame.owns_fresh hn ht

/-- A label that is made closes no function, for it ends with a digit. -/
theorem Made.ne_end (h : Made l) (key : String) : l ≠ key ++ "_end" := by
  intro he
  obtain ⟨scope, tag, n, hn, ht, rfl⟩ := h
  obtain ⟨d, hd, hdigit⟩ := hn.ends scope
  rw [he, String.toList_append, getLast?_append] at hd
  cases hd
  exact absurd hdigit (by decide)

/-- A label that is written closes no function, for a slash follows the name of the function. -/
theorem Frame.written_ne_end {key : String} (hk : funcOf fs = some key) (n : String) :
    owner fs ++ "/" ++ n ≠ key ++ "_end" := by
  intro he
  rw [owner, hk] at he
  have he : ('/' :: n.toList) = ['_', 'e', 'n', 'd'] := by
    simpa [String.toList_append] using congrArg String.toList he
  cases he

theorem Made.walk (h : Made l) (hw : Walk heads fs rest) : Walk heads fs (⟨.label l, p⟩ :: rest) :=
  .label (fun key _ => h.ne_end key) h.owned hw

theorem Walk.writtenLabel {n : String} (hn : IsWord n) (hw : Walk heads fs rest) :
    Walk heads fs (⟨.label (owner fs ++ "/" ++ n), p⟩ :: rest) :=
  .label (fun _ hk => Frame.written_ne_end hk n) (Frame.owns_word hn) hw

theorem Stores.walk {k : Nat} (h : Stores k s) (hw : Walk heads fs rest) : Walk heads fs (s ++ rest) := by
  induction h with
  | none => exact hw
  | define hn _ ih => exact .define hn ih
  | assign hn _ ih => exact .assign hn ih
  | declare hn _ ih => exact .plain hn ih

theorem Act.plain_of_operands? {act : Act} {n : Nat} (h : act.operands? = some n) (hs : act.Spelled) :
    act.Plain fs := by
  cases act <;> trivial

theorem Act.plain_of_settles? {act : Act} {n : Nat} (h : act.settles? = some n) : act.Plain fs := by
  cases act <;> trivial

/-- **A phrase leaves open what is open.** -/
theorem Phrase.walk {role : Role}
    (h : Phrase rules heads fs role lo hi links s) : ∀ {rest}, Walk heads fs rest → Walk heads fs (s ++ rest) := by
  induction h with
  | wide _ _ _ ih => exact ih
  | @atom _ _ a _ ha =>
    refine .plain ?_
    cases a <;> exact ha
  | typeRef => exact .plain trivial
  | none => exact id
  | more _ _ _ ih ih' =>
    intro rest hw
    rw [append_assoc]
    exact ih (ih' hw)
  | apply hact hs _ _ ih =>
    intro rest hw
    rw [append_assoc]
    exact ih (.plain (Act.plain_of_operands? hact hs) hw)
  | logic hact hl _ _ ih ih' =>
    intro rest hw
    simp only [append_assoc, cons_append, nil_append]
    refine ih (.plain ?_ (ih' (hl.walk hw)))
    rcases hact with rfl | rfl <;> trivial
  | @literal fs k hi key sig p q links s hkey hsig _ _ ih =>
    intro rest hw
    simp only [append_assoc, cons_append, nil_append]
    exact .body (.inl ⟨_, _, fresh_freshText "lit" k, hkey⟩) hsig
      (ih (.close (.plain (fresh_freshText "lit" k).noSlash_lit hw)))
  | empty => exact id
  | seq _ _ ih ih' =>
    intro rest hw
    rw [append_assoc]
    exact ih (ih' hw)
  | value _ ih =>
    intro rest hw
    simp only [append_assoc, cons_append, nil_append]
    exact .plain trivial (ih (.plain trivial hw))
  | call _ _ ih =>
    intro rest hw
    simp only [append_assoc, cons_append, nil_append]
    exact .plain trivial (ih (.plain trivial (.plain trivial hw)))
  | store ht _ _ ih =>
    intro rest hw
    rw [append_assoc]
    exact ih (ht.walk hw)
  | storeCall ht _ _ ih =>
    intro rest hw
    rw [append_assoc]
    exact ih (.plain trivial (ht.walk hw))
  | settle hact _ ih =>
    intro rest hw
    rw [append_assoc]
    exact ih (.plain (Act.plain_of_settles? hact) hw)
  | setField hbase _ ih =>
    intro rest hw
    simp only [append_assoc, cons_append, nil_append]
    exact .plain hbase (ih (.plain trivial hw))
  | declare hact => exact .plain hact.plain
  | @block fs d k hi scope links p q s hscope _ ih =>
    intro rest hw
    simp only [append_assoc, cons_append, nil_append]
    subst hscope
    exact .enter (fresh_freshText "b" k) (ih (.leave hw))
  | func hkey hsig _ _ ih =>
    intro rest hw
    simp only [append_assoc, cons_append, nil_append]
    exact .body (.inr hkey) hsig (ih (.close hw))
  | test hact _ ih =>
    intro rest hw
    rw [append_assoc]
    refine ih (.plain ?_ hw)
    rcases hact with rfl | rfl <;> trivial
  | goto hl => exact .plain hl.owned
  | label hl => exact hl.walk
  | range _ _ _ ih ih' =>
    intro rest hw
    simp only [append_assoc, cons_append, nil_append]
    exact ih (.plain trivial (ih' (.plain trivial hw)))
  | next hk hv => exact .plain ⟨hk, hv⟩
  | writtenGoto _ hn => exact .plain (Frame.owns_word hn)
  | writtenLabel hn => exact .writtenLabel hn

theorem WholePhrase.walk (h : WholePhrase rules heads lo hi s) : Walk heads [] s := by
  rw [← append_nil s]
  cases h with
  | done _ hs => exact hs.walk .done
  | value _ hs ht =>
    rw [append_assoc]
    exact hs.walk (ht.walk .done)
  | call _ hs _ ht =>
    simp only [append_assoc]
    exact hs.walk (ht.walk (.plain trivial .done))

theorem Link.Closed.append {links' : List Link} (h : Link.Closed links) (h' : Link.Closed links') :
    Link.Closed (links ++ links') :=
  fun l hl => (mem_append.mp hl).elim (fun hl => mem_append_left _ (h l hl))
    fun hl => mem_append_right _ (h' l hl)

theorem WholePhrase.after {m : Nat} {t : List Step} (hl : Link.Closed links)
    (hs : Phrase rules heads [] (.stmts 0) lo m links s) (h : WholePhrase rules heads m hi t) :
    WholePhrase rules heads lo hi (s ++ t) := by
  cases h with
  | done hc ht => exact .done (hl.append hc) (hs.seq ht)
  | value hc ht hv =>
    rw [← append_assoc]
    exact .value (hl.append hc) (hs.seq ht) hv
  | call hc ht hr hv =>
    rw [← append_assoc]
    exact .call (hl.append hc) (hs.seq ht) hr hv

end

end Goblet
