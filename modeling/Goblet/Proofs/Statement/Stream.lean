import Mathlib.Data.List.Forall2
import Goblet.Proofs.Scalar.Shaping
import Goblet.Proofs.Statement.Grammar

/-!
# Streams of statements

`Block.stream` is what the steps of statements do, together with the number of the next fresh name: each control
structure is labels and jumps around the steps of its parts, and the scope of a block stands between `enter` and
`leave`. `Yields x n Q` says that `x` shapes with fresh names from `n` and satisfies `Q`, so that a stream is put
together from streams of parts. Assignments are shaped into theirs here (`Assignment.Simple.shapes`,
`Assignment.Spec.shapes`).
-/

namespace Goblet

open List Assignment Goblet.Expr Token

/-! ## What the steps of statements do -/

/-- How many labels expressions need. -/
def Expr.logicsAll : List Expr → Nat
  | [] => 0
  | e :: es => e.logics + logicsAll es

/-- What the steps of expressions do, one after another. -/
def Expr.actsAll (scope : String) : List Expr → Nat → List Act
  | [], _ => []
  | e :: es, n => e.acts scope n ++ actsAll scope es (n + e.logics)

namespace Assignment

/-- Stores into names in order. -/
def stores (xs : List String) : Storing → List Act
  | .define => xs.flatMap fun x => [.ident x, .define]
  | .assign => xs.flatMap fun x => [.ident x, .assign]
  | .declare ty => xs.map fun x => .declare x (ty.map TypeExpr.name) true

def stream (scope : String) (a : Assignment) (n : Nat) : List Act × Nat :=
  (actsAll scope a.values n ++ stores a.targets.reverse a.kind, n + logicsAll a.values)

/-- The stream of assignments one after another. -/
def streamAll (scope : String) : List Assignment → Nat → List Act × Nat
  | [], n => ([], n)
  | a :: as, n =>
    let first := a.stream scope n
    let rest := streamAll scope as first.2
    (first.1 ++ rest.1, rest.2)

/-- The stream of an assignment that may be missing. -/
def streamMaybe (scope : String) : Option Assignment → Nat → List Act × Nat
  | some a, n => a.stream scope n
  | none, n => ([], n)

end Assignment

/-- The test of a loop. -/
def Expr.loopTest (scope label : String) : Option Expr → Nat → List Act × Nat
  | some e, n => (e.acts scope n ++ [.jumpFalse label], n + e.logics)
  | none, n => ([], n)

/-- The tests of a case, each behind the name of the tag if there is one. -/
def Expr.caseTests (scope : String) (tag : Option String) (label : String) : List Expr → Nat → List Act
  | [], _ => []
  | e :: es, n =>
    tag.elim (e.acts scope n) (fun x => .ident x :: e.acts scope n ++ [.binary .eql]) ++ [.jumpTrue label] ++
      caseTests scope tag label es (n + e.logics)

namespace Clauses

/-- How many labels the tests of all clauses need, with their own. -/
def width : Clauses → Nat
  | .nil => 0
  | .cons cases _ rest => 1 + logicsAll (cases.getD []) + rest.width

/-- The tests of all clauses. -/
def tests (scope : String) (tag : Option String) : Clauses → Nat → List Act
  | .nil, _ => []
  | .cons cases _ rest, n =>
    caseTests scope tag (freshIn scope "case" n) (cases.getD []) (n + 1) ++
      rest.tests scope tag (n + 1 + logicsAll (cases.getD []))

/-- The labels of all clauses. -/
def labels (scope : String) : Clauses → Nat → List String
  | .nil, _ => []
  | .cons cases _ rest, n => freshIn scope "case" n :: rest.labels scope (n + 1 + logicsAll (cases.getD []))

end Clauses

/-- The tag of a switch, and the name it is kept under. -/
def Expr.tagStream (scope : String) : Option Expr → Nat → List Act × Nat
  | some e, n => (e.acts scope (n + 1) ++ [.ident ("#tag" ++ toString n), .define], n + 1 + e.logics)
  | none, n => ([], n)

mutual

def Stmt.stream : Stmt → Place → Nat → List Act × Nat
  | .store a, c, n => a.stream c.scope n
  | .vars as, c, n => Assignment.streamAll c.scope as n
  | .block body, c, n =>
    let scope := freshIn c.scope "b" n
    let inner := body.stream (c.within scope) (n + 1)
    ([.enter scope] ++ inner.1 ++ [.leave], inner.2)
  | .when init cond yes, c, n =>
    let scope := freshIn c.scope "b" n
    let otherwise := freshIn scope "else" (n + 1)
    let start := streamMaybe scope init (n + 2)
    let m := start.2 + cond.logics
    let inner := freshIn scope "b" m
    let body := yes.stream ((c.within scope).within inner) (m + 1)
    ([.enter scope] ++ start.1 ++ (cond.acts scope start.2 ++ [.jumpFalse otherwise]) ++
      ([.enter inner] ++ body.1 ++ [.leave]) ++ [.label otherwise] ++ [.leave], body.2)
  | .branch init cond yes no, c, n =>
    let scope := freshIn c.scope "b" n
    let otherwise := freshIn scope "else" (n + 1)
    let start := streamMaybe scope init (n + 2)
    let m := start.2 + cond.logics
    let inner := freshIn scope "b" m
    let body := yes.stream ((c.within scope).within inner) (m + 1)
    let behind := freshIn scope "end" body.2
    let other := no.stream (c.within scope) (body.2 + 1)
    ([.enter scope] ++ start.1 ++ (cond.acts scope start.2 ++ [.jumpFalse otherwise]) ++
      ([.enter inner] ++ body.1 ++ [.leave]) ++ [.goto behind] ++ [.label otherwise] ++ other.1 ++ [.label behind] ++
      [.leave], other.2)
  | .loop init cond post body, c, n =>
    let scope := freshIn c.scope "b" n
    let top := freshIn scope "cond" (n + 1)
    let again := freshIn scope "cont" (n + 2)
    let behind := freshIn scope "end" (n + 3)
    let start := streamMaybe scope init (n + 4)
    let test := loopTest scope behind cond start.2
    let inner := freshIn scope "b" test.2
    let turn := body.stream (((c.within scope).loop behind again).within inner) (test.2 + 1)
    let next := streamMaybe scope post turn.2
    ([.enter scope] ++ start.1 ++ [.label top] ++ test.1 ++ ([.enter inner] ++ turn.1 ++ [.leave]) ++ [.label again] ++
      next.1 ++ [.goto top] ++ [.label behind] ++ [.leave], next.2)
  | .range key define limit body, c, n =>
    let scope := freshIn c.scope "b" n
    let m := n + 1 + limit.logics
    let again := freshIn scope "next" m
    let behind := freshIn scope "end" (m + 1)
    let inner := freshIn scope "b" (m + 2)
    let lap := body.stream (((c.within scope).loop behind again).within inner) (m + 3)
    ([.enter scope] ++ limit.acts scope (n + 1) ++ [.range] ++ [.label again] ++ [.next behind key none define] ++
      ([.enter inner] ++ lap.1 ++ [.leave]) ++ [.goto again] ++ [.label behind] ++ [.drop] ++ [.leave], lap.2)
  | .switch init tag clauses, c, n =>
    let scope := freshIn c.scope "b" n
    let start := streamMaybe scope init (n + 1)
    let kept := tagStream scope tag start.2
    let behind := freshIn scope "end" kept.2
    let tests := clauses.tests scope (tag.map fun _ => "#tag" ++ toString start.2) (kept.2 + 1)
    let labels := clauses.labels scope (kept.2 + 1)
    let bodies := clauses.bodies { c.within scope with brk := some behind } behind labels (kept.2 + 1 + clauses.width)
    ([.enter scope] ++ start.1 ++ kept.1 ++ tests ++ [.goto ((clauses.defaultLabel labels).getD behind)] ++ bodies.1 ++
      [.label behind] ++ [.leave], bodies.2)
  | .brk, c, n => ([.goto (c.brk.getD "")], n)
  | .cont, c, n => ([.goto (c.cont.getD "")], n)

def Block.stream : Block → Place → Nat → List Act × Nat
  | .nil, _, n => ([], n)
  | .cons first rest, c, n =>
    let start := first.stream c n
    let others := rest.stream c start.2
    (start.1 ++ others.1, others.2)

/-- The bodies of clauses with these labels. -/
def Clauses.bodies : Clauses → Place → (behind : String) → List String → Nat → List Act × Nat
  | .cons _ body rest, c, behind, label :: labels, n =>
    let scope := freshIn c.scope "b" n
    let inner := body.stream (c.within scope) (n + 1)
    let others := rest.bodies c behind labels inner.2
    ([.label label] ++ ([.enter scope] ++ inner.1 ++ [.leave]) ++ [.goto behind] ++ others.1, others.2)
  | _, _, _, _, n => ([], n)

end

/-! ## Lists of tokens -/

namespace Token

variable {t : Token} {ts us : List Token}

/-- Tokens of simple statements: no keyword, semicolon or colon, and parentheses are the only brackets. -/
def Plain : Token → Prop
  | .atom (.int _) _ | .atom (.ident _) _ | .atom (.op _) _ | .atom .comma _ | .group .paren _ _ => True
  | _ => False

theorem InExpr.plain (h : t.InExpr) : t.Plain := by
  cases t with
  | group d inner p => cases d <;> trivial
  | atom a p => cases a <;> trivial

/-- Expressions with commas between them are plain, and nothing is stored there. -/
theorem plain_of_inExpr (h : t.InExpr ∨ t.is .comma = true) :
    t.Plain ∧ ∀ op, op.isAssignment → t.is (.op op) = false := by
  cases t with
  | group d inner p => exact ⟨h.elim InExpr.plain nofun, fun _ _ => rfl⟩
  | atom a p =>
    cases a with
    | op o =>
      refine ⟨trivial, fun op ho => ?_⟩
      have : o.isAssignment = false := h.resolve_right nofun
      simp only [is, beq_eq_false_iff_ne, ne_eq, Atom.op.injEq]
      rintro rfl
      exact absurd ho (by simp [this])
    | _ => exact ⟨(by rcases h with h | h <;> trivial), fun _ _ => rfl⟩

theorem InExpr.is_comma (h : t.InExpr) : t.is .comma = false := is_eq_false h fun _ => id

theorem Plain.is_semicolon (h : t.Plain) : t.is .semicolon = false := is_eq_false h fun _ => id

theorem Plain.is_colon (h : t.Plain) : t.is .colon = false := is_eq_false h fun _ => id

end Token

/-! ## Expressions and names with commas -/

namespace Lexicon

variable {V : Lexicon} {e : Expr} {es : List Expr} {xs : List String} {ts : List Token}

theorem Writes.inExpr (h : V.Writes e ts) : ∀ t ∈ ts, t.InExpr ∨ t.is .comma = true :=
  fun t ht => .inl (h.forms.inExpr t ht)

theorem Lists.inExpr (h : V.Lists es ts) : ∀ t ∈ ts, t.InExpr ∨ t.is .comma = true := by
  induction h with
  | one h => exact h.inExpr
  | more h _ ih =>
    intro t ht
    rcases mem_append.mp ht with ht | ht
    · exact h.inExpr t ht
    · rcases mem_cons.mp ht with rfl | ht
      · exact .inr rfl
      · exact ih t ht

theorem Names.inExpr (h : V.Names xs ts) : ∀ t ∈ ts, t.InExpr ∨ t.is .comma = true := by
  induction h with
  | one => simp [Token.InExpr]
  | more _ _ ih => simpa [Token.InExpr, is] using ih

theorem Names.names (h : V.Names xs ts) : ∀ x ∈ xs, V.name x := by
  induction h with
  | one h => simpa using h
  | more h _ ih => exact forall_mem_cons.mpr ⟨h, ih⟩

theorem Names.head (h : V.Names xs ts) : ∃ x p us, ts = .atom (.ident x) p :: us := by
  cases h with
  | one | more => exact ⟨_, _, _, rfl⟩

theorem Lists.commaList (h : V.Lists es ts) : ∃ parts, Token.commaList ts = parts ∧ List.Forall₂ V.Writes es parts := by
  obtain ⟨parts, hp, hw, hn, hne⟩ : ∃ parts, Token.splitBy (·.is .comma) ts = parts ∧ List.Forall₂ V.Writes es parts ∧
      ts ≠ [] ∧ ∀ part ∈ parts, part ≠ [] := by
    induction h with
    | @one e ts h =>
      exact ⟨[ts], Token.splitBy_single fun t ht => (h.forms.inExpr t ht).is_comma, .cons h .nil, h.forms.ne_nil,
        by simpa using h.forms.ne_nil⟩
    | @more e es ts us p h _ ih =>
      obtain ⟨parts, hp, hw, -, hne⟩ := ih
      refine ⟨ts :: parts, ?_, .cons h hw, by simp, forall_mem_cons.mpr ⟨h.forms.ne_nil, hne⟩⟩
      rw [Token.splitBy_append (fun t ht => (h.forms.inExpr t ht).is_comma) rfl, hp]
  exact ⟨parts, Token.commaList_eq hp hn hne, hw⟩

theorem Names.commaList (h : V.Names xs ts) :
    (Token.commaList ts).mapM Shape.targetName? = some xs ∧ Token.commaList ts ≠ [] := by
  obtain ⟨parts, hp, hm, hn, hne, h0⟩ : ∃ parts, Token.splitBy (·.is .comma) ts = parts ∧
      parts.mapM Shape.targetName? = some xs ∧ ts ≠ [] ∧ (∀ part ∈ parts, part ≠ []) ∧ parts ≠ [] := by
    induction h with
    | @one x p h => exact ⟨[[.atom (.ident x) p]], rfl, rfl, by simp, by simp, by simp⟩
    | @more x xs ts p q h _ ih =>
      obtain ⟨parts, hp, hm, -, hne, -⟩ := ih
      refine ⟨[.atom (.ident x) p] :: parts, ?_, ?_, by simp, forall_mem_cons.mpr ⟨by simp, hne⟩, by simp⟩
      · rw [show Token.atom (.ident x) p :: .atom .comma q :: ts = [.atom (.ident x) p] ++
          .atom .comma q :: ts from rfl,
          Token.splitBy_append (by simp [Token.is]) rfl, hp]
      · simp [mapM_cons, hm, Shape.targetName?]
  rw [Token.commaList_eq hp hn hne]
  exact ⟨hm, h0⟩

end Lexicon

namespace Shape

variable {V : Lexicon} {e : Expr} {es : List Expr} {ts : List Token} {d : Nat}

/-- An expression's tokens give its steps. -/
theorem yields_expr (h : V.Writes e ts) (hd : nestings ts ≤ d) (c : Place) (n : Nat) :
    Yields (exprWith (.upTo d) c ts) n (Gives (e.acts c.scope n, n + e.logics)) :=
  yields_acts h.forms hd c n

theorem yields_exprs {parts : List (List Token)} (h : List.Forall₂ V.Writes es parts)
    (hd : ∀ part ∈ parts, nestings part ≤ d) (c : Place) (n : Nat) :
    Yields (exprs (.upTo d) c parts) n (Gives (actsAll c.scope es n, n + logicsAll es)) := by
  have hl : Yields (exprList (.upTo d) c parts) n fun lists m =>
      Gives (actsAll c.scope es n, n + logicsAll es) lists.flatten m := by
    induction h generalizing n with
    | nil => exact .ret ⟨rfl, rfl⟩
    | @cons e part es parts he _ ih =>
      refine .bind (yields_expr he (hd part (.head _)) c n) ?_
      rintro steps m ⟨hs, rfl⟩
      refine .bind (ih (fun p hp => hd p (.tail _ hp)) _) ?_
      rintro lists m ⟨hs', rfl⟩
      refine .ret ⟨?_, ?_⟩
      · rw [flatten_cons, map_append, hs, hs']
        rfl
      · rw [logicsAll, Nat.add_assoc]
  exact .bind hl fun lists m h => .ret h

/-! ## Assignments -/

/-- An assignment splits at its operator. -/
theorem splitAssignment?_append {op : Operator} {p : Pos} {us : List Token} (ho : op.isAssignment = true)
    (h : ∀ t ∈ ts, t.InExpr ∨ t.is .comma = true) :
    splitAssignment? (ts ++ .atom (.op op) p :: us) = some (ts, op, p, us) := by
  induction ts with
  | nil => rw [nil_append, splitAssignment?, if_pos ho]
  | cons t ts ih =>
    have ih := ih fun u hu => h u (.tail _ hu)
    rw [cons_append]
    cases t with
    | group d inner q => simp only [splitAssignment?, ih, Option.map_some]
    | atom a q =>
      cases a with
      | op o =>
        have : o.isAssignment = false := (h _ (.head _)).resolve_right Bool.false_ne_true
        simp only [splitAssignment?, this, ih, Option.map_some]
        rfl
      | _ => simp only [splitAssignment?, ih, Option.map_some]

end Shape

namespace Shape

variable {V : Lexicon} {a : Assignment} {inside : Inside} {c : Place} {ts us : List Token} {d : Nat} {p : Pos}
  {op : Operator}

theorem simpleStatement_assigns (ho : op = .assign ∨ op = .define) (h : ∀ t ∈ ts, t.InExpr ∨ t.is .comma = true) :
    simpleStatement inside c (ts ++ .atom (.op op) p :: us) = assignAll inside c ts us op p := by
  have hs : splitAssignment? (ts ++ .atom (.op op) p :: us) = some (ts, op, p, us) :=
    splitAssignment?_append (by rcases ho with rfl | rfl <;> rfl) h
  unfold simpleStatement
  rw [hs]
  rcases ho with rfl | rfl <;> cases ts <;> rfl

theorem nestings_of_mem_commaList {part : List Token} (h : part ∈ commaList ts) :
    nestings part ≤ nestings ts :=
  nestings_le_of_subset fun _ ht => mem_of_mem_splitBy (mem_splitBy_of_mem_commaList h) ht

/-- Values first, then the stores. -/
theorem yields_assignAll {pairs : List (String × Expr)} (hn : V.Names (pairs.map (·.1)) ts)
    (he : V.Lists (pairs.map (·.2)) us) (hd : nestings us ≤ d) (c : Place) (n : Nat) :
    Yields (assignAll (.upTo d) c ts us op p) n fun r m =>
      r.1 = .assign ((pairs.map (·.1)).getLast?.bind readable) ∧
        Gives ((⟨if op = .define then .define else .assign, pairs⟩ : Assignment).stream c.scope n) r.2 m := by
  obtain ⟨hm, h0⟩ := hn.commaList
  obtain ⟨parts, hp, hw⟩ := he.commaList
  have hlen : parts.length = pairs.length := by rw [← hw.length_eq, length_map]
  have hpart : ∀ part ∈ parts, nestings part ≤ d := fun part h =>
    Nat.le_trans (nestings_of_mem_commaList (hp ▸ h)) hd
  have h1 : ¬(parts.isEmpty || (commaList ts).isEmpty) = true := by
    have : parts ≠ [] := by
      intro h
      have hp0 : pairs = [] := length_eq_zero_iff.mp (by rw [← hlen, h]; rfl)
      rw [hp0] at he
      cases he
    simp [this, h0]
  unfold assignAll
  rw [hp, if_neg h1, hm]
  dsimp only
  rw [if_neg (by simp [hlen])]
  refine .bind (yields_exprs hw hpart c n) ?_
  rintro steps m ⟨hs, rfl⟩
  refine .ret ⟨rfl, ?_, rfl⟩
  rw [map_append]
  congr 1
  rw [map_flatMap]
  split <;> rfl

theorem simpleStatement_steps (ho : op = .inc ∨ op = .dec) (x : String) (q : Pos) :
    simpleStatement inside c [.atom (.ident x) q, .atom (.op op) p] =
      assignTarget inside c [.atom (.ident x) q] [.atom (.int 1) p] op.compoundBase? p := by
  rcases ho with rfl | rfl <;> rfl

theorem simpleStatement_compound {base : Operator} (ho : (op, base) ∈ [(Operator.addAssign, Operator.add),
    (.subAssign, .sub), (.mulAssign, .mul), (.quoAssign, .quo), (.remAssign, .rem)]) {e : Expr} (he : V.Writes e us)
    (x : String) (q : Pos) : simpleStatement inside c (.atom (.ident x) q :: .atom (.op op) p :: us) =
      assignTarget inside c [.atom (.ident x) q] us (some base) p := by
  obtain ⟨parts, hp, hw⟩ := (Lexicon.Lists.one he).commaList
  have h1 : ¬((Token.commaList [.atom (.ident x) q]).length ≠ 1 ∨ (Token.commaList us).length ≠ 1) := by
    rw [hp, ← hw.length_eq]
    simp [Token.commaList, Token.splitBy, Token.is]
  have hs : splitAssignment? ([.atom (.ident x) q] ++ .atom (.op op) p :: us) =
    some ([.atom (.ident x) q], op, p, us) := by
    refine splitAssignment?_append ?_ (by simp [Token.InExpr])
    revert ho
    cases op <;> simp [Operator.isAssignment]
  unfold simpleStatement
  simp only [mem_cons, Prod.mk.injEq, not_mem_nil, or_false] at ho
  rcases ho with ⟨rfl, rfl⟩ | ⟨rfl, rfl⟩ | ⟨rfl, rfl⟩ | ⟨rfl, rfl⟩ | ⟨rfl, rfl⟩ <;>
    exact if_neg h1

/-- A compound assignment reads its target first. -/
theorem yields_assignTarget {base : Operator} (hb : isLogic base = false) {e : Expr} (he : V.Writes e us)
    (hd : nestings us ≤ d) (x : String) (q : Pos) (c : Place) (n : Nat) :
    Yields (assignTarget (.upTo d) c [.atom (.ident x) q] us (some base) p) n fun r m =>
      r.1 = .assign (readable x) ∧
        Gives ((⟨.assign, [(x, .binary base (.var x) e)]⟩ : Assignment).stream c.scope n) r.2 m := by
  have hstored : Yields (stored (.upTo d) c us (some base) p) n
    (Gives (e.acts c.scope n ++ [.binary base], n + e.logics)) := by
    refine .bind (yields_expr he hd c n) ?_
    rintro steps m ⟨hs, rfl⟩
    exact .ret ⟨by rw [map_append, hs]; rfl, rfl⟩
  have hw : width base = 0 := by rw [width, hb]; rfl
  have hi : ∀ l, between base l = [] ∧ behind base l = .binary base := by
    intro l
    cases base <;> first | exact ⟨rfl, rfl⟩ | cases hb
  show Yields (stored (.upTo d) c us (some base) p >>= _) n _
  refine .bind hstored ?_
  rintro steps m ⟨hs, rfl⟩
  refine .ret ⟨rfl, ?_, ?_⟩
  · simp only [stream, values, targets, stores, actsAll, acts, hi,
      logics, hw, Nat.add_zero, map_append, map_cons, map_nil, hs]
    simp
  · simp [stream, values, logicsAll, logics, hw]

end Shape

namespace Assignment

variable {V : Lexicon} {a : Assignment} {ts : List Token}

theorem Simple.ne_nil (h : a.Simple V ts) : ts ≠ [] := by cases h <;> simp

theorem Simple.plain (h : a.Simple V ts) : ∀ t ∈ ts, t.Plain := by
  have hin : ∀ {us : List Token}, (∀ t ∈ us, t.InExpr ∨ t.is .comma = true) → ∀ t ∈ us, t.Plain :=
    fun h t ht => (plain_of_inExpr (h t ht)).1
  intro t ht
  cases h with
  | define hn he | assign hn he =>
    rcases mem_append.mp ht with ht | ht
    · exact hin hn.inExpr t ht
    · rcases mem_cons.mp ht with rfl | ht
      · trivial
      · exact hin he.inExpr t ht
  | compound _ _ he =>
    rcases mem_cons.mp ht with rfl | ht
    · trivial
    · rcases mem_cons.mp ht with rfl | ht
      · trivial
      · exact hin he.inExpr t ht
  | step =>
    simp only [mem_cons, not_mem_nil, or_false] at ht
    rcases ht with rfl | rfl <;> trivial

theorem Simple.is_define (h : a.Simple V ts) (hk : a.kind = .assign) : ts.any (·.is (.op .define)) = false := by
  have hin : ∀ {us : List Token}, (∀ t ∈ us, t.InExpr ∨ t.is .comma = true) → us.any (·.is (.op .define)) = false :=
    fun h => any_eq_false.mpr fun t ht => by rw [(plain_of_inExpr (h t ht)).2 _ rfl]; exact nofun
  cases h with
  | define => cases hk
  | assign hn he => rw [any_append, any_cons, hin hn.inExpr, hin he.inExpr]; rfl
  | @compound op base _ _ _ p q ho _ he =>
    have : (atom (.op op) q).is (.op .define) = false := by revert ho; cases op <;> simp [is]
    rw [any_cons, any_cons, hin he.inExpr, this]
    rfl
  | @step op base _ p q ho =>
    have : (atom (.op op) q).is (.op .define) = false := by revert ho; cases op <;> simp [is]
    rw [any_cons, any_cons, this]
    rfl

theorem Simple.names (h : a.Simple V ts) : ∀ x ∈ a.targets, V.name x := by
  cases h with
  | define hn _ | assign hn _ => exact hn.names
  | compound _ hx _ | step _ hx => simpa [targets] using hx

open Shape in
/-- A simple statement gives its steps. -/
theorem Simple.shapes (h : a.Simple V ts) {d : Nat} (hd : nestings ts ≤ d) (c : Place) (n : Nat) :
    Yields (simpleStatement (.upTo d) c ts) n fun r m =>
      r.1 = .assign (a.targets.getLast?.bind readable) ∧ Gives (a.stream c.scope n) r.2 m := by
  cases h with
  | define hn he =>
    rw [simpleStatement_assigns (.inr rfl) hn.inExpr]
    exact yields_assignAll hn he (nestings_le_of_cons (nestings_le_of_append hd).2).2 c n
  | assign hn he =>
    rw [simpleStatement_assigns (.inl rfl) hn.inExpr]
    exact yields_assignAll hn he (nestings_le_of_cons (nestings_le_of_append hd).2).2 c n
  | @compound op base x e ts p q ho hx he =>
    rw [simpleStatement_compound ho he]
    refine yields_assignTarget ?_ he (nestings_le_of_cons (nestings_le_of_cons hd).2).2 x p c n
    revert ho
    cases base <;> simp [isLogic]
  | @step op base x p q ho hx =>
    have hone : V.Writes (.int 1) [.atom (.int 1) q] :=
      ⟨(Expr.Forms.leaf (Alphabet.TokenLeaf.int 1 (by decide) q)).loosened (by decide), fun x hx =>
        absurd hx not_mem_nil⟩
    have hbase : op.compoundBase? = some base ∧ (op = .inc ∨ op = .dec) ∧ isLogic base = false := by
      simp only [mem_cons, Prod.mk.injEq, not_mem_nil, or_false] at ho
      rcases ho with ⟨rfl, rfl⟩ | ⟨rfl, rfl⟩
      · exact ⟨rfl, .inl rfl, rfl⟩
      · exact ⟨rfl, .inr rfl, rfl⟩
    rw [simpleStatement_steps hbase.2.1, hbase.1]
    exact yields_assignTarget hbase.2.2 hone (Nat.zero_le d) x p c n

end Assignment

/-! ## Declarations -/

namespace Shape

variable {V : Lexicon} {xs : List String} {ns rest : List Token}

theorem declNames_names (h : V.Names xs ns) (hr : ∀ t ∈ rest.head?, t.is .comma = false) (p : Pos) :
    declNames p (ns ++ rest) = .ok (xs, rest) := by
  induction h with
  | @one x q h =>
    cases rest with
    | nil => rfl
    | cons t rest =>
      have := hr t rfl
      cases t with
      | group => rfl
      | atom a r => cases a <;> first | rfl | cases this
  | @more x xs ns q r h _ ih =>
    show (declNames p (ns ++ rest) >>= _) = _
    rw [ih]
    rfl

/-- The type that may stand behind the names of a declaration. -/
inductive Typing : Option String → List Token → Prop
  | none : Typing none []
  | some {ty : String} {p : Pos} : Typing (some ty) [.atom (.ident ty) p]

theorem ValueSpec.read_eq {ty : Option String} {us ts : List Token} {q : Pos} (hn : V.Names xs ns) (ht : Typing ty us)
    (p : Pos) : ValueSpec.read p (ns ++ us ++ .atom (.op .assign) q :: ts) =
      .ok ⟨xs, ty.map .name, some (commaList ts)⟩ := by
  have hleft : ∀ t ∈ ns ++ us, (!t.is (.op .assign)) = true := by
    intro t h
    rcases mem_append.mp h with h | h
    · rw [(plain_of_inExpr (hn.inExpr t h)).2 _ rfl]
      rfl
    · cases ht with
      | none => cases h
      | some => rw [mem_singleton.mp h]; rfl
  have htake : (ns ++ us ++ .atom (.op .assign) q :: ts).takeWhile (!·.is (.op .assign)) = ns ++ us := by
    rw [takeWhile_append_of_pos hleft, takeWhile_cons_of_neg (by simp [is]), append_nil]
  unfold ValueSpec.read
  rw [htake]
  dsimp only
  rw [drop_left]
  cases ht with
  | none =>
    rw [declNames_names hn (by simp)]
    rfl
  | some =>
    rw [declNames_names hn (by simp [is])]
    rfl

end Shape

namespace Assignment

variable {V : Lexicon} {a : Assignment} {ts : List Token}

open Shape in
/-- A declaration has names, a type if there is one, and values. -/
theorem Spec.parts (h : a.Spec V ts) : ∃ ty ns us q vs, a.kind = .declare ty ∧ V.Names a.targets ns ∧
    Typing ty us ∧ V.Lists a.values vs ∧ ts = ns ++ us ++ .atom (.op .assign) q :: vs := by
  cases h with
  | @untyped pairs ns vs q hn he => exact ⟨none, ns, [], q, vs, rfl, hn, .none, he, by rw [append_nil]⟩
  | @typed pairs ty ns vs q r hn ht he =>
    exact ⟨some ty, ns, [.atom (.ident ty) r], q, vs, rfl, hn, .some, he, by rw [append_assoc]; rfl⟩

theorem Spec.head (h : a.Spec V ts) : ∃ x p us, ts = .atom (.ident x) p :: us := by
  obtain ⟨ty, ns, us, q, vs, -, hn, -, -, rfl⟩ := h.parts
  obtain ⟨x, p, ms, rfl⟩ := hn.head
  exact ⟨x, p, _, rfl⟩

open Shape in
/-- One line of a `var` declaration. -/
theorem Spec.shapes (h : a.Spec V ts) {d : Nat} (hd : nestings ts ≤ d) (c : Place) (n : Nat) :
    Yields (varSpec (.upTo d) c ts) n (Gives (a.stream c.scope n)) := by
  obtain ⟨ty, ns, us, q, vs, hk, hn, ht, he, rfl⟩ := h.parts
  obtain ⟨parts, hp, hw⟩ := he.commaList
  have hd : ∀ part ∈ parts, nestings part ≤ d := fun part hm =>
    Nat.le_trans (nestings_of_mem_commaList (hp ▸ hm)) (nestings_le_of_cons (nestings_le_of_append hd).2).2
  have hlen : parts.length = a.targets.length := by
    rw [← hw.length_eq, values, targets, length_map, length_map]
  refine .last fun p => .lift (ValueSpec.read_eq hn ht) ?_
  dsimp only
  rw [hp, if_neg (by simp [hlen])]
  refine .bind (yields_exprs hw hd c n) ?_
  rintro steps m ⟨hs, rfl⟩
  refine .ret ⟨?_, rfl⟩
  rw [map_append, hs]
  unfold stream
  rw [hk, map_map]
  rfl

open Shape in
/-- A `var` group is its lines in a row. -/
theorem Spec.shapesAll {as : List Assignment} {parts : List (List Token)} (h : List.Forall₂ (Spec V) as parts) {d : Nat}
    (hd : ∀ part ∈ parts, nestings part ≤ d) (c : Place) (n : Nat) :
    Yields (varSpecs (.upTo d) c parts) n (Gives (streamAll c.scope as n)) := by
  induction h generalizing n with
  | nil => exact .ret ⟨rfl, rfl⟩
  | cons h _ ih =>
    refine .bind (h.shapes (hd _ (.head _)) c n) ?_
    rintro steps m ⟨hs, rfl⟩
    refine .bind (ih (fun part hp => hd part (.tail _ hp)) _) ?_
    rintro rest m ⟨hs', rfl⟩
    exact .ret ⟨by rw [map_append, hs, hs']; rfl, rfl⟩

end Assignment

end Goblet
