import Goblet.Proofs.Stream.Order

/-!
# Shaping an expression

The steps of tokens that write a scalar expression do what `Expr.acts` says, for it is one among all expressions
(`Expr.term`, `Expr.acts_term`).
-/

namespace Goblet

open List Alphabet Token

/-! ## What the steps of an expression do -/

namespace Expr

/-- How many labels an expression needs. -/
def logics : Expr → Nat
  | .int _ | .bool _ | .var _ => 0
  | .unary _ e => e.logics
  | .binary op a b => a.logics + width op + b.logics

/-- What the steps of an expression do, with labels numbered from `n`. -/
def acts (scope : String) : (n : Nat) → Expr → List Act
  | _, .int k => [.atom (.int (Int64.ofNat k))]
  | _, .bool b => [.ident (Act.flagText b)]
  | _, .var x => [.ident x]
  | n, .unary op e => acts scope n e ++ [.unary op]
  | n, .binary op a b =>
    let label := freshIn scope "x" (n + a.logics)
    acts scope n a ++ between op label ++ acts scope (n + a.logics + width op) b ++ [behind op label]

/-- The expression as one among all. -/
def term : Expr → Term
  | .int k => .leaf (.int (Int64.ofNat k)) trivial
  | .bool b => .leaf (.ident (Act.flagText b)) trivial
  | .var x => .leaf (.ident x) trivial
  | .unary op e => .unary op e.term
  | .binary op a b => .binary op a.term b.term

theorem acts_term (scope : String) (e : Expr) (n : Nat) : e.term.acts scope n = (e.acts scope n, n + e.logics) := by
  induction e generalizing n with
  | int | bool | var => simp [term, Term.acts, acts, logics, Act.ident]
  | unary op e ih => simp [term, Term.acts, acts, logics, ih]
  | binary op a b iha ihb => simp [term, Term.acts, acts, logics, iha, ihb, Nat.add_assoc]

variable {ts : List Token}

theorem Forms.writes {k : Nat} {e : Expr} (h : Forms tokens k e ts) : Term.Writes (.expr k e.term) ts := by
  induction h with
  | leaf h => cases h <;> exact .leaf
  | paren _ hp ih =>
    obtain ⟨inner, p, hw, rfl⟩ := hp
    exact .paren ih hw
  | @unary op _ _ _ ho hw _ ih =>
    obtain ⟨p, rfl⟩ := hw
    exact .unary (by revert ho; cases op <;> decide) ih
  | binary ho hw _ _ iha ihb =>
    obtain ⟨p, rfl⟩ := hw
    exact .binary ho iha ihb
  | looser _ ih => exact .looser ih

theorem Forms.ne_nil {k : Nat} {e : Expr} (h : Forms tokens k e ts) : ts ≠ [] :=
  (h.writes.reads .chunk (Nat.le_refl _)).1.1

end Expr

variable {e : Expr} {ts : List Token} {d : Nat} {t : Token}

theorem Shape.yields_acts (h : Expr.Forms tokens 1 e ts)
    (hd : nestings ts ≤ d) (c : Place) (n : Nat) :
    Yields (exprWith (.upTo d) c ts) n (Gives (e.acts c.scope n, n + e.logics)) :=
  e.acts_term c.scope n ▸ yields_term h.writes hd c n

/-! ## A chunk that is an expression -/

namespace Token

/-- Tokens that stand in expressions outside parentheses. -/
def InExpr : Token → Prop
  | .atom (.int _) _ | .atom (.ident _) _ | .group .paren _ _ => True
  | .atom (.op op) _ => op.isAssignment = false
  | _ => False

theorem is_eq_false {P : Token → Prop} {a : Atom} (h : P t) (ha : ∀ p, ¬P (.atom a p)) :
    t.is a = false := by
  cases t with
  | group d inner p => rfl
  | atom b p =>
    refine beq_eq_false_iff_ne.mpr ?_
    rintro rfl
    exact ha p h

end Token

theorem Expr.Forms.inExpr {k : Nat} (h : Forms tokens k e ts) : ∀ t ∈ ts, t.InExpr := by
  have hop : ∀ {op : Operator}, op ∈ signs ∨ (level? op).isSome → op.isAssignment = false := by
    intro op h
    cases op <;> first | rfl | exact absurd h (by decide)
  induction h with
  | leaf h =>
    intro t ht
    rw [mem_singleton.mp ht]
    cases h <;> trivial
  | paren _ hp =>
    obtain ⟨inner, p, -, rfl⟩ := hp
    intro t ht
    rw [mem_singleton.mp ht]
    trivial
  | unary ho hw _ ih =>
    obtain ⟨p, rfl⟩ := hw
    intro t ht
    rcases mem_cons.mp ht with rfl | ht
    · exact hop (.inl ho)
    · exact ih t ht
  | binary ho hw _ _ iha ihb =>
    obtain ⟨p, rfl⟩ := hw
    intro t ht
    rcases mem_append.mp ht with ht | ht
    · exact iha t ht
    · rcases mem_cons.mp ht with rfl | ht
      · exact hop (.inr (by rw [ho]; rfl))
      · exact ihb t ht
  | looser _ ih => exact ih

namespace Shape

theorem splitAssignment?_eq_none : ∀ {ts : List Token}, (∀ t ∈ ts, t.InExpr) → splitAssignment? ts = none
  | [], _ => rfl
  | t :: ts, h => by
    have ih := splitAssignment?_eq_none fun u hu => h u (.tail _ hu)
    have ht := h t (.head _)
    cases t with
    | group d inner p => simp only [splitAssignment?, ih, Option.map_none]
    | atom a p =>
      cases a with
      | op o => simp only [splitAssignment?, show o.isAssignment = false from ht, ih]; rfl
      | _ => simp only [splitAssignment?, ih, Option.map_none]

theorem statement_simple (inside : Inside) (c : Place) (rest : List Token) (s : ShapeState)
    {line : List Token} (ht : t.InExpr) (hl : ∀ u ∈ line, u.is .semicolon = false)
    (hn : ∀ u ∈ line.head?, u.is .colon = false) (q : Pos) :
    statement inside c t (line ++ .atom .semicolon q :: rest) s = (do
      return (line.length + 1, ← simpleStatement inside c (t :: line)) : Shape (Nat × Outcome × List Step))
        { s with last := t.pos } := by
  have htake : (line ++ .atom .semicolon q :: rest).takeWhile (!·.is .semicolon) = line := by
    rw [takeWhile_append_of_pos fun u hu => by rw [hl u hu]; rfl, takeWhile_cons_of_neg (by simp [is])]
    exact append_nil _
  unfold statement
  rw [seq_eq (show look t.pos s = .ok () { s with last := t.pos } from rfl), htake]
  cases t with
  | group d inner p =>
    cases d <;> first | rfl | cases ht
  | atom a p =>
    cases a with
    | ident x =>
      cases line with
      | nil => rfl
      | cons u line =>
        have hu := hn u rfl
        cases u with
        | group d inner r => rfl
        | atom b r => cases b <;> first | rfl | cases hu
    | keyword => cases ht
    | _ => rfl

theorem inExpr_is (h : t.InExpr) : t.is .semicolon = false ∧ t.is .colon = false :=
  ⟨is_eq_false h fun _ => id, is_eq_false h fun _ => id⟩

variable {ts : List Token}

/-- An expression on its own leaves nothing behind, in the middle of a chunk. -/
theorem simpleStatement_expr (h : Expr.Forms tokens 1 e ts)
    (hd : nestings ts ≤ d) (c : Place) (s : ShapeState) : ∃ p steps q s',
      simpleStatement (.upTo d) c ts s = .ok (.expr, ⟨.mark, p⟩ :: steps ++ [⟨.discard, q⟩]) s' ∧
      steps.map At.val = e.acts c.scope s.labels ∧ s'.labels = s.labels + e.logics ∧ s'.hoisted = s.hoisted := by
  obtain ⟨steps, s', he, hh, ha, hl⟩ := yields_acts h hd c s.labels s rfl
  cases ts with
  | nil => exact absurd rfl h.ne_nil
  | cons t ts =>
    refine ⟨t.pos, steps, s'.last, s', ?_, ha, hl, hh⟩
    unfold simpleStatement
    rw [splitAssignment?_eq_none h.inExpr]
    dsimp only
    rw [seq_eq he]
    rfl

theorem statementsFrom_skip {inside : Inside} {c : Place} (ts rest : List Token) :
    statementsFrom inside c (ts ++ rest) ts.length = statementsFrom inside c rest 0 := by
  induction ts with
  | nil => rfl
  | cons t ts ih => exact ih

theorem statementsFrom_expr (h : Expr.Forms tokens 1 e ts)
    (hd : nestings ts ≤ d) (q : Pos) (c : Place) (s : ShapeState) : ∃ p steps q' s',
      statementsFrom (.upTo d) c (ts ++ [.atom .semicolon q]) 0 s =
        .ok [(.expr, ⟨.mark, p⟩ :: steps ++ [⟨.discard, q'⟩])] s' ∧
      steps.map At.val = e.acts c.scope s.labels ∧ s'.labels = s.labels + e.logics ∧ s'.hoisted = s.hoisted := by
  have hall := h.inExpr
  cases ts with
  | nil => exact absurd rfl h.ne_nil
  | cons t ts =>
    obtain ⟨p, steps, q', s', hs, ha, hl, hh⟩ := simpleStatement_expr h hd c { s with last := t.pos }
    refine ⟨p, steps, q', s', ?_, ha, hl, hh⟩
    have hst := statement_simple (.upTo d) c [] s (hall t (.head _))
      (fun u hu => (inExpr_is (hall u (.tail _ hu))).1)
      (fun u hu => (inExpr_is (hall u (.tail _ (mem_of_mem_head? hu)))).2) q
    rw [seq_eq hs] at hst
    rw [cons_append, statementsFrom, if_neg (by rw [(inExpr_is (hall t mem_cons_self)).1]; exact nofun),
      seq_eq hst]
    dsimp only
    rw [Nat.add_sub_cancel, statementsFrom_skip]
    rfl

end Shape

theorem Stream.chunkSteps_expr (h : Expr.Forms tokens 1 e ts) (q : Pos) (n : Nat) :
    ∃ steps s', chunkSteps (ts ++ [.atom .semicolon q]) (start n) = .ok steps s' ∧
      steps.map At.val = e.acts Place.mainScope n ∧ s'.labels = n + e.logics := by
  have hd : nestings ts ≤ nestings (ts ++ [.atom .semicolon q]) := by
    rw [nestings_append]
    exact Nat.le_max_left ..
  obtain ⟨p, steps, q', s', hs, ha, hl, hh⟩ := Shape.statementsFrom_expr h hd q .chunk (start n)
  refine ⟨steps, s', ?_, ha, hl⟩
  unfold chunkSteps
  rw [seq_eq hs, get_seq, hh]
  show EStateM.Result.ok (List.dropLast (steps ++ [⟨.discard, q'⟩])) s' = _
  rw [dropLast_concat]

end Goblet
