import Mathlib.Data.List.TakeDrop
import Goblet.Proofs.Scalar.Grammar
import Goblet.Stream.Chunk

/-!
# The order of an expression

`Term.acts` is what the steps of an expression do: operands before their operator, arguments before the callee, what is
indexed before the index, and `&&` and `||` as a jump over the right operand to a label behind it. Labels are numbered
in the order in which the parts are written, so those of a callee come before those of its arguments. `Writes` says
which tokens write an expression, with parentheses at least where precedence and grouping to the left need them.

Main statement: the steps of tokens that write an expression do what the expression does (`Shape.yields_term`). Between
tokens the shaper holds operators that wait. Those that the tokens of an expression leave waiting bind at least as
tightly as the expression is written, so that one more operator takes just them off (`Shape.Shapes`). An operand is
read from the left, and what stands behind it goes on from its steps (`Shape.Operand`).
-/

namespace Goblet

open List Goblet.Expr Pending Token

/-- A fresh name in a scope. -/
def freshIn (scope tag : String) (n : Nat) : String := scope ++ "/" ++ ("#" ++ tag ++ toString n)

namespace Expr

/-- Whether an operator may do without its right operand. -/
def isLogic (op : Operator) : Bool := op == .land || op == .lor

/-- How many labels an operator needs. -/
def width (op : Operator) : Nat := if isLogic op then 1 else 0

/-- What stands between the operands of an operator. -/
def between (op : Operator) (label : String) : List Act :=
  match op with
  | .land => [.jumpSetFalse label]
  | .lor => [.jumpSetTrue label]
  | _ => []

/-- What stands behind the operands of an operator. -/
def behind (op : Operator) (label : String) : Act := if isLogic op then .label label else .binary op

end Expr

/-- A literal or a name. -/
def Atom.IsOperand : Atom → Prop
  | .int _ | .float _ | .str _ | .ident _ => True
  | _ => False

/-- Expressions: literals and names, operators, and what may stand behind an operand. -/
inductive Term where
  | leaf (a : Atom) (h : a.IsOperand)
  | unary (op : Operator) (e : Term)
  | binary (op : Operator) (a b : Term)
  | field (e : Term) (name : String)
  | index (e i : Term)
  | slice (e : Term) (low high : Option Term)
  | call (f : Term) (args : List Term) (spread : Bool)

namespace Term

mutual

/-- What the steps of an expression do, with labels numbered from `n`, and the number of the next label. -/
def acts (scope : String) : Term → (n : Nat) → List Act × Nat
  | .leaf a _, n => ([.atom a], n)
  | .unary op e, n =>
    let x := acts scope e n
    (x.1 ++ [.unary op], x.2)
  | .binary op a b, n =>
    let x := acts scope a n
    let y := acts scope b (x.2 + width op)
    let label := freshIn scope "x" x.2
    (x.1 ++ between op label ++ y.1 ++ [behind op label], y.2)
  | .field e name, n =>
    let x := acts scope e n
    (x.1 ++ [.field name], x.2)
  | .index e i, n =>
    let x := acts scope e n
    let y := acts scope i x.2
    (x.1 ++ y.1 ++ [.index], y.2)
  | .slice e low high, n =>
    let x := acts scope e n
    let y := actsMaybe scope low x.2
    let z := actsMaybe scope high y.2
    (x.1 ++ y.1 ++ z.1 ++ [.slice low.isSome high.isSome], z.2)
  | .call f args spread, n =>
    let x := acts scope f n
    let y := actsAll scope args x.2
    (y.1 ++ x.1 ++ [.call args.length spread], y.2)

def actsMaybe (scope : String) : Option Term → (n : Nat) → List Act × Nat
  | none, n => ([], n)
  | some e, n => acts scope e n

def actsAll (scope : String) : List Term → (n : Nat) → List Act × Nat
  | [], n => ([], n)
  | e :: es, n =>
    let x := acts scope e n
    let y := actsAll scope es x.2
    (x.1 ++ y.1, y.2)

end

/-- The operators before an operand. -/
def prefixes : List Operator := [.add, .sub, .not, .xor, .and, .mul]

/-- What tokens can write. -/
inductive Item where
  /-- An expression in which every operator outside parentheses binds at least as tightly as `k`, which is 7 for an
  operand and 6 for one with operators before it. -/
  | expr (k : Nat) (e : Term)
  | args (es : List Term) (spread : Bool)
  | bound (e : Option Term)

/-- The way expressions are written. A line end between brackets means nothing. -/
inductive Writes : Item → List Token → Prop
  | leaf {a h p} : Writes (.expr 7 (.leaf a h)) [.atom a p]
  | paren {e us inner p} (he : Writes (.expr 1 e) us) (hw : withoutSemicolons inner = us) :
      Writes (.expr 7 e) [.group .paren inner p]
  | field {e name ts p q} (he : Writes (.expr 7 e) ts) :
      Writes (.expr 7 (.field e name)) (ts ++ [.atom .dot p, .atom (.ident name) q])
  | index {e i ts us inner p} (he : Writes (.expr 7 e) ts) (hi : Writes (.expr 1 i) us)
      (hw : withoutSemicolons inner = us) : Writes (.expr 7 (.index e i)) (ts ++ [.group .bracket inner p])
  | slice {e low high ts us vs inner p q} (he : Writes (.expr 7 e) ts) (hl : Writes (.bound low) us)
      (hh : Writes (.bound high) vs) (hw : withoutSemicolons inner = us ++ .atom .colon q :: vs) :
      Writes (.expr 7 (.slice e low high)) (ts ++ [.group .bracket inner p])
  | call {f es spread ts us inner p} (hf : Writes (.expr 7 f) ts) (hs : Writes (.args es spread) us)
      (hw : withoutSemicolons inner = us) : Writes (.expr 7 (.call f es spread)) (ts ++ [.group .paren inner p])
  | unary {op e ts p} (ho : op ∈ prefixes) (he : Writes (.expr 6 e) ts) :
      Writes (.expr 6 (.unary op e)) (.atom (.op op) p :: ts)
  | binary {op k a b ts us p} (ho : level? op = some k) (ha : Writes (.expr k a) ts)
      (hb : Writes (.expr (k + 1) b) us) : Writes (.expr k (.binary op a b)) (ts ++ .atom (.op op) p :: us)
  | looser {k e ts} (he : Writes (.expr (k + 1) e) ts) : Writes (.expr k e) ts
  | absent : Writes (.bound none) []
  | present {e ts} (he : Writes (.expr 1 e) ts) : Writes (.bound (some e)) ts
  | noArgs : Writes (.args [] false) []
  | lastArg {e ts} (he : Writes (.expr 1 e) ts) : Writes (.args [e] false) ts
  | spreadArg {e ts p} (he : Writes (.expr 1 e) ts) : Writes (.args [e] true) (ts ++ [.atom .ellipsis p])
  | moreArgs {e e' es spread ts us p} (he : Writes (.expr 1 e) ts) (hs : Writes (.args (e' :: es) spread) us) :
      Writes (.args (e :: e' :: es) spread) (ts ++ .atom .comma p :: us)

end Term

/-! ## Shaping with fresh names -/

namespace Shape

/-- Shaping succeeds with fresh names from `n`, and the result and the number of the next fresh name satisfy `Q`.
Nothing goes to the head of the chunk. -/
def Yields (x : Shape α) (n : Nat) (Q : α → Nat → Prop) : Prop :=
  ∀ s : ShapeState, s.labels = n → ∃ a s', x s = .ok a s' ∧ s'.hoisted = s.hoisted ∧ Q a s'.labels

/-- The steps and the next number are those of a stream. -/
def Gives (r : List Act × Nat) (steps : List Step) (n : Nat) : Prop := steps.map At.val = r.1 ∧ n = r.2

variable {α β : Type} {x : Shape α} {k : α → Shape β} {n : Nat} {Q : α → Nat → Prop} {R : β → Nat → Prop} {c : Place}
  {a : α} {tag : String}

namespace Yields

theorem ret (h : Q a n) : Yields (pure a) n Q := fun s hs => ⟨a, s, rfl, rfl, hs ▸ h⟩

/-- What one step yields the next starts from. -/
theorem bind (hx : Yields x n Q) (hk : ∀ a m, Q a m → Yields (k a) m R) : Yields (x >>= k) n R := by
  intro s hs
  obtain ⟨a, s', hr, hh, hq⟩ := hx s hs
  obtain ⟨b, s'', hr', hh', hq'⟩ := hk a _ hq s' rfl
  exact ⟨b, s'', (seq_eq hr).trans hr', hh'.trans hh, hq'⟩

theorem mono {Q' : α → Nat → Prop} (hx : Yields x n Q) (h : ∀ a m, Q a m → Q' a m) : Yields x n Q' := by
  intro s hs
  obtain ⟨a, s', hr, hh, hq⟩ := hx s hs
  exact ⟨a, s', hr, hh, h a _ hq⟩

theorem step (hx : x = pure a) (h : Yields (k a) n R) : Yields (x >>= k) n R := hx ▸ h

theorem freshName {k : String → Shape β} (h : Yields (k ("#" ++ tag ++ toString n)) (n + 1) R) :
    Yields (freshName tag >>= k) n R := by
  rintro s rfl
  exact h { s with labels := s.labels + 1 } rfl

theorem fresh {k : String → Shape β} (h : Yields (k (freshIn c.scope tag n)) (n + 1) R) :
    Yields (fresh c tag >>= k) n R := by
  rintro s rfl
  exact h { s with labels := s.labels + 1 } rfl

theorem look {k : PUnit → Shape β} {p : Pos} (h : Yields (k ⟨⟩) n R) : Yields (look p >>= k) n R :=
  fun s hs => h { s with last := p } hs

theorem last {k : Pos → Shape β} (h : ∀ p, Yields (k p) n R) : Yields (last >>= k) n R := fun s hs => h s.last s hs

theorem lift {r : Pos → Except ParseError α} (hr : ∀ p, r p = .ok a) (h : Yields (k a) n R) :
    Yields (Shape.lift r >>= k) n R := by
  intro s hs
  have : Shape.lift r s = .ok a s := by
    unfold Shape.lift
    rw [seq_eq (show Shape.last s = .ok s.last s from rfl), hr]
    rfl
  rw [seq_eq this]
  exact h s hs

end Yields

end Shape

/-! ## Lists of tokens -/

namespace Token

variable {p : Token → Bool} {t : Token} {ts us : List Token}

theorem nestings_append : ∀ ts us : List Token, nestings (ts ++ us) = max (nestings ts) (nestings us)
  | [], us => by simp [nestings]
  | t :: ts, us => by
    rw [cons_append, nestings, nestings, nestings_append ts us, Nat.max_assoc]

theorem nesting_le_of_mem : ∀ {ts : List Token} {t : Token}, t ∈ ts → t.nesting ≤ nestings ts
  | u :: ts, t, h => by
    rcases mem_cons.mp h with rfl | h
    · exact Nat.le_max_left ..
    · exact Nat.le_trans (nesting_le_of_mem h) (Nat.le_max_right ..)

theorem nestings_le : ∀ {ts : List Token} {d : Nat}, (∀ t ∈ ts, t.nesting ≤ d) → nestings ts ≤ d
  | [], _, _ => Nat.zero_le _
  | _ :: _, _, h => Nat.max_le.mpr ⟨h _ (.head _), nestings_le fun t ht => h t (.tail _ ht)⟩

theorem nestings_le_of_subset {ts us : List Token} (h : ∀ t ∈ ts, t ∈ us) : nestings ts ≤ nestings us :=
  nestings_le fun t ht => nesting_le_of_mem (h t ht)

theorem nestings_le_of_append {d : Nat} (h : nestings (ts ++ us) ≤ d) : nestings ts ≤ d ∧ nestings us ≤ d := by
  rw [nestings_append] at h
  omega

theorem nestings_le_of_cons {d : Nat} (h : nestings (t :: ts) ≤ d) : t.nesting ≤ d ∧ nestings ts ≤ d := by
  rw [nestings] at h
  omega

theorem splitBy_single (h : ∀ t ∈ ts, p t = false) : splitBy p ts = [ts] := by
  induction ts with
  | nil => rfl
  | cons t ts ih =>
    rw [splitBy, if_neg (Bool.eq_false_iff.mp (h t mem_cons_self)), ih fun u hu => h u (mem_cons_of_mem _ hu)]

/-- The first part ends at the first separator. -/
theorem splitBy_append (h : ∀ t ∈ ts, p t = false) (ht : p t = true) :
    splitBy p (ts ++ t :: us) = ts :: splitBy p us := by
  induction ts with
  | nil => rw [nil_append, splitBy, if_pos ht]
  | cons u ts ih =>
    rw [cons_append, splitBy, if_neg (Bool.eq_false_iff.mp (h u mem_cons_self)),
      ih fun v hv => h v (.tail _ hv)]

theorem commaList_eq {parts : List (List Token)} (h : splitBy (·.is .comma) ts = parts) (hn : ts ≠ [])
    (hp : ∀ part ∈ parts, part ≠ []) : commaList ts = parts := by
  cases ts with
  | nil => exact absurd rfl hn
  | cons t ts =>
    unfold commaList
    dsimp only
    rw [h]
    cases hl : parts.getLast? with
    | none => simp
    | some part =>
      have := hp part (mem_of_getLast? hl)
      simp [this]

end Token

/-- A token of an expression outside brackets. -/
def Token.InTerm (t : Token) : Prop := t.is .comma = false ∧ t.is .colon = false ∧ t.is .ellipsis = false

namespace Shape

variable {inside : Inside} {c : Place} {s : ShapeState} {ops pend : List (At Pending)} {rest ts us inner : List Token}
  {op : Operator} {p : Pos} {d k n : Nat} {e : Term} {e' : Term} {es : List Term}

/-! ## Operators -/

/-- Nothing that an operand could go on with. -/
def Stops (rest : List Token) : Prop := rest = [] ∨ ∃ op p ts, rest = .atom (.op op) p :: ts

theorem chain_of_stops (h : Stops rest) (steps : List Step) : chain inside c steps rest = pure (steps, 0) := by
  obtain rfl | ⟨op, p, ts, rfl⟩ := h <;> rfl

theorem yields_binary (hk : level? op = some k) : Yields (binary c op p) n fun r m =>
    (r.1.map At.val = between op (freshIn c.scope "x" n) ∧ r.2.act = behind op (freshIn c.scope "x" n) ∧
      r.2.precedence = k) ∧ m = n + width op := by
  rintro s rfl
  cases op <;> cases hk <;> exact ⟨_, _, rfl, rfl, ⟨rfl, rfl, rfl⟩, rfl⟩

/-- The operators that wait are taken off as far as they bind at least as tightly. -/
theorem span_waiting (hp : ∀ q ∈ pend, k ≤ q.val.precedence) (ho : ∀ q ∈ ops.head?, q.val.precedence < k) :
    (pend ++ ops).span (k ≤ ·.val.precedence) = (pend, ops) := by
  have hd : ops.takeWhile (k ≤ ·.val.precedence) = [] ∧ ops.dropWhile (k ≤ ·.val.precedence) = ops := by
    cases ops with
    | nil => exact ⟨rfl, rfl⟩
    | cons q ops =>
      have hq : ¬k ≤ q.val.precedence := by have := ho q rfl; omega
      simp [hq]
  have ht : ∀ q ∈ pend, decide (k ≤ q.val.precedence) = true := fun q hq => decide_eq_true (hp q hq)
  rw [span_eq_takeWhile_dropWhile, takeWhile_append_of_pos ht, dropWhile_append_of_pos ht, hd.1, hd.2,
    append_nil]

theorem exprFrom_skip (ts rest : List Token) (ops : List (At Pending)) (b : Bool) :
    exprFrom inside c (ts ++ rest) ts.length ops b = exprFrom inside c rest 0 ops b := by
  induction ts with
  | nil => rfl
  | cons t ts ih => exact ih

/-- Operators may wait below the tokens of an expression written at `k`: the top one binds less tightly, unless no
operator between operands stands outside parentheses. -/
def Below (k : Nat) (ops : List (At Pending)) : Prop := k ≤ 5 → ∀ q ∈ ops.head?, q.val.precedence < k

/-- Shaping some tokens before `rest` gives the steps of an expression, apart from those of operators that wait. -/
def Shapes (d : Nat) (c : Place) (k : Nat) (e : Term) (ts : List Token) : Prop :=
  ∀ (ops : List (At Pending)) (rest : List Token) (n : Nat) (Q : List Step → Nat → Prop), Below k ops → Stops rest →
    (∀ (done : List Step) (pend : List (At Pending)), (done ++ steps pend).map At.val = (e.acts c.scope n).1 →
      (∀ q ∈ pend, k ≤ q.val.precedence) → Yields (exprFrom (.upTo d) c rest 0 (pend ++ ops) false) (e.acts c.scope n).2
        fun more m => Q (done ++ more) m) →
    Yields (exprFrom (.upTo d) c (ts ++ rest) 0 ops true) n Q

/-- An operand goes on with what stands behind it. Behind a name no literal begins. -/
structure Operand (d : Nat) (c : Place) (e : Term) (ts : List Token) : Prop where
  head : ∃ u us, ts = u :: us ∧ ∀ op p, u ≠ .atom (.op op) p
  goesOn : ∀ (rest : List Token) (n : Nat) (Q : List Step × Nat → Nat → Prop),
    (∀ i p us, rest ≠ .group .brace i p :: us) →
    (∀ steps : List Step, steps.map At.val = (e.acts c.scope n).1 →
      Yields (chain (.upTo d) c steps rest) (e.acts c.scope n).2 fun r m => Q (r.1, ts.length + r.2) m) →
    Yields (operand (.upTo d) c (ts ++ rest)) n Q

/-- An operand is read at every level. -/
theorem Operand.shapes (h : Operand d c e ts) : Shapes d c k e ts := by
  intro ops rest n Q _ hr hk
  obtain ⟨u, us, rfl, hu⟩ := h.head
  have he : exprFrom (.upTo d) c (u :: (us ++ rest)) 0 ops true = (do
      look u.pos
      let r ← operand (.upTo d) c (u :: (us ++ rest))
      return r.1 ++ (← exprFrom (.upTo d) c (us ++ rest) (r.2 - 1) ops false)) := by
    cases u with
    | group d inner p => rfl
    | atom a p =>
      cases a with
      | op o => exact absurd rfl (hu o p)
      | _ => rfl
  have hbrace : ∀ i p us, rest ≠ .group .brace i p :: us := by
    obtain rfl | ⟨op, p, ts, rfl⟩ := hr <;> exact fun _ _ _ => nofun
  rw [cons_append, he]
  refine .look (.bind (Q := fun r m => (r.1.map At.val = (e.acts c.scope n).1 ∧ r.2 = us.length + 1) ∧
    m = (e.acts c.scope n).2) (h.goesOn rest n _ hbrace fun steps hs => ?_) fun r m hm => ?_)
  · rw [chain_of_stops hr]
    exact .ret ⟨⟨hs, rfl⟩, rfl⟩
  · obtain ⟨⟨hs, hl⟩, rfl⟩ := hm
    rw [hl, Nat.add_sub_cancel, exprFrom_skip]
    exact .bind (hk r.1 [] (by simpa [steps] using hs) nofun) fun _ _ h => .ret h

/-- A prefix operator binds tighter than any infix one. -/
theorem Shapes.unary (ho : op ∈ Term.prefixes) (h : Shapes d c 6 e ts) :
    Shapes d c 6 (.unary op e) (.atom (.op op) p :: ts) := by
  intro ops rest n Q _ hr hk
  have hu : op.isUnary = true := by cases op <;> first | rfl | exact absurd ho (by decide)
  refine .look ?_
  dsimp only
  rw [if_pos hu]
  refine h (⟨.unary op, p⟩ :: ops) rest n Q (fun h => absurd h (by decide)) hr fun done pend ha hq => ?_
  have hnext := hk done (pend ++ [⟨.unary op, p⟩]) (by simp [Term.acts, ← ha, steps, act])
    (forall_mem_append.mpr ⟨hq, fun q hm => mem_singleton.mp hm ▸ Nat.le_refl 6⟩)
  rw [append_assoc] at hnext
  exact hnext

/-- Equal levels associate to the left. -/
theorem Shapes.binary {a b : Term} (ho : level? op = some k) (ha : Shapes d c k a ts)
    (hb : Shapes d c (k + 1) b us) : Shapes d c k (.binary op a b) (ts ++ .atom (.op op) p :: us) := by
  intro ops rest n Q hbelow hr hk
  have h5 : k ≤ 5 := by cases op <;> cases ho <;> decide
  rw [append_assoc]
  refine ha ops _ n Q hbelow (.inr ⟨_, _, _, rfl⟩) fun done pend hacts hq => ?_
  refine .look ?_
  simp only [precedence?_eq_level?, ho, span_waiting hq (hbelow h5)]
  refine .bind (yields_binary ho) ?_
  rintro ⟨jump, pending⟩ m ⟨⟨hj, hact, hprec⟩, rfl⟩
  refine .bind (hb (⟨pending, p⟩ :: ops) rest _ (fun more m => Q (done ++ (steps pend ++ jump ++ more)) m)
    (fun _ q hm => by cases hm; exact Nat.lt_succ_of_le (Nat.le_of_eq hprec)) hr fun done' pend' hacts' hq' => ?_)
    fun _ _ h => .ret h
  have hnext := hk (done ++ (steps pend ++ jump ++ done')) (pend' ++ [⟨pending, p⟩])
    (by simp [Term.acts, ← hacts, ← hacts', ← hj, ← hact, steps])
    (forall_mem_append.mpr ⟨fun q hm => Nat.le_of_succ_le (hq' q hm), fun q hm => by
      rw [mem_singleton.mp hm]
      exact Nat.le_of_eq hprec.symm⟩)
  simpa only [Term.acts, append_assoc, singleton_append, cons_append, nil_append] using hnext

/-- What is read at one level is read at a looser one. -/
theorem Shapes.looser (h : Shapes d c (k + 1) e ts) : Shapes d c k e ts := fun ops rest n Q hb hr hk =>
  h ops rest n Q (fun h5 q hm => Nat.lt_succ_of_lt (hb (by omega) q hm)) hr fun done pend ha hq =>
    hk done pend ha fun q hm => Nat.le_of_succ_le (hq q hm)

theorem Shapes.exprWith (h : Shapes d c k e ts) (hn : ts ≠ []) :
    Yields (exprWith (.upTo d) c ts) n (Gives (e.acts c.scope n)) := by
  have hall := h [] [] n (Gives (e.acts c.scope n)) (nofun) (.inl rfl) fun done pend ha _ => by
    rw [append_nil]
    exact .ret ⟨ha, rfl⟩
  rw [append_nil] at hall
  rw [Shape.exprWith, if_neg (by simpa using hn)]
  exact hall

/-! ## Operands -/

theorem Operand.leaf {a : Atom} (h : a.IsOperand) : Operand d c (.leaf a h) [.atom a p] where
  head := ⟨_, [], rfl, by cases a <;> first | exact False.elim h | exact nofun⟩
  goesOn rest n Q hb hk := by
    have hhead : Shape.head (.upTo d) c (.atom a p :: rest) = pure ([⟨.atom a, p⟩], 1) := by
      cases a with
      | ident x =>
        cases rest with
        | nil => rfl
        | cons u us =>
          cases u with
          | atom => rfl
          | group d i q => cases d <;> first | rfl | exact absurd rfl (hb i q us)
      | int | float | str => rfl
      | _ => cases h
    exact .step hhead (.bind (hk _ (by simp [Term.acts])) fun _ _ h => .ret h)

/-- Brackets make an operand of any expression. -/
theorem Operand.paren
    (h : ∀ n, Yields (exprWith (.upTo d) c (Token.withoutSemicolons inner)) n (Gives (e.acts c.scope n))) :
    Operand (d + 1) c e [.group .paren inner p] where
  head := ⟨_, [], rfl, nofun⟩
  goesOn rest n Q _ hk := by
    have hhead : Yields (Shape.head (.upTo (d + 1)) c (.group .paren inner p :: rest)) n fun r m =>
        Gives (e.acts c.scope n) r.1 m ∧ r.2 = 1 := .bind (h n) fun _ _ h => .ret ⟨h, rfl⟩
    refine .bind hhead ?_
    rintro ⟨steps, len⟩ m ⟨⟨hs, rfl⟩, rfl⟩
    exact .bind (hk steps hs) fun _ _ h => .ret h

/-- Something behind an operand that the operand goes on with, as the steps of a longer one. -/
theorem Operand.behind (h : Operand d c e ts) (hb : ∀ i p vs, us ≠ .group .brace i p :: vs)
    (hn : us ≠ []) (hstep : ∀ (steps : List Step) (rest : List Token) (n : Nat) (Q : List Step × Nat → Nat → Prop),
      steps.map At.val = (e.acts c.scope n).1 → (∀ steps' : List Step, steps'.map At.val = (e'.acts c.scope n).1 →
        Yields (chain (.upTo d) c steps' rest) (e'.acts c.scope n).2 fun r m => Q (r.1, us.length + r.2) m) →
      Yields (chain (.upTo d) c steps (us ++ rest)) (e.acts c.scope n).2 Q) : Operand d c e' (ts ++ us) where
  head := by
    obtain ⟨u, vs, rfl, hu⟩ := h.head
    exact ⟨u, vs ++ us, rfl, hu⟩
  goesOn rest n Q _ hk := by
    rw [append_assoc]
    refine h.goesOn (us ++ rest) n Q (fun i p vs he => ?_) fun steps hs => hstep steps rest n _ hs fun steps' hs' => ?_
    · cases us with
      | nil => exact hn rfl
      | cons u us => exact hb i p us (by rw [(List.cons.inj he).1])
    · have := hk steps' hs'
      simpa only [length_append, Nat.add_assoc] using this

theorem Operand.field {name : String} {q : Pos} (h : Operand d c e ts) :
    Operand d c (.field e name) (ts ++ [.atom .dot p, .atom (.ident name) q]) := by
  refine h.behind (fun _ _ _ => nofun) nofun fun steps rest n Q hs hk => ?_
  refine .bind (hk (steps ++ [⟨.field name, p⟩]) (by simp [Term.acts, hs])) fun r m h => .ret ?_
  rw [Nat.add_comm]
  exact h

/-- The contents of square brackets behind an operand, by the steps that they give. -/
theorem Operand.bracket {w : Nat → List Act × Nat} (h : Operand d c e ts)
    (hs : ∀ n, Yields (subscript (.upTo d) c inner p) n (Gives (w n)))
    (he : ∀ n, e'.acts c.scope n = ((e.acts c.scope n).1 ++ (w (e.acts c.scope n).2).1, (w (e.acts c.scope n).2).2)) :
    Operand d c e' (ts ++ [.group .bracket inner p]) := by
  refine h.behind (fun _ _ _ => nofun) nofun fun steps rest n Q hsteps hk => ?_
  refine .bind (hs _) ?_
  rintro more m ⟨hmore, rfl⟩
  rw [he n] at hk
  refine .bind (hk (steps ++ more) (by rw [map_append, hsteps, hmore])) fun r m h => .ret ?_
  rw [Nat.add_comm]
  exact h

/-- A call's arguments are read part by part. -/
theorem Operand.call {spread : Bool} (h : Operand d c e ts)
    (hl : (commaList (withoutSemicolons inner)).length = es.length)
    (hs : ∀ n, Yields (arguments (.upTo d) c (commaList (withoutSemicolons inner))) n fun r m =>
      Gives (Term.actsAll c.scope es n) r.1 m ∧ r.2 = spread) :
    Operand d c (.call e es spread) (ts ++ [.group .paren inner p]) := by
  refine h.behind (fun _ _ _ => nofun) nofun fun steps rest n Q hsteps hk => ?_
  refine .bind (.bind (hs _) fun r m hr => .ret (Q := fun all m => Gives ((Term.call e es spread).acts c.scope n) all m)
    ?_) ?_
  · obtain ⟨⟨hr, rfl⟩, rfl⟩ := hr
    exact ⟨by simp [Term.acts, hr, hsteps, hl], by simp [Term.acts]⟩
  · rintro all m ⟨hall, rfl⟩
    refine .bind (hk all hall) fun r m h => .ret ?_
    rw [Nat.add_comm]
    exact h

theorem yields_index {i : Term} (hc : ∀ t ∈ withoutSemicolons inner, t.is .colon = false)
    (h : ∀ n, Yields (exprWith (.upTo d) c (withoutSemicolons inner)) n (Gives (i.acts c.scope n))) (n : Nat) :
    Yields (subscript (.upTo (d + 1)) c inner p) n
      (Gives ((i.acts c.scope n).1 ++ [.index], (i.acts c.scope n).2)) := by
  unfold subscript
  dsimp only
  rw [findIdx?_eq_none_iff.mpr hc]
  exact .bind (h n) fun steps m hs => .ret ⟨by simp [hs.1], hs.2⟩

/-- The tokens write a bound of a slice. -/
structure Bounds (d : Nat) (c : Place) (e : Option Term) (ts : List Token) : Prop where
  some : e.isSome = !ts.isEmpty
  colon : ∀ t ∈ ts, t.is .colon = false
  yields : ∀ n, Yields (bound (.upTo d) c ts) n (Gives (Term.actsMaybe c.scope e n))

/-- A slice with either bound left out. -/
theorem yields_slice {low high : Option Term} {vs : List Token} {q : Pos} (hl : Bounds d c low us)
    (hh : Bounds d c high vs) (hi : withoutSemicolons inner = us ++ .atom .colon q :: vs) (n : Nat) :
    Yields (subscript (.upTo d) c inner p) n (Gives ((Term.actsMaybe c.scope low n).1 ++
      (Term.actsMaybe c.scope high (Term.actsMaybe c.scope low n).2).1 ++ [.slice low.isSome high.isSome],
      (Term.actsMaybe c.scope high (Term.actsMaybe c.scope low n).2).2)) := by
  have hfind : (us ++ atom .colon q :: vs).findIdx? (·.is .colon) = some us.length := by
    rw [findIdx?_append, findIdx?_eq_none_iff.mpr hl.colon]
    simp [findIdx?_cons, is]
  have hdrop : (us ++ atom .colon q :: vs).drop (us.length + 1) = vs := by simp
  unfold subscript
  dsimp only
  rw [hi, hfind]
  dsimp only
  rw [take_left, hdrop]
  refine .bind (hl.yields n) ?_
  rintro lo m ⟨hlo, rfl⟩
  refine .bind (hh.yields _) ?_
  rintro hi m ⟨hhi, rfl⟩
  exact .ret ⟨by simp [hlo, hhi, hl.some, hh.some], rfl⟩

/-! ## Arguments -/

/-- The parts between commas write the arguments of a call. -/
structure Arguments (d : Nat) (c : Place) (es : List Term) (spread : Bool) (parts : List (List Token)) : Prop where
  length : parts.length = es.length
  yields : ∀ n, Yields (arguments (.upTo d) c parts) n fun r m =>
    Gives (Term.actsAll c.scope es n) r.1 m ∧ r.2 = spread

theorem Arguments.cons {spread : Bool} {parts : List (List Token)}
    (hp : ∀ t ∈ ts, t.is .ellipsis = false) (h : ∀ n, Yields (exprWith (.upTo d) c ts) n (Gives (e.acts c.scope n)))
    (hs : Arguments (d + 1) c es spread parts) : Arguments (d + 1) c (e :: es) spread (ts :: parts) where
  length := congrArg (· + 1) hs.length
  yields n := by
    unfold arguments
    split
    · rename_i q hq
      exact absurd (hp _ (mem_of_getLast? hq)) (by simp [is])
    · refine .bind (h n) ?_
      rintro steps m ⟨hsteps, rfl⟩
      refine .bind (hs.yields _) ?_
      rintro ⟨more, b⟩ m ⟨⟨hmore, rfl⟩, rfl⟩
      exact .ret ⟨⟨by simp [Term.actsAll, hsteps, hmore], by simp [Term.actsAll]⟩, rfl⟩

theorem Arguments.spread (h : ∀ n, Yields (exprWith (.upTo d) c ts) n (Gives (e.acts c.scope n))) :
    Arguments (d + 1) c [e] true [ts ++ [.atom .ellipsis p]] where
  length := rfl
  yields n := by
    unfold arguments
    rw [getLast?_concat]
    simp only [isEmpty_nil, if_true, dropLast_concat]
    refine .bind (h n) fun steps m hs => .ret ⟨?_, rfl⟩
    simpa [Gives, Term.actsAll] using hs

/-! ## Expressions -/

/-- What tokens that write something give. The steps of what stands between brackets are shaped inside. -/
def Reads (c : Place) (d : Nat) : Term.Item → List Token → Prop
  | .expr k e, ts => (ts ≠ [] ∧ ∀ t ∈ ts, t.InTerm) ∧ Shapes d c k e ts ∧ (7 ≤ k → Operand d c e ts)
  | .args es spread, ts => ∃ parts, Token.commaList ts = parts ∧ Arguments (d + 1) c es spread parts ∧
    (es ≠ [] → Token.splitBy (·.is .comma) ts = parts ∧ ts ≠ [] ∧ ∀ part ∈ parts, part ≠ [])
  | .bound e, ts => Bounds (d + 1) c e ts

theorem Reads.exprWith (h : Reads c d (.expr k e) ts) (n : Nat) :
    Yields (exprWith (.upTo d) c ts) n (Gives (e.acts c.scope n)) :=
  h.2.1.exprWith h.1.1

theorem Reads.of_operand (h : Operand d c e ts) (hp : ∀ t ∈ ts, t.InTerm) : Reads c d (.expr 7 e) ts := by
  obtain ⟨u, us, rfl, -⟩ := h.head
  exact ⟨⟨nofun, hp⟩, h.shapes, fun _ => h⟩

theorem Reads.bracketed {b : Delim} (h : Reads c d (.expr 7 e) ts)
    (ho : Operand d c e ts → Operand d c e' (ts ++ [.group b inner p])) :
    Reads c d (.expr 7 e') (ts ++ [.group b inner p]) :=
  .of_operand (ho (h.2.2 (Nat.le_refl 7))) (forall_mem_append.mpr ⟨h.1.2, by simp [Token.InTerm, is]⟩)

end Shape

open Shape in
/-- The induction is on the way the expression is written. What stands between brackets is nested less deeply. -/
theorem Term.Writes.reads {i : Item} {ts : List Token} (h : Writes i ts) (c : Place) :
    ∀ {d : Nat}, Token.nestings ts ≤ d → Reads c d i ts := by
  have inner {ts us : List Token} {b : Delim} {p : Pos} {d : Nat} (hd : Token.nestings (ts ++ [.group b us p]) ≤ d) :
      ∃ d', d = d' + 1 ∧ Token.nestings ts ≤ d' + 1 ∧ Token.nestings (Token.withoutSemicolons us) ≤ d' := by
    have hin : Token.nestings (Token.withoutSemicolons us) ≤ Token.nestings us :=
      Token.nestings_le_of_subset fun t ht => (mem_filter.mp ht).1
    obtain ⟨hts, hus⟩ := Token.nestings_le_of_append hd
    have hus := (Token.nestings_le_of_cons hus).1
    rw [Token.nesting] at hus
    exact ⟨d - 1, by omega, by omega, by omega⟩
  induction h with
  | @leaf a h p => exact fun _ => .of_operand (.leaf h) (by
    cases a <;> first | exact False.elim h | simp [Token.InTerm, Token.is])
  | paren _ hw ih =>
    intro d hd
    subst hw
    obtain ⟨d, rfl, -, hin⟩ := @inner [] _ _ _ _ hd
    exact .of_operand (.paren (ih hin).exprWith) (by simp [Token.InTerm, Token.is])
  | field _ ih =>
    intro d hd
    have h := ih (Token.nestings_le_of_append hd).1
    exact .of_operand (h.2.2 (Nat.le_refl 7)).field (forall_mem_append.mpr ⟨h.1.2, by simp [Token.InTerm, Token.is]⟩)
  | index _ _ hw ih ihi =>
    intro d hd
    subst hw
    obtain ⟨d, rfl, hout, hin⟩ := inner hd
    have hi := ihi hin
    refine (ih hout).bracketed fun h => h.bracket (yields_index (fun t ht => (hi.1.2 t ht).2.1) hi.exprWith) fun n => ?_
    simp [Term.acts]
  | slice _ _ _ hw ih ihl ihh =>
    intro d hd
    obtain ⟨d, rfl, hout, hin⟩ := inner hd
    rw [hw] at hin
    have hl := ihl (Token.nestings_le_of_append hin).1
    have hh := ihh (Token.nestings_le_of_cons (Token.nestings_le_of_append hin).2).2
    refine (ih hout).bracketed fun h => h.bracket (yields_slice hl hh hw) fun n => ?_
    simp [Term.acts]
  | call _ _ hw ih ihs =>
    intro d hd
    subst hw
    obtain ⟨d, rfl, hout, hin⟩ := inner hd
    obtain ⟨parts, rfl, hs, -⟩ := ihs hin
    exact (ih hout).bracketed fun h => h.call hs.length hs.yields
  | unary ho _ ih =>
    intro d hd
    have h := ih (Token.nestings_le_of_cons hd).2
    exact ⟨⟨nofun, forall_mem_cons.mpr ⟨by simp [Token.InTerm, Token.is], h.1.2⟩⟩, h.2.1.unary ho,
      fun h => absurd h (by decide)⟩
  | @binary op k a b ts us p ho _ _ iha ihb =>
    intro d hd
    have ha := iha (Token.nestings_le_of_append hd).1
    have hb := ihb (Token.nestings_le_of_cons (Token.nestings_le_of_append hd).2).2
    refine ⟨⟨by simp, forall_mem_append.mpr ⟨ha.1.2, forall_mem_cons.mpr ⟨by simp [Token.InTerm, Token.is], hb.1.2⟩⟩⟩,
      ha.2.1.binary ho hb.2.1, fun h => ?_⟩
    have h5 : k ≤ 5 := by cases op <;> cases ho <;> decide
    omega
  | looser _ ih =>
    intro d hd
    have h := ih hd
    exact ⟨h.1, h.2.1.looser, fun h7 => h.2.2 (by omega)⟩
  | absent => exact fun _ => ⟨rfl, nofun, fun n => .ret ⟨rfl, rfl⟩⟩
  | @present e ts _ ih =>
    intro d hd
    have h := ih hd
    have hn : ts.isEmpty = false := by simpa using h.1.1
    refine ⟨by rw [hn]; rfl, fun t ht => (h.1.2 t ht).2.1, fun n => ?_⟩
    rw [bound, hn]
    exact h.exprWith n
  | noArgs => exact fun _ => ⟨[], rfl, ⟨rfl, fun n => .ret ⟨⟨rfl, rfl⟩, rfl⟩⟩, fun h => absurd rfl h⟩
  | @lastArg e ts _ ih =>
    intro d hd
    have h := ih hd
    have hs : Token.splitBy (·.is .comma) ts = [ts] := Token.splitBy_single fun t ht => (h.1.2 t ht).1
    have hp : ∀ part ∈ [ts], part ≠ [] := by simpa using h.1.1
    exact ⟨[ts], Token.commaList_eq hs h.1.1 hp, .cons (fun t ht => (h.1.2 t ht).2.2) h.exprWith
      ⟨rfl, fun n => .ret ⟨⟨rfl, rfl⟩, rfl⟩⟩, fun _ => ⟨hs, h.1.1, hp⟩⟩
  | @spreadArg e ts p _ ih =>
    intro d hd
    have h := ih (Token.nestings_le_of_append hd).1
    have hs : Token.splitBy (·.is .comma) (ts ++ [.atom .ellipsis p]) = [ts ++ [.atom .ellipsis p]] :=
      Token.splitBy_single (forall_mem_append.mpr ⟨fun t ht => (h.1.2 t ht).1, by simp [Token.is]⟩)
    have hp : ∀ part ∈ [ts ++ [Token.atom .ellipsis p]], part ≠ [] := by simp
    exact ⟨_, Token.commaList_eq hs (by simp) hp, .spread h.exprWith, fun _ => ⟨hs, by simp, hp⟩⟩
  | @moreArgs e e' es spread ts us p _ _ ih ihs =>
    intro d hd
    have h := ih (Token.nestings_le_of_append hd).1
    obtain ⟨parts, -, hs, hparts⟩ := ihs (Token.nestings_le_of_cons (Token.nestings_le_of_append hd).2).2
    obtain ⟨hsplit, -, hne⟩ := hparts nofun
    have hall : Token.splitBy (·.is .comma) (ts ++ .atom .comma p :: us) = ts :: parts := by
      rw [Token.splitBy_append (fun t ht => (h.1.2 t ht).1) rfl, hsplit]
    have hp : ∀ part ∈ ts :: parts, part ≠ [] := forall_mem_cons.mpr ⟨h.1.1, hne⟩
    exact ⟨ts :: parts, Token.commaList_eq hall (by simp) hp, .cons (fun t ht => (h.1.2 t ht).2.2) h.exprWith hs,
      fun _ => ⟨hall, by simp, hp⟩⟩

/-- The steps of tokens that write an expression do what the expression does. -/
theorem Shape.yields_term {e : Term} {ts : List Token} (h : Term.Writes (.expr 1 e) ts) {d : Nat}
    (hd : nestings ts ≤ d) (c : Place) (n : Nat) :
    Yields (exprWith (.upTo d) c ts) n (Gives (e.acts c.scope n)) :=
  (h.reads c hd).exprWith n

/-- **Shaping puts an expression in order.** Whatever tokens write an expression, they are shaped, from any number for
the next label, into the steps that the expression does, and the labels that it makes are counted. -/
theorem Shape.exprWith_order {e : Term} {ts : List Token} (h : Term.Writes (.expr 1 e) ts) {d : Nat}
    (hd : nestings ts ≤ d) (c : Place) (s : ShapeState) : ∃ steps s', exprWith (.upTo d) c ts s = .ok steps s' ∧
      steps.map At.val = (e.acts c.scope s.labels).1 ∧ s'.labels = (e.acts c.scope s.labels).2 ∧
      s'.hoisted = s.hoisted := by
  obtain ⟨steps, s', hr, hh, ha, hl⟩ := yields_term h hd c s.labels s rfl
  exact ⟨steps, s', hr, ha, hl, hh⟩

/-- In `f(a || b)[-c:] && d` the label of `||` is made first, and the callee stands behind its argument. -/
theorem Shape.exprWith_order_call : ∃ steps s', exprWith (.upTo 1) .chunk [.atom (.ident "f") .none,
      .group .paren [.atom (.ident "a") .none, .atom (.op .lor) .none, .atom (.ident "b") .none] .none,
      .group .bracket [.atom (.op .sub) .none, .atom (.ident "c") .none, .atom .colon .none] .none,
      .atom (.op .land) .none, .atom (.ident "d") .none] ⟨4, .none, []⟩ = .ok steps s' ∧
    steps.map At.val = [.ident "a", .jumpSetTrue (freshIn Place.mainScope "x" 4), .ident "b",
      .label (freshIn Place.mainScope "x" 4), .ident "f", .call 1 false, .ident "c", .unary .sub, .slice true false,
      .jumpSetFalse (freshIn Place.mainScope "x" 5), .ident "d", .label (freshIn Place.mainScope "x" 5)] ∧
    s'.labels = 6 ∧ s'.hoisted = [] := by
  have name (x : String) : Term.Writes (.expr 7 (.leaf (.ident x) trivial)) [.atom (.ident x) .none] := .leaf
  have or : Term.Writes _ [.atom (.ident "a") .none, .atom (.op .lor) .none, .atom (.ident "b") .none] :=
    .binary rfl (name "a").looser.looser.looser.looser.looser.looser (name "b").looser.looser.looser.looser.looser
  have minus : Term.Writes _ [.atom (.op .sub) .none, .atom (.ident "c") .none] := .unary (by decide) (name "c").looser
  have call : Term.Writes _ [.atom (.ident "f") .none, .group .paren [.atom (.ident "a") .none, .atom (.op .lor) .none,
      .atom (.ident "b") .none] .none] := .call (name "f") (.lastArg or) rfl
  have slice : Term.Writes _ ([_, _] ++ [.group .bracket [.atom (.op .sub) .none, .atom (.ident "c") .none,
      .atom .colon .none] .none]) := .slice call (.present minus.looser.looser.looser.looser.looser) .absent rfl
  exact exprWith_order (Term.Writes.binary (show level? .land = some 2 from rfl)
    slice.looser.looser.looser.looser.looser (name "d").looser.looser.looser.looser).looser (by decide) .chunk
      ⟨4, .none, []⟩

end Goblet
