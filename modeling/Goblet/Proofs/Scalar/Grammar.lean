import Goblet.Proofs.Scalar.Expr
import Goblet.Proofs.Token.Writing
import Goblet.Stream

/-!
# How expressions are written

`Forms A k e ws` says that `ws` writes the expression `e` so that every operator outside parentheses binds at least as
tightly as `k`: operators of higher precedence bind tighter, those of the same precedence group to the left, and
parentheses may stand around any expression. The grammar is the same over words (`Alphabet.words`) and over tokens
(`Alphabet.tokens`).
-/

namespace Goblet

/-- What literals, names, operators and parentheses look like. -/
structure Alphabet (α : Type) where
  leaf : Expr → α → Prop
  op : Operator → α → Prop
  /-- The first list between parentheses is the second. -/
  paren : List α → List α → Prop

namespace Expr

/-- The operators before an operand. -/
def signs : List Operator := [.add, .sub, .xor, .not]

/-- How tightly an operator between operands binds. -/
def level? (op : Operator) : Option Nat :=
  if op ∈ [.mul, .quo, .rem, .shl, .shr, .and] then some 5
  else if op ∈ [.add, .sub, .or, .xor] then some 4
  else if op ∈ [.eql, .neq, .lss, .leq, .gtr, .geq] then some 3
  else if op = .land then some 2
  else if op = .lor then some 1
  else none

theorem precedence?_eq_level? (op : Operator) : op.precedence? = level? op := by cases op <;> rfl

/-- The way expressions are written; `k` is 7 for what needs no parentheses anywhere and 6 before a sign. -/
inductive Forms {α : Type} (A : Alphabet α) : (k : Nat) → Expr → List α → Prop
  | leaf {e : Expr} {w : α} (h : A.leaf e w) : Forms A 7 e [w]
  | paren {e : Expr} {ws us : List α} (h : Forms A 1 e ws) (hp : A.paren ws us) : Forms A 7 e us
  | unary {op : Operator} {e : Expr} {w : α} {ws : List α} (ho : op ∈ signs) (hw : A.op op w)
      (h : Forms A 6 e ws) : Forms A 6 (.unary op e) (w :: ws)
  | binary {op : Operator} {k : Nat} {a b : Expr} {w : α} {ws us : List α} (ho : level? op = some k)
      (hw : A.op op w) (ha : Forms A k a ws) (hb : Forms A (k + 1) b us) : Forms A k (.binary op a b) (ws ++ w :: us)
  | looser {k : Nat} {e : Expr} {ws : List α} (h : Forms A (k + 1) e ws) : Forms A k e ws

/-- What needs no parentheses among operators that bind tighter needs none among others. -/
theorem Forms.loosened {α : Type} {A : Alphabet α} {k : Nat} {e : Expr} {ws : List α} (h : Forms A k e ws) :
    ∀ {j : Nat}, j ≤ k → Forms A j e ws := by
  induction k with
  | zero => intro j hj; exact Nat.le_zero.mp hj ▸ h
  | succ k ih =>
    intro j hj
    rcases Nat.lt_or_eq_of_le hj with hj | rfl
    · exact ih (.looser h) (Nat.le_of_lt_succ hj)
    · exact h

end Expr

namespace Alphabet

/-- A literal or a name as a word. -/
inductive WordLeaf : Expr → String → Prop
  | int (n : Nat) (h : n < 2 ^ 63) : WordLeaf (.int n) n.repr
  | bool (b : Bool) : WordLeaf (.bool b) (Act.flagText b)
  | var (x : String) (h : IsWord x) (hk : Keyword.ofText? x = none) : WordLeaf (.var x) x

/-- Expressions as words. -/
def words : Alphabet String where
  leaf := WordLeaf
  op o w := w = o.text
  paren ws us := us = "(" :: (ws ++ [")"])

/-- A literal or a name as a token. -/
inductive TokenLeaf : Expr → Token → Prop
  | int (n : Nat) (h : n < 2 ^ 63) (p : Pos) : TokenLeaf (.int n) (.atom (.int (Int64.ofNat n)) p)
  | bool (b : Bool) (p : Pos) : TokenLeaf (.bool b) (.atom (.ident (Act.flagText b)) p)
  | var (x : String) (p : Pos) : TokenLeaf (.var x) (.atom (.ident x) p)

/-- Expressions as tokens. A line end between parentheses means nothing. -/
def tokens : Alphabet Token where
  leaf := TokenLeaf
  op o t := ∃ p, t = .atom (.op o) p
  paren ts us := ∃ inner p, Token.withoutSemicolons inner = ts ∧ us = [.group .paren inner p]

end Alphabet

end Goblet
