import Goblet.Stream.Context
import Goblet.TypeExpr.Read

/-!
# Shaping expressions

Operators wait on a stack until one that binds less tightly, or the end, comes. A call has its arguments before the
callee, and `&&` and `||` are a jump over the right operand to a fresh label behind it.
-/

namespace Goblet

/-- An operator waiting for its right operand to end. -/
inductive Pending where
  | unary (op : Operator)
  | binary (op : Operator)
  /-- `&&` or `||`, with the label behind its right operand. -/
  | logic (op : Operator) (label : String)

namespace Pending

/-- How tightly it binds; a unary operator more than any binary one. -/
def precedence : Pending → Nat
  | .unary _ => 6
  | .binary op | .logic op _ => op.precedence?.getD 0

def act : Pending → Act
  | .unary op => .unary op
  | .binary op => .binary op
  | .logic _ label => .label label

def steps (ops : List (At Pending)) : List Step := ops.map fun p => ⟨p.val.act, p.pos⟩

end Pending

namespace Shape

/-! ## Calls, indexing and function literals -/

def arguments (inside : Inside) (c : Place) : List (List Token) → Shape (List Step × Bool)
  | [] => return ([], false)
  | arg :: rest =>
    match arg.getLast? with
    | some (.atom .ellipsis p) =>
      if rest.isEmpty then do return (← inside.expr c arg.dropLast, true)
      else fail .spreadArg p
    | _ => do
      let steps ← inside.expr c arg
      let (more, spread) ← arguments inside c rest
      return (steps ++ more, spread)

def call (inside : Inside) (c : Place) (callee : List Step) (contents : List Token) (p : Pos) :
    Shape (List Step) := do
  let args := Token.commaList (Token.withoutSemicolons contents)
  let (steps, spread) ← arguments inside c args
  return steps ++ callee ++ [⟨.call args.length spread, p⟩]

def bound (inside : Inside) (c : Place) (toks : List Token) : Shape (List Step) :=
  if toks.isEmpty then return [] else inside.expr c toks

def subscript (inside : Inside) (c : Place) (contents : List Token) (p : Pos) : Shape (List Step) := do
  let toks := Token.withoutSemicolons contents
  match toks.findIdx? (·.is .colon) with
  | some i =>
    let (low, high) := (toks.take i, toks.drop (i + 1))
    let lo ← bound inside c low
    let hi ← bound inside c high
    return lo ++ hi ++ [⟨.slice (!low.isEmpty) (!high.isEmpty), p⟩]
  | none => return (← inside.expr c toks) ++ [⟨.index, p⟩]

/-- The index of the first group in braces that does not follow `struct`. -/
def findLiteralBody (before : Option Token) : List Token → Option Nat
  | [] => none
  | t :: ts =>
    let afterStruct := (before.map (·.is (.keyword .struct))).getD false
    match t with
    | .group .brace _ _ => if afterStruct then (findLiteralBody (some t) ts).map (· + 1) else some 0
    | _ => (findLiteralBody (some t) ts).map (· + 1)

def contents : Option Token → List Token
  | some (.group _ inner _) => inner
  | _ => []

def funcBody (inside : Inside) (name : String) (sig : Signature) (body : List Token) (p : Pos) :
    Shape (List Step) := do
  let steps ← inside.body (.funcBody name sig) body
  return ⟨.body name sig, p⟩ :: steps ++ [⟨.label (name ++ "_end"), ← last⟩]

/-- A function literal, or a function type if no body follows. `tail` is what follows the parameters. Gives the number
of tokens taken. -/
def funcLiteral (inside : Inside) (c : Place) (p : Pos) (whole params tail : List Token) :
    Shape (List Step × Nat) := do
  match findLiteralBody none tail with
  | none =>
    let (ty, n) ← lift fun last => TypeExpr.read last whole
    return ([⟨.typeRef ty, p⟩], n)
  | some b =>
    let sig ← lift fun last => Signature.read last params (tail.take b)
    let short ← freshName "lit"
    let steps ← funcBody inside (c.scope ++ "/" ++ short) sig (contents tail[b]?) p
    return (steps ++ [⟨.ident short, p⟩], b + 3)

/-! ## Operands -/

/-- What may stand behind an operand: selectors, calls and indexing. `steps` are those of the operand so far; gives the
number of tokens taken. -/
def chain (inside : Inside) (c : Place) (steps : List Step) : List Token → Shape (List Step × Nat)
  | .atom .dot p :: .atom (.ident name) _ :: ts => do
    let (steps, n) ← chain inside c (steps ++ [⟨.field name, p⟩]) ts
    return (steps, n + 2)
  | .atom .dot _ :: ts => failAt .fieldName ts
  | .group .paren inner p :: ts => do
    let (steps, n) ← chain inside c (← call inside c steps inner p) ts
    return (steps, n + 1)
  | .group .bracket inner p :: ts => do
    let (steps, n) ← chain inside c (steps ++ (← subscript inside c inner p)) ts
    return (steps, n + 1)
  | _ => return (steps, 0)

/-- A type in the place of an operand, with the elements of a literal if braces follow. -/
def typeOperand (inside : Inside) (c : Place) (p : Pos) (toks : List Token) : Shape (List Step × Nat) := do
  let (ty, n) ← lift fun last => TypeExpr.read last toks
  match toks.drop n with
  | .group .brace inner _ :: _ => return (← inside.composite c ty inner p, n + 1)
  | _ => return ([⟨.typeRef ty, p⟩], n)

def head (inside : Inside) (c : Place) : List Token → Shape (List Step × Nat)
  | .atom (.ident name) p :: .group .brace inner _ :: _ => do
    return (← inside.composite c (.name name) inner p, 2)
  | .atom (.ident name) p :: _ => return ([⟨.ident name, p⟩], 1)
  | .atom (.int n) p :: _ => return ([⟨.atom (.int n), p⟩], 1)
  | .atom (.float x) p :: _ => return ([⟨.atom (.float x), p⟩], 1)
  | .atom (.str s) p :: _ => return ([⟨.atom (.str s), p⟩], 1)
  | .group .paren inner _ :: _ => do return (← inside.expr c (Token.withoutSemicolons inner), 1)
  | .atom (.keyword .func) p :: .group .paren params q :: tail =>
    funcLiteral inside c p (.atom (.keyword .func) p :: .group .paren params q :: tail) params tail
  | .group .bracket inner p :: ts => typeOperand inside c p (.group .bracket inner p :: ts)
  | .atom (.keyword .map) p :: ts => typeOperand inside c p (.atom (.keyword .map) p :: ts)
  | .atom (.keyword .struct) p :: ts => typeOperand inside c p (.atom (.keyword .struct) p :: ts)
  | t :: _ => fail (.strayInExpr t.text) t.pos
  | [] => failAt .exprExpected []

def operand (inside : Inside) (c : Place) (toks : List Token) : Shape (List Step × Nat) := do
  let (steps, n) ← head inside c toks
  let (steps, m) ← chain inside c steps (toks.drop n)
  return (steps, n + m)

/-! ## Operators -/

/-- A binary operator between operands: the step it leaves at once, and what waits. -/
def binary (c : Place) (op : Operator) (p : Pos) : Shape (List Step × Pending) := do
  match op with
  | .land =>
    let label ← fresh c "x"
    return ([⟨.jumpSetFalse label, p⟩], .logic op label)
  | .lor =>
    let label ← fresh c "x"
    return ([⟨.jumpSetTrue label, p⟩], .logic op label)
  | _ => return ([], .binary op)

/-- Shapes the rest of an expression. The first `skip` tokens are already done, `ops` are the operators that wait, the
one on top first, and `operandNext` says whether an operand must come. -/
def exprFrom (inside : Inside) (c : Place) :
    (toks : List Token) → (skip : Nat) → (ops : List (At Pending)) → (operandNext : Bool) → Shape (List Step)
  | [], _, _, true => failAt .operandExpected []
  | [], _, ops, false => return Pending.steps ops
  | _ :: ts, skip + 1, ops, operandNext => exprFrom inside c ts skip ops operandNext
  | t :: ts, 0, ops, true => do
    look t.pos
    match t with
    | .atom (.op op) p =>
      if op.isUnary then exprFrom inside c ts 0 (⟨.unary op, p⟩ :: ops) true
      else fail (.strayOperator op) p
    | _ =>
      let (steps, n) ← operand inside c (t :: ts)
      return steps ++ (← exprFrom inside c ts (n - 1) ops false)
  | t :: ts, 0, ops, false => do
    look t.pos
    match t with
    | .atom (.op op) p =>
      match op.precedence? with
      | none => fail (.statementOperator op) p
      | some prec =>
        let (jump, pending) ← binary c op p
        let (done, waiting) := ops.span (prec ≤ ·.val.precedence)
        return Pending.steps done ++ jump ++ (← exprFrom inside c ts 0 (⟨pending, p⟩ :: waiting) true)
    | t => fail (.strayInExpr t.text) t.pos

def exprWith (inside : Inside) (c : Place) (toks : List Token) : Shape (List Step) :=
  if toks.isEmpty then failAt .exprExpected [] else exprFrom inside c toks 0 [] true

/-! ## Composite literals -/

def elementTypes : TypeExpr → Option TypeExpr × Option TypeExpr
  | .slice e => (none, some e)
  | .map k v => (some k, some v)
  | _ => (none, none)

def fieldName? (elem : List Token) : Option String :=
  match elem.takeWhile (!·.is .colon) with
  | [.atom (.ident name) _] => some name
  | _ => none

def literalKeys (ty : TypeExpr) (elems : List (List Token)) : Keys :=
  if elems.all (!·.any (·.is .colon)) then .positional
  else
    match ty with
    | .map .. => .pairs
    | _ =>
      match elems.mapM fieldName? with
      | some names => .fields names
      | none => .pairs

def element (inside : Inside) (c : Place) (toks : List Token) (implied : Option TypeExpr) (p : Pos) :
    Shape (List Step) :=
  match toks, implied with
  | [.group .brace inner q], some ty => inside.composite c ty inner q
  | [.group .brace _ q], none => fail .elementType q
  | [], _ => fail .elementMissing p
  | toks, _ => exprWith inside c toks

def elements (inside : Inside) (c : Place) (keys : Keys) (key value : Option TypeExpr) (p : Pos) :
    List (List Token) → Shape (List Step)
  | [] => return []
  | elem :: elems => do
    let before := elem.takeWhile (!·.is .colon)
    let after := elem.drop (before.length + 1)
    let steps ← match keys with
      | .positional => element inside c elem value p
      | .fields _ => element inside c after none p
      | .pairs => do
        let k ← element inside c before key p
        let v ← element inside c after value p
        pure (k ++ v)
    return steps ++ (← elements inside c keys key value p elems)

def compositeWith (inside : Inside) (c : Place) (ty : TypeExpr) (toks : List Token) (p : Pos) :
    Shape (List Step) := do
  let elems := Token.commaList (Token.withoutSemicolons toks)
  let keyed := elems.countP (·.any (·.is .colon))
  if keyed ≠ 0 ∧ keyed ≠ elems.length then fail .mixedElements p
  else
    let keys := literalKeys ty elems
    let (key, value) := elementTypes ty
    let steps ← elements inside c keys key value p elems
    return steps ++ [⟨.composite ty elems.length keys, p⟩]

end Shape

end Goblet
